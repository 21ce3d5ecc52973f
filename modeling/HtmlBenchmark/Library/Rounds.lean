import Mathlib.Logic.Function.Iterate
import Mathlib.Order.Basic

/-!
Loops that do one thing over and over while a test holds.

What such a loop computes is settled by the number of its rounds. Two loops
whose tests and bodies are different still make the same number of rounds if
the test of one implies the test of the other, round by round, and the weaker
test fails where the stronger one does.
-/

namespace HtmlBenchmark.Library

variable {α β : Type*} {p : α → Prop} {f : α → α} {q : β → Prop} {g : β → β}

/-- From `x` a loop on `f` while `p` makes `k` rounds. -/
structure Rounds (p : α → Prop) (f : α → α) (x : α) (k : ℕ) : Prop where
  enters : ∀ j < k, p (f^[j] x)
  leaves : ¬p (f^[k] x)

namespace Rounds

theorem zero {x : α} (h : ¬p x) : Rounds p f x 0 := ⟨fun _ hj => absurd hj (Nat.not_lt_zero _), h⟩

theorem succ {x : α} {k : ℕ} (hx : p x) (h : Rounds p f (f x) k) : Rounds p f x (k + 1) where
  enters
    | 0, _ => hx
    | j + 1, hj => h.enters j (Nat.lt_of_succ_lt_succ hj)
  leaves := h.leaves

/-- A loop makes at most as many rounds as it takes for its test to fail. -/
theorem le_of_not {x : α} {k j : ℕ} (h : Rounds p f x k) (hj : ¬p (f^[j] x)) : k ≤ j :=
  Nat.le_of_not_lt fun hlt => hj (h.enters j hlt)

/-- Where the first test implies the second, the loops make the same number of
rounds exactly when the second is over with the first. -/
theorem eq_iff {x : α} {y : β} {k m : ℕ} (hk : Rounds p f x k) (hm : Rounds q g y m)
    (himp : ∀ j, p (f^[j] x) → q (g^[j] y)) : m = k ↔ ¬q (g^[k] y) := by
  constructor
  · rintro rfl
    exact hm.leaves
  · intro hq
    apply Nat.le_antisymm (hm.le_of_not hq)
    exact hk.le_of_not fun hp => hm.leaves (himp m hp)

end Rounds

end HtmlBenchmark.Library
