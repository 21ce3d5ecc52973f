import Mathlib.Data.Finset.Card

/-!
A ledger of what a program holds.

A program acquires names, uses them and gives them back. To use or to give back
a name that is not held is a fault, and a program that faults has no result. So
a program that ends has used nothing after giving it back, and given nothing back
twice; what it still holds that it did not hold before is in the ledger it ends
with. A name is never handed out a second time.
-/

namespace HtmlBenchmark.Library

/-- The names held, and the next name, which is behind all of them. -/
structure Ledger where
  live : Finset ℕ
  next : ℕ
  fresh : ∀ p ∈ live, p < next

/-- A program over a ledger; a fault is no result. -/
abbrev Ledgered := StateT Ledger Option

namespace Ledger

def insertNext (l : Ledger) : Ledger where
  live := insert l.next l.live
  next := l.next + 1
  fresh p hp := by
    rcases Finset.mem_insert.mp hp with rfl | hp
    · exact Nat.lt_succ_self _
    · exact Nat.lt_succ_of_lt (l.fresh p hp)

def erase (l : Ledger) (p : ℕ) : Ledger where
  live := l.live.erase p
  next := l.next
  fresh q hq := l.fresh q (Finset.mem_of_mem_erase hq)

@[simp] theorem live_insertNext (l : Ledger) : l.insertNext.live = insert l.next l.live := rfl

@[simp] theorem live_erase (l : Ledger) (p : ℕ) : (l.erase p).live = l.live.erase p := rfl

@[simp] theorem next_notMem (l : Ledger) : l.next ∉ l.live :=
  fun h => Nat.lt_irrefl _ (l.fresh _ h)

end Ledger

/-! ### The three operations -/

def acquire : Ledgered ℕ := fun l => some (l.next, l.insertNext)

def use (p : ℕ) : Ledgered Unit := fun l => if p ∈ l.live then some ((), l) else none

def release (p : ℕ) : Ledgered Unit := fun l => if p ∈ l.live then some ((), l.erase p) else none

/-! ### Programs that end -/

variable {α β : Type} {m : Ledgered α} {l : Ledger} {Q R : α → Ledger → Prop}

/-- Begun with the ledger `l`, the program ends without a fault, and in `Q`. -/
def Ends (m : Ledgered α) (l : Ledger) (Q : α → Ledger → Prop) : Prop :=
  ∃ a l', m l = some (a, l') ∧ Q a l'

theorem Ends.pure {a : α} (h : Q a l) : Ends (pure a : Ledgered α) l Q := ⟨a, l, rfl, h⟩

theorem Ends.mono (h : Ends m l Q) (hQ : ∀ a l', Q a l' → R a l') : Ends m l R := by
  obtain ⟨a, l', heq, hq⟩ := h
  exact ⟨a, l', heq, hQ a l' hq⟩

theorem Ends.bind {f : α → Ledgered β} {S : β → Ledger → Prop} (h : Ends m l Q)
    (hf : ∀ a l', Q a l' → Ends (f a) l' S) : Ends (m >>= f) l S := by
  obtain ⟨a, l', heq, hq⟩ := h
  obtain ⟨b, l'', heq', hs⟩ := hf a l' hq
  refine ⟨b, l'', ?_, hs⟩
  show (m l >>= fun r => f r.1 r.2) = some (b, l'')
  rw [heq]
  exact heq'

/-- What comes after a fault does not happen. -/
theorem bind_eq_none {f : α → Ledgered β} (h : m l = none) : (m >>= f) l = none := by
  show (m l >>= fun r => f r.1 r.2) = none
  rw [h]
  rfl

theorem Ends.bind_eq_none {f : α → Ledgered β} (h : Ends m l Q)
    (hf : ∀ a l', Q a l' → f a l' = none) : (m >>= f) l = none := by
  obtain ⟨a, l', heq, hq⟩ := h
  show (m l >>= fun r => f r.1 r.2) = none
  rw [heq]
  exact hf a l' hq

theorem Ends.ne_none (h : Ends m l Q) : m l ≠ none := by
  obtain ⟨a, l', heq, -⟩ := h
  rw [heq]
  exact Option.some_ne_none _

/-- A program ends in one way only. -/
theorem Ends.and (h : Ends m l Q) (h' : Ends m l R) : Ends m l fun a l' => Q a l' ∧ R a l' := by
  obtain ⟨a, l', heq, hq⟩ := h
  obtain ⟨b, l'', heq', hr⟩ := h'
  obtain ⟨rfl, rfl⟩ := Prod.mk.inj (Option.some.inj (heq.symm.trans heq'))
  exact ⟨a, l', heq, hq, hr⟩

theorem ends_acquire (l : Ledger) :
    Ends acquire l fun p l' => p = l.next ∧ l' = l.insertNext :=
  ⟨_, _, rfl, rfl, rfl⟩

theorem ends_use {p : ℕ} (hp : p ∈ l.live) : Ends (use p) l fun _ l' => l' = l :=
  ⟨_, _, if_pos hp, rfl⟩

theorem ends_release {p : ℕ} (hp : p ∈ l.live) : Ends (release p) l fun _ l' => l' = l.erase p :=
  ⟨_, _, if_pos hp, rfl⟩

end HtmlBenchmark.Library
