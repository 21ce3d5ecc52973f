import Mathlib.Algebra.BigOperators.Group.List.Basic
import Mathlib.Algebra.Ring.Nat

/-!
Two readings of one list, compared element by element, pieces joined by a
separator, and what a fold leaves alone.

Two counts of which one can only be smaller are equal exactly when they are
equal at every element; so are two concatenations whose pieces have the same
lengths. What every round of a fold leaves alone, the fold leaves alone.
-/

namespace HtmlBenchmark.Library

variable {α : Type*}

theorem sum_map_le {f g : α → ℕ} {l : List α} (h : ∀ a ∈ l, f a ≤ g a) :
    (l.map f).sum ≤ (l.map g).sum := by
  induction l with
  | nil => exact Nat.le_refl _
  | cons a l ih =>
      obtain ⟨ha, hl⟩ := List.forall_mem_cons.mp h
      rw [List.map_cons, List.map_cons, List.sum_cons, List.sum_cons]
      exact Nat.add_le_add ha (ih hl)

theorem sum_map_eq_iff {f g : α → ℕ} {l : List α} (h : ∀ a ∈ l, f a ≤ g a) :
    (l.map f).sum = (l.map g).sum ↔ ∀ a ∈ l, f a = g a := by
  induction l with
  | nil => simp
  | cons a l ih =>
      obtain ⟨ha, hl⟩ := List.forall_mem_cons.mp h
      have hsum := sum_map_le hl
      rw [List.map_cons, List.map_cons, List.sum_cons, List.sum_cons, List.forall_mem_cons,
        ← ih hl]
      omega

theorem countP_eq_sum_map (p : α → Bool) (l : List α) :
    l.countP p = (l.map fun a => (p a).toNat).sum := by
  induction l with
  | nil => rfl
  | cons a l ih =>
      rw [List.countP_cons, ih, List.map_cons, List.sum_cons]
      cases p a <;> simp [Nat.add_comm]

theorem countP_eq_iff {p q : α → Bool} (h : ∀ a, q a → p a) (l : List α) :
    l.countP p = l.countP q ↔ ∀ a ∈ l, p a → q a := by
  have hle : ∀ a, (q a).toNat ≤ (p a).toNat := fun a => by
    have := h a
    cases hp : p a <;> cases hq : q a <;> simp_all
  rw [countP_eq_sum_map, countP_eq_sum_map, eq_comm, sum_map_eq_iff fun a _ => hle a]
  refine forall₂_congr fun a _ => ?_
  have := h a
  cases hp : p a <;> cases hq : q a <;> simp_all

theorem flatMap_eq_flatMap_iff {β : Type*} {f g : α → List β} {l : List α}
    (h : ∀ a ∈ l, (f a).length = (g a).length) :
    l.flatMap f = l.flatMap g ↔ ∀ a ∈ l, f a = g a := by
  induction l with
  | nil => simp
  | cons a l ih =>
      obtain ⟨ha, hl⟩ := List.forall_mem_cons.mp h
      rw [List.flatMap_cons, List.flatMap_cons, List.forall_mem_cons, ← ih hl]
      constructor
      · exact fun heq => List.append_inj heq ha
      · rintro ⟨hfst, hrest⟩
        rw [hfst, hrest]

theorem intercalate_cons_eq (sep x : List α) (xs : List (List α)) :
    sep.intercalate (x :: xs) = x ++ xs.flatMap (sep ++ ·) := by
  induction xs generalizing x with
  | nil => rw [List.intercalate_singleton, List.flatMap_nil, List.append_nil]
  | cons y ys ih => rw [List.intercalate_cons_cons, ih, List.flatMap_cons, List.append_assoc,
      List.append_assoc]

theorem length_intercalate (sep : List α) (xs : List (List α)) :
    (sep.intercalate xs).length =
      (xs.map List.length).sum + (xs.length - 1) * sep.length := by
  cases xs with
  | nil => simp
  | cons x xs =>
      have hrest : (xs.flatMap (sep ++ ·)).length =
          (xs.map List.length).sum + xs.length * sep.length := by
        induction xs with
        | nil => simp
        | cons y ys ih =>
            rw [List.flatMap_cons, List.length_append, ih, List.length_append, List.map_cons,
              List.sum_cons, List.length_cons, Nat.succ_mul]
            omega
      rw [intercalate_cons_eq, List.length_append, hrest, List.map_cons, List.sum_cons,
        List.length_cons, Nat.add_sub_cancel, Nat.add_assoc]

theorem foldl_preserves {σ β : Type*} {f : σ → α → σ} {g : σ → β}
    (h : ∀ s a, g (f s a) = g s) (l : List α) (s : σ) : g (l.foldl f s) = g s := by
  induction l generalizing s with
  | nil => rfl
  | cons a l ih => rw [List.foldl_cons, ih, h]

end HtmlBenchmark.Library
