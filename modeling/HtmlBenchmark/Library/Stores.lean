import Mathlib.Data.List.Basic
import Mathlib.Data.Nat.Notation
import Mathlib.Logic.Function.Basic

/-!
Stores, one after another.

What a piece of code writes is the list of its stores, an address and a value
each. The memory afterwards is the memory before with the stores performed in
order, so a list that accounts for the memory afterwards has left no change
out, and where the addresses lie is a question about the list alone.

Memory is a function on addresses, which may name a region and an offset in it,
or a block with a length, to which a store behind the end does nothing.
-/

namespace HtmlBenchmark.Library

section Memory

variable {ι κ β : Type*} [DecidableEq ι]

def storeAll (m : ι → β) (stores : List (ι × β)) : ι → β :=
  stores.foldl (fun m s => Function.update m s.1 s.2) m

@[simp] theorem storeAll_nil (m : ι → β) : storeAll m [] = m := rfl

@[simp] theorem storeAll_cons (m : ι → β) (s : ι × β) (stores : List (ι × β)) :
    storeAll m (s :: stores) = storeAll (Function.update m s.1 s.2) stores := rfl

theorem storeAll_append (m : ι → β) (stores stores' : List (ι × β)) :
    storeAll m (stores ++ stores') = storeAll (storeAll m stores) stores' :=
  List.foldl_append

theorem storeAll_of_ne {m : ι → β} {stores : List (ι × β)} {i : ι}
    (h : ∀ s ∈ stores, s.1 ≠ i) : storeAll m stores i = m i := by
  induction stores generalizing m with
  | nil => rfl
  | cons s stores ih =>
      obtain ⟨hs, hstores⟩ := List.forall_mem_cons.mp h
      rw [storeAll_cons, ih hstores, Function.update_of_ne (Ne.symm hs)]

end Memory

section Regions

variable {ρ β : Type*}

/-- Stores to one region, by offset. -/
def inRegion (r : ρ) (stores : List (ℕ × β)) : List ((ρ × ℕ) × β) :=
  stores.map fun s => ((r, s.1), s.2)

@[simp] theorem inRegion_nil (r : ρ) : inRegion r ([] : List (ℕ × β)) = [] := rfl

theorem mem_inRegion {r : ρ} {stores : List (ℕ × β)} {s : (ρ × ℕ) × β} :
    s ∈ inRegion r stores ↔ s.1.1 = r ∧ (s.1.2, s.2) ∈ stores := by
  obtain ⟨⟨r', i⟩, v⟩ := s
  simp only [inRegion, List.mem_map, Prod.mk.injEq, Prod.exists]
  constructor
  · rintro ⟨i', v', hmem, ⟨rfl, rfl⟩, rfl⟩
    exact ⟨rfl, hmem⟩
  · rintro ⟨rfl, hmem⟩
    exact ⟨i, v, hmem, ⟨rfl, rfl⟩, rfl⟩

variable [DecidableEq ρ]

theorem storeAll_inRegion_self (m : ρ × ℕ → β) (r : ρ) (stores : List (ℕ × β)) (i : ℕ) :
    storeAll m (inRegion r stores) (r, i) = storeAll (fun i => m (r, i)) stores i := by
  induction stores generalizing m with
  | nil => rfl
  | cons s stores ih =>
      have hregion : (fun i => Function.update m (r, s.1) s.2 (r, i)) =
          Function.update (fun i => m (r, i)) s.1 s.2 := by
        ext i
        by_cases hi : i = s.1
        · rw [hi, Function.update_self, Function.update_self]
        · rw [Function.update_of_ne hi, Function.update_of_ne (by simp [hi])]
      show storeAll (Function.update m (r, s.1) s.2) (inRegion r stores) (r, i) = _
      rw [ih, hregion, storeAll_cons]

theorem storeAll_inRegion_of_ne {r r' : ρ} (h : r ≠ r') (m : ρ × ℕ → β) (stores : List (ℕ × β))
    (i : ℕ) : storeAll m (inRegion r stores) (r', i) = m (r', i) := by
  apply storeAll_of_ne
  intro s hs heq
  exact h ((mem_inRegion.mp hs).1.symm.trans (congrArg Prod.fst heq))

/-- The offsets stored to in one region. -/
def offsetsIn (r : ρ) (stores : List ((ρ × ℕ) × β)) : List ℕ :=
  (stores.filter fun s => s.1.1 = r).map fun s => s.1.2

theorem mem_offsetsIn {stores : List ((ρ × ℕ) × β)} {s : (ρ × ℕ) × β} (h : s ∈ stores) :
    s.1.2 ∈ offsetsIn s.1.1 stores := by
  refine List.mem_map.mpr ⟨s, List.mem_filter.mpr ⟨h, ?_⟩, rfl⟩
  exact decide_eq_true rfl

@[simp] theorem offsetsIn_nil (r : ρ) : offsetsIn r ([] : List ((ρ × ℕ) × β)) = [] := rfl

@[simp] theorem offsetsIn_inRegion_self (r : ρ) (stores : List (ℕ × β)) :
    offsetsIn r (inRegion r stores) = stores.map Prod.fst := by
  rw [offsetsIn, List.filter_eq_self.mpr fun s hs => by simp [(mem_inRegion.mp hs).1], inRegion,
    List.map_map]
  rfl

theorem offsetsIn_inRegion_of_ne {r r' : ρ} (h : r ≠ r') (stores : List (ℕ × β)) :
    offsetsIn r' (inRegion r stores) = [] := by
  rw [offsetsIn, List.filter_eq_nil_iff.mpr fun s hs => by simp [(mem_inRegion.mp hs).1, h]]
  rfl

end Regions

section Blocks

variable {β : Type*}

/-- A block after a sequence of stores. -/
def setAll (block : List β) (stores : List (ℕ × β)) : List β :=
  stores.foldl (fun block s => block.set s.1 s.2) block

@[simp] theorem setAll_cons (block : List β) (s : ℕ × β) (stores : List (ℕ × β)) :
    setAll block (s :: stores) = setAll (block.set s.1 s.2) stores := rfl

/-- The stores that put `src` in place from `offs` on. -/
def consecutive : ℕ → List β → List (ℕ × β)
  | _, [] => []
  | offs, c :: src => (offs, c) :: consecutive (offs + 1) src

theorem mem_consecutive {offs : ℕ} {src : List β} {s : ℕ × β} (h : s ∈ consecutive offs src) :
    offs ≤ s.1 ∧ s.1 < offs + src.length := by
  induction src generalizing offs with
  | nil => cases h
  | cons c src ih =>
      rw [List.length_cons]
      rcases List.mem_cons.mp h with rfl | h
      · exact ⟨Nat.le_refl _, by simp⟩
      · have := ih h
        omega

/-- Consecutive stores inside a block replace what was there. -/
theorem setAll_consecutive (before : List β) {old src : List β} (after : List β)
    (h : old.length = src.length) :
    setAll (before ++ old ++ after) (consecutive before.length src) = before ++ src ++ after := by
  induction src generalizing before old with
  | nil =>
      rw [List.length_nil, List.length_eq_zero_iff] at h
      rw [h]
      rfl
  | cons c src ih =>
      obtain ⟨o, old, rfl⟩ := List.exists_cons_of_length_eq_add_one h
      have hlength : old.length = src.length := by simpa using h
      have hrest := ih (before ++ [c]) hlength
      rw [consecutive, setAll_cons]
      simpa using hrest

end Blocks

end HtmlBenchmark.Library
