import Mathlib.Data.List.Infix
import Mathlib.Data.Nat.Notation

/-!
Words that are read one letter at a time.

A reader that looks for a keyword behind a marker remembers two things: what
stands behind the last marker, and whether that can still become the keyword.
Here the first is a fold along the word, `behindLast`, and the second a question
about one more letter of a prefix.
-/

namespace HtmlBenchmark.Library

variable {α : Type*}

theorem append_singleton_prefix_iff {u l : List α} {a : α} :
    u ++ [a] <+: l ↔ u <+: l ∧ l[u.length]? = some a := by
  constructor
  · rintro ⟨v, rfl⟩
    exact ⟨⟨[a] ++ v, by simp⟩, by simp⟩
  · rintro ⟨⟨v, rfl⟩, ha⟩
    rw [List.getElem?_append_right (Nat.le_refl _), Nat.sub_self] at ha
    cases v with
    | nil => simp at ha
    | cons b v =>
        obtain rfl : b = a := by simpa using ha
        exact ⟨v, by simp⟩

section BehindLast

variable [DecidableEq α]

/-- One letter more behind the last marker. -/
def behindLastStep (marker : α) (t : Option (List α)) (a : α) : Option (List α) :=
  if a = marker then some [] else t.map (· ++ [a])

/-- What stands behind the last marker of a word. -/
def behindLast (marker : α) (w : List α) : Option (List α) :=
  w.foldl (behindLastStep marker) none

theorem behindLast_append_singleton (marker : α) (w : List α) (a : α) :
    behindLast marker (w ++ [a]) = behindLastStep marker (behindLast marker w) a := by
  simp [behindLast]

theorem behindLast_eq_some_iff {marker : α} {w x : List α} :
    behindLast marker w = some x ↔ ∃ v, w = v ++ marker :: x ∧ marker ∉ x := by
  induction w using List.reverseRecOn generalizing x with
  | nil => simp [behindLast]
  | append_singleton w a ih =>
      rw [behindLast_append_singleton, behindLastStep]
      split_ifs with ha
      · subst ha
        constructor
        · intro hx
          obtain rfl : [] = x := by simpa using hx
          exact ⟨w, rfl, List.not_mem_nil⟩
        · rintro ⟨v, hw, hx⟩
          -- a letter behind the marker would have to be the last one, the marker itself
          rcases List.eq_nil_or_concat x with rfl | ⟨y, b, rfl⟩
          · rfl
          · have hlast := congrArg List.getLast? hw
            simp only [List.concat_eq_append, List.getLast?_append,
              List.getLast?_cons, Option.some_or, Option.some.injEq] at hlast
            simp_all
      · rw [Option.map_eq_some_iff]
        constructor
        · rintro ⟨y, hy, rfl⟩
          obtain ⟨v, rfl, hnot⟩ := ih.mp hy
          refine ⟨v, by simp, ?_⟩
          rw [List.mem_append, List.mem_singleton]
          exact fun h => h.elim hnot fun h => ha h.symm
        · rintro ⟨v, hw, hx⟩
          rcases List.eq_nil_or_concat x with rfl | ⟨y, b, rfl⟩
          · exact absurd (List.append_inj' hw rfl).2 (by simpa using ha)
          · rw [List.concat_eq_append] at hw hx
            obtain ⟨hwy, hab⟩ := List.append_inj' (show w ++ [a] = (v ++ marker :: y) ++ [b] by
              simpa using hw) rfl
            simp only [List.cons.injEq, and_true] at hab
            refine ⟨y, ih.mpr ⟨v, hwy, fun h => hx (List.mem_append_left _ h)⟩, ?_⟩
            rw [hab, List.concat_eq_append]

end BehindLast

end HtmlBenchmark.Library
