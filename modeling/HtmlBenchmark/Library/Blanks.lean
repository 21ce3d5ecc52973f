import Mathlib.Data.List.DropRight

/-!
Trimming a text and collapsing the blanks inside it.

The text is a list over any type, a predicate says which of its elements are
blank, and `sp` is the blank that stands for a run of them. `normalizeBlanks` is the
pure function. `overwrite` is what is left in memory when the result is written
over the text it was made from: the blanks in front, the result, and then
whatever of the text the result was too short to cover. Normalizing that a
second time never gives less than the first time, and gives as much only if
there was nothing to collapse.
-/

namespace HtmlBenchmark.Library

section Defs

variable {α : Type*} (p : α → Bool) (sp : α)

/-- The text without the blanks at its ends. -/
def trim (t : List α) : List α := (t.dropWhile p).rdropWhile p

/-- One `sp` for every run of blanks; `ws` says whether the next blank starts
a run. -/
def collapse : Bool → List α → List α
  | _, [] => []
  | ws, c :: t =>
      if p c then
        if ws then sp :: collapse false t else collapse ws t
      else c :: collapse true t

def normalizeBlanks (t : List α) : List α := collapse p sp true (trim p t)

def leading (t : List α) : ℕ := (t.takeWhile p).length

/-- The text with the elements from its first non-blank on replaced by `c`. -/
def overwrite (t c : List α) : List α :=
  t.takeWhile p ++ c ++ t.drop (leading p t + c.length)

/-- Neither empty nor blank at an end. -/
structure Tight (m : List α) : Prop where
  first : ∃ a s, m = a :: s ∧ p a = false
  last : ∃ s z, m = s ++ [z] ∧ p z = false

end Defs

section

variable {α : Type*} {p : α → Bool} {sp : α}

/-! ### Trimming -/

theorem Tight.dropWhile_append {m : List α} (h : Tight p m) (t : List α) :
    (m ++ t).dropWhile p = m ++ t := by
  obtain ⟨a, s, rfl, ha⟩ := h.first
  simp [ha]

theorem Tight.rdropWhile_eq {m : List α} (h : Tight p m) : m.rdropWhile p = m := by
  obtain ⟨s, z, rfl, hz⟩ := h.last
  exact List.rdropWhile_concat_neg p _ _ (by simp [hz])

theorem rdropWhile_append_blank {m b : List α} (hb : ∀ c ∈ b, p c) :
    (m ++ b).rdropWhile p = m.rdropWhile p := by
  induction b using List.reverseRecOn with
  | nil => rw [List.append_nil]
  | append_singleton b x ih =>
      rw [← List.append_assoc, List.rdropWhile_concat_pos p _ _ (hb x (by simp))]
      exact ih fun c hc => hb c (by simp [hc])

/-- A text with blanks around it is the text. -/
theorem trim_around {a m b : List α} (ha : ∀ c ∈ a, p c) (hm : Tight p m) (hb : ∀ c ∈ b, p c) :
    trim p (a ++ m ++ b) = m := by
  rw [trim, List.append_assoc, List.dropWhile_append_of_pos ha, hm.dropWhile_append,
    rdropWhile_append_blank hb, hm.rdropWhile_eq]

theorem trim_eq_nil_iff {t : List α} : trim p t = [] ↔ ∀ c ∈ t, p c := by
  rw [trim, List.rdropWhile_eq_nil_iff]
  constructor
  · intro h c hc
    rw [← List.takeWhile_append_dropWhile (p := p) (l := t), List.mem_append] at hc
    exact hc.elim (fun hc => List.mem_takeWhile_imp hc) (h c)
  · exact fun h c hc => h c ((List.dropWhile_sublist p).subset hc)

theorem trim_tight {t : List α} (h : trim p t ≠ []) : Tight p (trim p t) where
  first := by
    obtain ⟨a, s, hm⟩ := List.exists_cons_of_ne_nil h
    obtain ⟨rest, hrest⟩ : trim p t <+: t.dropWhile p := List.rdropWhile_prefix p _
    have hhead := List.head?_dropWhile_not p t
    rw [← hrest, hm] at hhead
    exact ⟨a, s, hm, by simpa using hhead⟩
  last :=
    ⟨(trim p t).dropLast, (trim p t).getLast h, (List.dropLast_append_getLast h).symm,
      Bool.eq_false_iff.mpr (List.rdropWhile_last_not p (t.dropWhile p) h)⟩

/-- Blanks, the trimmed text, blanks. -/
theorem exists_trim_around (t : List α) :
    ∃ b, t = t.takeWhile p ++ trim p t ++ b ∧ ∀ c ∈ b, p c := by
  refine ⟨(t.dropWhile p).rtakeWhile p, ?_, fun c hc => List.mem_rtakeWhile_imp hc⟩
  rw [trim, List.append_assoc, List.rdropWhile_append_rtakeWhile, List.takeWhile_append_dropWhile]

/-! ### Collapsing -/

theorem length_collapse_le (ws : Bool) (t : List α) : (collapse p sp ws t).length ≤ t.length := by
  induction t generalizing ws with
  | nil => exact Nat.le_refl _
  | cons c t ih =>
      simp only [collapse]
      split_ifs
      · simpa using ih false
      · exact Nat.le_succ_of_le (ih ws)
      · simpa using ih true

/-- Behind a non-blank the next blank starts a run. -/
theorem collapse_append (sp : α) {z : α} (hz : p z = false) (ws : Bool) (s t : List α) :
    collapse p sp ws (s ++ [z] ++ t) = collapse p sp ws s ++ z :: collapse p sp true t := by
  induction s generalizing ws with
  | nil => simp [collapse, hz]
  | cons c s ih =>
      simp only [List.cons_append, collapse]
      split_ifs
      · rw [ih, List.cons_append]
      · exact ih ws
      · rw [ih, List.cons_append]

theorem collapse_ne_nil {t : List α} {c : α} (hc : c ∈ t) (hp : p c = false) (ws : Bool) :
    collapse p sp ws t ≠ [] := by
  induction t generalizing ws with
  | nil => cases hc
  | cons d t ih =>
      simp only [collapse]
      split_ifs with hd
      · exact List.cons_ne_nil _ _
      · rcases List.mem_cons.mp hc with rfl | hc
        · rw [hp] at hd
          contradiction
        · exact ih hc ws
      · exact List.cons_ne_nil _ _

/-- What is collapsed stays as it is. -/
theorem collapse_collapse (hsp : p sp) (ws : Bool) (t : List α) :
    collapse p sp ws (collapse p sp ws t) = collapse p sp ws t := by
  induction t generalizing ws with
  | nil => rfl
  | cons c t ih =>
      simp only [collapse]
      split_ifs with hc hws
      · subst hws
        simp [collapse, hsp, ih]
      · exact ih ws
      · simp [collapse, hc, ih]

theorem Tight.collapse {m : List α} (h : Tight p m) : Tight p (collapse p sp true m) where
  first := by
    obtain ⟨a, s, rfl, ha⟩ := h.first
    exact ⟨a, Library.collapse p sp true s, by simp [Library.collapse, ha], ha⟩
  last := by
    obtain ⟨s, z, rfl, hz⟩ := h.last
    refine ⟨Library.collapse p sp true s, z, ?_, hz⟩
    simpa [Library.collapse] using collapse_append sp hz true s []

/-- The first element of a collapsed text may be exchanged for any non-blank. -/
theorem Tight.set_zero {m : List α} (h : Tight p m) {z : α} (hz : p z = false) :
    Tight p (m.set 0 z) := by
  obtain ⟨a, s, rfl, -⟩ := h.first
  refine ⟨⟨z, s, rfl, hz⟩, ?_⟩
  obtain ⟨s', y, hs, hy⟩ := h.last
  cases s' with
  | nil =>
      obtain ⟨-, rfl⟩ := List.cons.inj hs
      exact ⟨[], z, rfl, hz⟩
  | cons b s' =>
      obtain ⟨-, rfl⟩ := List.cons.inj hs
      exact ⟨z :: s', y, rfl, hy⟩

theorem collapse_set_zero {m : List α} (h : Tight p m) (hm : collapse p sp true m = m) {z : α}
    (hz : p z = false) : collapse p sp true (m.set 0 z) = m.set 0 z := by
  obtain ⟨a, s, rfl, ha⟩ := h.first
  simp only [collapse, ha, Bool.false_eq_true, if_false, List.cons.injEq, true_and] at hm
  simp [collapse, hz, hm]

/-! ### Writing the result back -/

theorem normalize_eq_nil_iff {t : List α} : normalizeBlanks p sp t = [] ↔ trim p t = [] := by
  constructor
  · intro h
    by_contra hne
    obtain ⟨a, s, hm, ha⟩ := (trim_tight hne).first
    exact collapse_ne_nil (c := a) (by simp [hm]) ha true h
  · intro h
    rw [normalizeBlanks, h, collapse]

theorem length_normalize_le (t : List α) : (normalizeBlanks p sp t).length ≤ (trim p t).length :=
  length_collapse_le true _

section Overwrite

variable {t c : List α}

theorem overwrite_eq {b : List α} (hb : t = t.takeWhile p ++ trim p t ++ b)
    (hc : c.length ≤ (trim p t).length) :
    overwrite p t c = t.takeWhile p ++ (c ++ (trim p t).drop c.length) ++ b := by
  have hdrop : t.drop (leading p t + c.length) = (trim p t).drop c.length ++ b := by
    rw [leading]
    generalize t.takeWhile p = a at hb
    generalize trim p t = m at hb hc
    rw [hb, List.append_assoc, ← List.drop_drop, List.drop_left,
      List.drop_append_of_le_length hc]
  rw [overwrite, hdrop]
  simp only [List.append_assoc]

theorem length_overwrite (hc : c.length ≤ (trim p t).length) :
    (overwrite p t c).length = t.length := by
  obtain ⟨b, hb, -⟩ := exists_trim_around (p := p) t
  have hlen := congrArg List.length hb
  rw [overwrite_eq hb hc]
  simp only [List.length_append, List.length_drop] at hlen ⊢
  omega

variable (hc : Tight p c) (hlen : c.length = (normalizeBlanks p sp t).length)
include hc hlen

/-- What is written back is trimmed to itself and the rest of the old text. -/
theorem trim_overwrite :
    Tight p (c ++ (trim p t).drop c.length) ∧
      trim p (overwrite p t c) = c ++ (trim p t).drop c.length := by
  have hle : c.length ≤ (trim p t).length := hlen ▸ length_normalize_le t
  have hne : trim p t ≠ [] := by
    rw [← List.length_pos_iff]
    obtain ⟨a, s, rfl, -⟩ := hc.first
    exact Nat.lt_of_lt_of_le (Nat.succ_pos _) hle
  have htight : Tight p (c ++ (trim p t).drop c.length) := by
    refine ⟨?_, ?_⟩
    · obtain ⟨a, s, rfl, ha⟩ := hc.first
      exact ⟨a, s ++ (trim p t).drop (a :: s).length, rfl, ha⟩
    · rcases Nat.lt_or_eq_of_le hle with hlt | heq
      · obtain ⟨s, z, hm, hz⟩ := (trim_tight hne).last
        rw [hm, List.length_append, List.length_singleton] at hlt
        refine ⟨c ++ s.drop c.length, z, ?_, hz⟩
        rw [hm, List.drop_append_of_le_length (by omega), List.append_assoc]
      · rw [List.drop_eq_nil_of_le heq.ge, List.append_nil]
        exact hc.last
  obtain ⟨b, hb, hblank⟩ := exists_trim_around (p := p) t
  rw [overwrite_eq hb hle]
  exact ⟨htight, trim_around (fun c hc => List.mem_takeWhile_imp hc) htight hblank⟩

/-- Nothing was collapsed: nothing is left of the old text. -/
theorem normalize_overwrite_of_eq (hcol : collapse p sp true c = c)
    (heq : (normalizeBlanks p sp t).length = (trim p t).length) :
    normalizeBlanks p sp (overwrite p t c) = c ∧ trim p (overwrite p t c) = c := by
  have htrim := (trim_overwrite hc hlen).2
  rw [List.drop_eq_nil_of_le (by omega), List.append_nil] at htrim
  rw [normalizeBlanks, htrim, hcol]
  exact ⟨rfl, rfl⟩

/-- Something was collapsed: what is left of the old text makes the new one
longer. -/
theorem length_normalize_overwrite_of_lt (hcol : collapse p sp true c = c)
    (hlt : (normalizeBlanks p sp t).length < (trim p t).length) :
    (normalizeBlanks p sp t).length < (normalizeBlanks p sp (overwrite p t c)).length := by
  have hne : trim p t ≠ [] := by
    rw [← List.length_pos_iff]
    omega
  obtain ⟨s, z, hm, hz⟩ := hc.last
  obtain ⟨s', y, hm', hy⟩ := (trim_tight hne).last
  have hrest : collapse p sp true ((trim p t).drop c.length) ≠ [] := by
    refine collapse_ne_nil (c := y) ?_ hy true
    rw [hm'] at hlt ⊢
    rw [List.length_append, List.length_singleton] at hlt
    rw [List.drop_append_of_le_length (by omega)]
    simp
  have hself : collapse p sp true s = s := by
    have hsplit := collapse_append sp hz true s []
    rw [List.append_nil, ← hm, hcol, hm] at hsplit
    exact (List.append_cancel_right hsplit).symm
  have hnorm : normalizeBlanks p sp (overwrite p t c) =
      c ++ collapse p sp true ((trim p t).drop c.length) := by
    rw [normalizeBlanks, (trim_overwrite hc hlen).2, hm, collapse_append sp hz, hself,
      List.append_assoc, List.singleton_append]
  have hpos := List.length_pos_iff.mpr hrest
  rw [hnorm, List.length_append]
  omega

end Overwrite

end

end HtmlBenchmark.Library
