import HtmlBenchmark.StreamParser.Blanks
import HtmlBenchmark.TestHsp.OnePass

/-!
The inner-text runs of a page and what becomes of each.

A run is a stretch of text together with the tag ends the parser reports behind
it, up to the next run. The text stays in the inner-text buffer all that time,
and every one of these tag ends may collect it or edit it in place. So what the
driver makes of a run is a function of the run alone: `Run.collected`. What it
should make of it is `Run.due`, and `collected_eq_due_iff` says of which runs
the two are equal.
-/

namespace HtmlBenchmark.TestHsp

open Library StreamParser

/-- The end of a tag, by the case of the driver it falls into. -/
inductive TagEnd
  | img
  | title (closing : Bool)
  | closing
  | other
  deriving DecidableEq, Repr

def tagEndAt (hsp : HtmlStreamParser) : TagEnd :=
  if htmlParserCmpTag hsp TAG_IMG then .img
  else if htmlParserCmpTag hsp TAG_ENDTITLE then .title hsp.htmlPart.closingTag
  else if hsp.htmlPart.closingTag then .closing
  else .other

/-- A stretch of text and the tag ends behind it. -/
structure Run where
  text : List UInt8
  ends : List TagEnd := []
  deriving DecidableEq, Repr

/-! ### What is due and what is collected -/

/-- The part of the text there is room for in `inner_buf`. -/
def Run.kept (r : Run) : List UInt8 := r.text.take 8191

/-- The run is followed by a tag, and that tag is not a `</title>`. -/
def Run.Due (r : Run) : Prop := r.ends ≠ [] ∧ r.ends.head? ≠ some (.title true)

instance (r : Run) : Decidable r.Due := inferInstanceAs (Decidable (_ ∧ _))

/-- The length of the run as the trimming helpers find it in a buffer. -/
def Run.trimmedLength (r : Run) : ℕ := (trimSpaces (cstr r.kept) r.kept.length).2.2

def Run.due (r : Run) : ℕ := if r.Due then r.trimmedLength else 0

/-- What the driver leaves of the text at a tag end. -/
def TagEnd.edit (t : List UInt8) : TagEnd → List UInt8
  | .title _ => (compactText t).set (leading ishtmlspace t) 0
  | .closing => compactText t
  | .img | .other => t

/-- What the driver collects at a tag end. -/
def TagEnd.collected (t : List UInt8) : TagEnd → ℕ
  | .closing => (normalizeText t).length
  | .title _ | .img | .other => 0

def collectedFrom : List UInt8 → List TagEnd → ℕ
  | _, [] => 0
  | t, e :: es => e.collected t + collectedFrom (e.edit t) es

def Run.collected (r : Run) : ℕ := collectedFrom r.kept r.ends

/-- What is left of the text in the buffer behind the tag ends so far. -/
def Run.left (r : Run) : List UInt8 := r.ends.foldl TagEnd.edit r.kept

theorem collectedFrom_append (t : List UInt8) (es : List TagEnd) (e : TagEnd) :
    collectedFrom t (es ++ [e]) = collectedFrom t es + e.collected (es.foldl TagEnd.edit t) := by
  induction es generalizing t with
  | nil => simp [collectedFrom]
  | cons d es ih => simp [collectedFrom, ih, Nat.add_assoc]

/-! ### Editing a text -/

/-- There is no run of blanks inside the text to collapse. -/
def Flat (t : List UInt8) : Prop := (normalizeText t).length = (trim ishtmlspace t).length

instance (t : List UInt8) : Decidable (Flat t) := inferInstanceAs (Decidable (_ = _))

section Edit

variable {t : List UInt8}

theorem takeWhile_eq_of_blank (h : normalizeText t = []) :
    t.takeWhile ishtmlspace = t ∧ compactText t = t := by
  have hall := trim_eq_nil_iff.mp (normalize_eq_nil_iff.mp h)
  have htake : t.takeWhile ishtmlspace = t := List.takeWhile_eq_self_iff.mpr hall
  refine ⟨htake, ?_⟩
  rw [compactText, overwrite, h, leading, htake]
  simp

theorem TagEnd.edit_of_blank (h : normalizeText t = []) (e : TagEnd) : e.edit t = t := by
  obtain ⟨htake, hcompact⟩ := takeWhile_eq_of_blank h
  cases e with
  | title closing =>
      rw [edit, hcompact, leading, htake]
      exact List.set_eq_of_length_le le_rfl
  | closing => exact hcompact
  | img => rfl
  | other => rfl

theorem normalizeText_tight (h : normalizeText t ≠ []) : Tight ishtmlspace (normalizeText t) :=
  (trim_tight fun htrim => h (normalize_eq_nil_iff.mpr htrim)).collapse

theorem collapse_normalizeText (t : List UInt8) :
    collapse ishtmlspace 32 true (normalizeText t) = normalizeText t :=
  collapse_collapse rfl true _

theorem edit_title_eq (h : normalizeText t ≠ []) (closing : Bool) :
    (TagEnd.title closing).edit t = overwrite ishtmlspace t ((normalizeText t).set 0 0) := by
  obtain ⟨a, s, hc⟩ := List.exists_cons_of_ne_nil h
  rw [TagEnd.edit, compactText, overwrite, overwrite, hc, leading, List.append_assoc,
    List.set_append_right _ _ le_rfl]
  simp

/-- An edited text is the normalized one, or that with its first byte cleared,
written over the old one. -/
theorem exists_edit_eq (h : normalizeText t ≠ []) (e : TagEnd) :
    e.edit t = t ∨ ∃ c, e.edit t = overwrite ishtmlspace t c ∧ Tight ishtmlspace c ∧
      c.length = (normalizeText t).length ∧ collapse ishtmlspace 32 true c = c := by
  have htight := normalizeText_tight h
  have hcol := collapse_normalizeText t
  cases e with
  | title closing =>
      exact .inr ⟨_, edit_title_eq h closing, htight.set_zero rfl, by simp,
        collapse_set_zero htight hcol rfl⟩
  | closing => exact .inr ⟨_, rfl, htight, rfl, hcol⟩
  | img => exact .inl rfl
  | other => exact .inl rfl

theorem TagEnd.length_edit (t : List UInt8) (e : TagEnd) : (e.edit t).length = t.length := by
  have hcompact : (compactText t).length = t.length := length_overwrite (length_normalize_le t)
  cases e with
  | title closing => rw [edit, List.length_set, hcompact]
  | closing => exact hcompact
  | img => rfl
  | other => rfl

theorem Run.length_left_le (r : Run) : r.left.length ≤ 8191 := by
  have hfold : ∀ (es : List TagEnd) (t : List UInt8),
      (es.foldl TagEnd.edit t).length = t.length := by
    intro es
    induction es with
    | nil => exact fun _ => rfl
    | cons e es ih => exact fun t => (ih (e.edit t)).trans (e.length_edit t)
  rw [left, hfold, kept, List.length_take]
  exact Nat.min_le_left _ _

/-- An edit keeps a flat text flat and as long as it was. -/
theorem Flat.edit (h : Flat t) (e : TagEnd) :
    (normalizeText (e.edit t)).length = (normalizeText t).length ∧ Flat (e.edit t) := by
  by_cases hblank : normalizeText t = []
  · rw [e.edit_of_blank hblank]
    exact ⟨rfl, h⟩
  · rcases exists_edit_eq hblank e with heq | ⟨c, heq, hc, hlen, hcol⟩
    · rw [heq]
      exact ⟨rfl, h⟩
    · obtain ⟨hnorm, htrim⟩ := normalize_overwrite_of_eq hc hlen hcol h
      rw [Flat, heq, htrim, normalizeText, hnorm]
      exact ⟨hlen, rfl⟩

/-- An edit never makes a text shorter. -/
theorem length_normalizeText_le_edit (t : List UInt8) (e : TagEnd) :
    (normalizeText t).length ≤ (normalizeText (e.edit t)).length := by
  by_cases hflat : Flat t
  · exact (hflat.edit e).1.ge
  · have hle : (normalizeText t).length ≤ (trim ishtmlspace t).length := length_normalize_le t
    by_cases hblank : normalizeText t = []
    · simp [hblank]
    · rcases exists_edit_eq hblank e with heq | ⟨c, heq, hc, hlen, hcol⟩
      · rw [heq]
      · rw [heq]
        exact (length_normalize_overwrite_of_lt hc hlen hcol
          (Nat.lt_of_le_of_ne hle hflat)).le

theorem length_normalizeText_lt_edit_title (h : ¬Flat t) (closing : Bool) :
    (normalizeText t).length < (normalizeText ((TagEnd.title closing).edit t)).length := by
  have hle : (normalizeText t).length ≤ (trim ishtmlspace t).length := length_normalize_le t
  have hblank : normalizeText t ≠ [] := by
    intro hblank
    refine h ?_
    rw [Flat, hblank, normalize_eq_nil_iff.mp hblank]
  have htight := normalizeText_tight hblank
  rw [edit_title_eq hblank]
  exact length_normalize_overwrite_of_lt (htight.set_zero rfl) (by simp [normalizeText])
    (collapse_set_zero htight (collapse_normalizeText t) rfl) (Nat.lt_of_le_of_ne hle h)

end Edit

/-! ### Runs collected once -/

/-- A `title` stands before the first tag end that collects. -/
def titleFirst : List TagEnd → Bool
  | [] => false
  | .title _ :: _ => true
  | .closing :: _ => false
  | .img :: es => titleFirst es
  | .other :: es => titleFirst es

/-- The run is blank, or it is due and collected by exactly one tag end, before
which no `title` has spoiled it, or it is not due and collected by none. -/
def Run.CollectedOnce (r : Run) : Prop :=
  normalizeText r.kept = [] ∨
    r.Due ∧ r.ends.count .closing = 1 ∧ (titleFirst r.ends → Flat r.kept) ∨
    ¬r.Due ∧ r.ends.count .closing = 0

instance (r : Run) : Decidable r.CollectedOnce :=
  inferInstanceAs (Decidable (_ ∨ _ ∧ _ ∧ (titleFirst r.ends = true → _) ∨ _ ∧ _))

theorem collectedFrom_of_blank {t : List UInt8} (h : normalizeText t = []) (es : List TagEnd) :
    collectedFrom t es = 0 := by
  induction es with
  | nil => rfl
  | cons e es ih =>
      rw [collectedFrom, e.edit_of_blank h, ih]
      cases e <;> simp [TagEnd.collected, h]

theorem count_mul_le_collectedFrom (t : List UInt8) (es : List TagEnd) :
    es.count .closing * (normalizeText t).length ≤ collectedFrom t es := by
  induction es generalizing t with
  | nil => simp
  | cons e es ih =>
      have hrest : es.count .closing * (normalizeText t).length ≤ collectedFrom (e.edit t) es :=
        (Nat.mul_le_mul_left _ (length_normalizeText_le_edit t e)).trans (ih (e.edit t))
      rw [collectedFrom]
      cases e with
      | closing =>
          rw [List.count_cons_self, Nat.succ_mul, TagEnd.collected]
          omega
      | title closing => simpa [TagEnd.collected] using hrest
      | img => simpa [TagEnd.collected] using hrest
      | other => simpa [TagEnd.collected] using hrest

theorem collectedFrom_of_count_zero {es : List TagEnd} (h : es.count .closing = 0)
    (t : List UInt8) : collectedFrom t es = 0 := by
  induction es generalizing t with
  | nil => rfl
  | cons e es ih =>
      have he : e ≠ .closing := by
        rintro rfl
        simp at h
      rw [List.count_cons_of_ne he] at h
      rw [collectedFrom, ih h]
      cases e <;> simp_all [TagEnd.collected]

theorem collectedFrom_of_flat {t : List UInt8} (hflat : Flat t) {es : List TagEnd}
    (h : es.count .closing = 1) : collectedFrom t es = (normalizeText t).length := by
  induction es generalizing t with
  | nil => simp at h
  | cons e es ih =>
      obtain ⟨hlen, hflat'⟩ := hflat.edit e
      rw [collectedFrom]
      by_cases he : e = .closing
      · subst he
        rw [List.count_cons_self] at h
        rw [collectedFrom_of_count_zero (by omega), TagEnd.collected, Nat.add_zero]
      · rw [List.count_cons_of_ne he] at h
        rw [ih hflat' h, hlen]
        cases e <;> simp_all [TagEnd.collected]

/-- With one tag end that collects, the text is collected as it was unless a
`title` came first and there was something to collapse. -/
theorem collectedFrom_eq_iff {t : List UInt8} {es : List TagEnd} (h : es.count .closing = 1) :
    collectedFrom t es = (normalizeText t).length ↔ (titleFirst es → Flat t) := by
  induction es with
  | nil => simp at h
  | cons e es ih =>
      rw [collectedFrom]
      cases e with
      | closing =>
          rw [List.count_cons_self] at h
          rw [collectedFrom_of_count_zero (by omega)]
          simp [TagEnd.collected, titleFirst]
      | title closing =>
          rw [List.count_cons_of_ne (by simp)] at h
          -- a title never shortens the text, and lengthens one that has blanks to collapse
          have hle := count_mul_le_collectedFrom ((TagEnd.title closing).edit t) es
          rw [h, Nat.one_mul] at hle
          simp only [TagEnd.collected, Nat.zero_add, titleFirst, forall_const]
          constructor
          · intro heq
            by_contra hflat
            have := length_normalizeText_lt_edit_title hflat closing
            omega
          · intro hflat
            obtain ⟨hlen, hflat'⟩ := hflat.edit (.title closing)
            rw [collectedFrom_of_flat hflat' h, hlen]
      | img =>
          rw [List.count_cons_of_ne (by simp)] at h
          simpa [TagEnd.collected, TagEnd.edit, titleFirst] using ih h
      | other =>
          rw [List.count_cons_of_ne (by simp)] at h
          simpa [TagEnd.collected, TagEnd.edit, titleFirst] using ih h

theorem Run.trimmedLength_eq (r : Run) : r.trimmedLength = (normalizeText r.kept).length := by
  rw [trimmedLength, (trimSpaces_spec _ _).2.1, readAt_cstr]

/-- **The fate of a run.** The driver collects what is due exactly of the runs
collected once. -/
theorem Run.collected_eq_due_iff (r : Run) : r.collected = r.due ↔ r.CollectedOnce := by
  by_cases hblank : normalizeText r.kept = []
  · simp [collected, due, CollectedOnce, hblank, collectedFrom_of_blank hblank, trimmedLength_eq]
  · have hpos := List.length_pos_iff.mpr hblank
    have hle := count_mul_le_collectedFrom r.kept r.ends
    simp only [collected, due, CollectedOnce, hblank, false_or, trimmedLength_eq]
    by_cases hdue : r.Due
    · simp only [hdue, if_true, true_and, not_true, false_and, or_false]
      by_cases hone : r.ends.count .closing = 1
      · simp only [hone, true_and]
        exact collectedFrom_eq_iff hone
      · simp only [hone, false_and, iff_false]
        intro heq
        -- collected by none it is lost, by two or more it is counted over
        rcases Nat.lt_or_gt_of_ne hone with hlt | hgt
        · rw [collectedFrom_of_count_zero (by omega)] at heq
          omega
        · have := Nat.mul_le_mul_right (normalizeText r.kept).length hgt
          omega
    · simp only [hdue, if_false, false_and, not_false_eq_true, true_and, false_or]
      constructor
      · intro heq
        by_contra hne
        have := Nat.mul_le_mul_right (normalizeText r.kept).length (Nat.pos_of_ne_zero hne)
        omega
      · exact fun h => collectedFrom_of_count_zero h _

end HtmlBenchmark.TestHsp
