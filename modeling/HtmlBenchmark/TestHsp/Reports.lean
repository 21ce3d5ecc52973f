import HtmlBenchmark.StreamParser.Reports
import HtmlBenchmark.TestHsp.Counting

/-!
What the driver counts, in terms of what the parser reports.

`test_hsp` is a client of the parser that asks after every byte. On a page on
which no name `img` is reported it asks nothing but what the reports say: its
links are the reported values of `href` in an `a`.
-/

namespace HtmlBenchmark.TestHsp

open Library StreamParser Driver

/-- The sizes of the buffers `test_hsp` hands to the parser. -/
def hspLength : Buffer → ℕ
  | .tagName | .attrName => 9
  | .attrValue => 127
  | .innerText => 8191

/-- The static buffers by their use. -/
def Statics.buffer (g : Statics) : Buffer → Buf
  | .tagName => g.tagBuf
  | .attrName => g.attrBuf
  | .attrValue => g.valBuf
  | .innerText => g.innerBuf

/-- The reports `test_hsp` could have had of a page. -/
def reportsOf (g : Statics) (page : List UInt8) : List Report := client.outputs (configured g) page

/-! ### Questions and reports -/

section Questions

variable {name : List UInt8}

theorem cmpTag_iff_read (hsp : HtmlStreamParser) (hnul : 0 ∉ name) :
    htmlParserCmpTag hsp name = true ↔ hsp.read .tagName = name := cmp_iff _ _ hnul

theorem cmpAttr_iff_read (hsp : HtmlStreamParser) (hnul : 0 ∉ name) :
    htmlParserCmpAttr hsp name = true ↔ hsp.read .attrName = name := cmp_iff _ _ hnul

end Questions

def isLink : Report → Bool
  | .value tag key _ => tag = TAG_A && key = ATTR_HREF
  | _ => false

theorem countP_optional {α : Type*} (p : α → Bool) (b : Bool) (a : α) :
    (if b then [a] else []).countP p = (b && p a).toNat := by
  cases b
  · rfl
  · cases hp : p a <;> simp [hp]

/-- The reports of one byte hold a link where the driver finds one. -/
theorem countP_reported (wasText : Bool) (hsp : HtmlStreamParser) :
    (reported wasText hsp.htmlPart hsp.read).countP isLink = (linkAt hsp).toNat := by
  have htag : htmlParserCmpTag hsp TAG_A = decide (hsp.read .tagName = TAG_A) :=
    Bool.eq_iff_iff.mpr ((cmpTag_iff_read hsp (by decide)).trans decide_eq_true_iff.symm)
  have hattr : htmlParserCmpAttr hsp ATTR_HREF = decide (hsp.read .attrName = ATTR_HREF) :=
    Bool.eq_iff_iff.mpr ((cmpAttr_iff_read hsp (by decide)).trans decide_eq_true_iff.symm)
  rw [linkAt, htag, hattr, reported]
  simp only [List.countP_append, countP_optional]
  cases hsp.htmlPart.comment <;> cases hsp.htmlPart.closingTag <;> simp [isLink, Bool.and_comm]

/-! ### The reports of a page, byte by byte -/

section Page

variable {g : Statics} {page : List UInt8}

theorem parserAfter_eq (g : Statics) (page : List UInt8) (k : ℕ) :
    parserAfter g page k = client.run (configured g) (page.take k) := rfl

theorem reportsOf_take_succ {k : ℕ} (hk : k < page.length) :
    reportsOf g (page.take (k + 1)) = reportsOf g (page.take k) ++
      reported (parserAfter g page k).htmlPart.innerText (atByte g page k).htmlPart
        (atByte g page k).read := by
  have htake : page.take (k + 1) = page.take k ++ [page.getD k 0] := by
    rw [List.take_succ_eq_append_getElem hk, List.getElem_eq_getD 0]
  rw [reportsOf, htake, Transducer.outputs_append, ← parserAfter_eq, atByte_eq hk]
  simp [reportsOf, client]

/-- **Links** are reported values. -/
theorem linkCount_eq_countP (g : Statics) (page : List UInt8) :
    linkCount g page page.length = (reportsOf g page).countP isLink := by
  have hall : ∀ k ≤ page.length,
      linkCount g page k = (reportsOf g (page.take k)).countP isLink := by
    intro k
    induction k with
    | zero => exact fun _ => by simp [linkCount, reportsOf]
    | succ k ih =>
        intro hk
        rw [linkCount_succ, ih (by omega), reportsOf_take_succ hk, List.countP_append,
          countP_reported]
  rw [hall page.length (Nat.le_refl _), List.take_length]

theorem nameEnded_of_behindName {s : Control} {c : UInt8} (hs : s.parserState = .tagName)
    (hb : (htmlParserControl s c).inName = false) (hok : s.Ok) :
    (htmlParserControl s c).htmlPart.nameEnded = true := by
  rw [htmlParserControl_of_ne (by simp [hs])] at hb ⊢
  rw [htmlParserScript_inName] at hb
  rw [htmlParserScript_htmlPart]
  have hname := hok.name.mpr hs
  generalize hs' : htmlParserSwitch s c = s' at hb
  simp only [htmlParserSwitch, hs] at hs'
  split_ifs at hs' <;> subst hs'
  · rfl
  · rfl
  · simp [Control.inName, hname] at hb

/-- Where no name `img` is reported, the driver never sees an image. -/
theorem noImg_of_reports (hno : .name TAG_IMG ∉ reportsOf g page) {k : ℕ} (hk : k < page.length) :
    htmlParserCmpTag (atByte g page k) TAG_IMG = false := by
  by_contra himg
  obtain ⟨m, hfirst⟩ := exists_firstImg hk (by simpa using himg)
  obtain ⟨hstate, hbehind⟩ := hfirst.name_ends
  have hended : (atByte g page m).htmlPart.nameEnded = true := by
    have hin := hbehind.inName
    rw [atByte_control hfirst.onPage] at hin ⊢
    exact nameEnded_of_behindName hstate hin (parserAfter_ok g page m).control
  have hread := (cmpTag_iff_read _ (by decide)).mp hfirst.img
  have hmem : .name TAG_IMG ∈ reportsOf g (page.take (m + 1)) := by
    rw [reportsOf_take_succ hfirst.onPage, reported, if_pos hended, hread]
    simp
  refine hno ?_
  rw [← List.take_append_drop (m + 1) page, reportsOf, Transducer.outputs_append]
  exact List.mem_append_left _ hmem

/-- **A page without images.** `test_hsp` counts the links that are reported, and
nothing else. -/
theorem finish_counted_of_reports (hno : .name TAG_IMG ∉ reportsOf g page) (result : TestResult) :
    (finish g result page).Counted result ((reportsOf g page).countP isLink) 0 0 := by
  have hnoEarly : NoEarlyImgEnd g page := fun k hk hend => by
    rw [noImg_of_reports hno (by omega)] at hend
    cases hend.1
  have hcounted := finish_counted hnoEarly result
  have hnone : ∀ key, imgSeen g page key (page.length - 1) = 0 := fun key => by
    rw [imgSeen, decide_eq_false (not_hasImgValue_of_no_img fun j hj =>
      noImg_of_reports hno (by omega))]
    rfl
  rwa [hnone, hnone, linkCount_eq_countP] at hcounted

end Page

end HtmlBenchmark.TestHsp
