import HtmlBenchmark.TestHsp.OnePass
import Mathlib.Data.Nat.Count

/-!
Links and images in the one pass over a page.

`linkCount` and `imgCount` are the numbers the driver is to find: the bytes
after which a link's `href` value has just ended, and the `img` tags with an
ended `src` or `alt` value, each tag once. A tag is named by the position of
the first byte of its name and lasts until the parser reports its end.

On pages where no image ends before the last two bytes there is at most one
`img` with a value, the first one the parser reports; the second half of the
file is about such pages.
-/

namespace HtmlBenchmark.TestHsp

open Library StreamParser Driver

/-- After byte `k` of the page. -/
def atByte (g : Statics) (page : List UInt8) (k : ℕ) : HtmlStreamParser :=
  parserAfter g page (k + 1)

/-- An `img` whose attribute `key` has its value just ended. -/
def imgValueAt (key : List UInt8) (hsp : HtmlStreamParser) : Bool :=
  htmlParserCmpTag hsp TAG_IMG && valueAt key hsp

/-- The ends of `href` values in links. -/
def linkCount (g : Statics) (page : List UInt8) (n : ℕ) : ℕ :=
  Nat.count (fun k => linkAt (atByte g page k) = true) n

/-- A tag name begins with byte `b`, and before the tag has ended it is seen to
be an `img` with an ended value of `key`. -/
def ImgWith (g : Statics) (page : List UInt8) (key : List UInt8) (b : ℕ) : Prop :=
  (atByte g page b).htmlPart.nameBeginning = true ∧
    ∃ k < page.length, b ≤ k ∧ (∀ j < k, b ≤ j → (atByte g page j).htmlPart.tagEnd = false) ∧
      imgValueAt key (atByte g page k) = true

instance (g : Statics) (page key : List UInt8) : DecidablePred (ImgWith g page key) :=
  fun b => inferInstanceAs (Decidable ((atByte g page b).htmlPart.nameBeginning = true ∧
    ∃ k < page.length, b ≤ k ∧ (∀ j < k, b ≤ j → (atByte g page j).htmlPart.tagEnd = false) ∧
      imgValueAt key (atByte g page k) = true))

/-- The `img` tags with an ended value of `key`. -/
def imgCount (g : Statics) (page key : List UInt8) : ℕ :=
  Nat.count (ImgWith g page key) page.length

/-! ### Tags in the one pass -/

section OnePass

variable {g : Statics} {page : List UInt8}

theorem atByte_eq {k : ℕ} (hk : k < page.length) :
    atByte g page k = htmlParserCharParse (parserAfter g page k) (page.getD k 0) :=
  parserAfter_succ g hk

theorem atByte_control {k : ℕ} (hk : k < page.length) :
    (atByte g page k).toControl =
      htmlParserControl (parserAfter g page k).toControl (page.getD k 0) := by
  rw [atByte_eq hk, charParse_toControl]

theorem atByte_ok (k : ℕ) : (atByte g page k).Ok := parserAfter_ok g page (k + 1)

theorem inValue_of_valueEnded_atByte {k : ℕ} (hk : k < page.length)
    (h : (atByte g page k).htmlPart.valueEnded) : (parserAfter g page k).inValue := by
  rw [atByte_control hk] at h
  exact (Control.follows _ _).valueEnded (parserAfter_ok g page k).control h

theorem not_inValue_of_tagEnd {hsp : HtmlStreamParser} (hok : hsp.Ok)
    (h : hsp.htmlPart.tagEnd) : hsp.inValue = false := by
  simp [Control.inValue, hok.control.tagEnd h]

theorem valueEnded_behind_tagEnd {k : ℕ} (hk : k + 1 < page.length)
    (h : (atByte g page k).htmlPart.tagEnd) :
    (atByte g page (k + 1)).htmlPart.valueEnded = false := by
  by_contra hv
  have hin := inValue_of_valueEnded_atByte hk (by simpa using hv)
  rw [show parserAfter g page (k + 1) = atByte g page k from rfl,
    not_inValue_of_tagEnd (atByte_ok k) h] at hin
  contradiction

/-- A name being read has begun, and its tag has not ended since. -/
theorem exists_nameBeginning {m : ℕ} (hm : m ≤ page.length)
    (h : (parserAfter g page m).parserState = .tagName) :
    ∃ b < m, (atByte g page b).htmlPart.nameBeginning ∧
      ∀ j < m, b ≤ j → (atByte g page j).htmlPart.tagEnd = false := by
  induction m with
  | zero => cases h
  | succ m ih =>
      have hend : (atByte g page m).htmlPart.tagEnd = false := by
        by_contra hend
        have hstate := (atByte_ok m).control.tagEnd (by simpa using hend)
        rw [atByte, h] at hstate
        contradiction
      have hcontrol := atByte_control (g := g) (show m < page.length by omega)
      rw [show (parserAfter g page (m + 1)).parserState = (atByte g page m).parserState from rfl,
        hcontrol] at h
      -- the name goes on, or this byte begins it
      rcases (Control.follows _ _).name h with hgoes | hbegins
      · obtain ⟨b, hb, hbegin, hopen⟩ := ih (by omega) hgoes
        refine ⟨b, by omega, hbegin, fun j hj hbj => ?_⟩
        rcases Nat.lt_succ_iff_lt_or_eq.mp hj with hj | rfl
        · exact hopen j hj hbj
        · exact hend
      · refine ⟨m, by omega, by rw [hcontrol]; exact hbegins, fun j hj hmj => ?_⟩
        obtain rfl : j = m := by omega
        exact hend

/-- Until its end, a tag whose name has begun is read on, so no other name
begins. -/
theorem open_until_end {b m : ℕ} (hm : m ≤ page.length) (hbm : b < m)
    (hbegin : (atByte g page b).htmlPart.nameBeginning)
    (hopen : ∀ j < m, b ≤ j → (atByte g page j).htmlPart.tagEnd = false) :
    (parserAfter g page m).parserState = .tagName ∨ (parserAfter g page m).inTag := by
  induction m with
  | zero => omega
  | succ m ih =>
      have hcontrol := atByte_control (g := g) (show m < page.length by omega)
      have hend := hopen m (by omega) (by omega)
      show (atByte g page m).parserState = .tagName ∨ (atByte g page m).inTag
      rcases Nat.lt_succ_iff_lt_or_eq.mp hbm with hlt | rfl
      · have hok := (parserAfter_ok g page m).control
        rcases ih (by omega) hlt fun j hj hbj => hopen j (by omega) hbj with hname | htag
        · rcases hok.of_tagName hname (page.getD m 0) with hgoes | hends
          · exact .inl (by rw [hcontrol]; exact hgoes)
          · rw [hcontrol] at hend ⊢
            exact .inr (hends.inTag.resolve_right (Bool.eq_false_iff.mp hend))
        · have hends := hok.behindName_of_inTag htag (page.getD m 0)
          rw [hcontrol] at hend ⊢
          exact .inr (hends.inTag.resolve_right (Bool.eq_false_iff.mp hend))
      · exact .inl ((atByte_ok b).control.nameBeginning hbegin)

theorem not_open_at_nameBeginning {b : ℕ} (hb : b < page.length)
    (hbegin : (atByte g page b).htmlPart.nameBeginning) :
    ¬((parserAfter g page b).parserState = .tagName ∨ (parserAfter g page b).inTag) := by
  rw [atByte_control hb] at hbegin
  have hstate := (Control.follows _ _).nameBeginning (parserAfter_ok g page b).control hbegin
  simp [Control.inTag, hstate]

end OnePass

/-! ### Pages where no image ends early -/

/-- No `img` is ended before the last two bytes of the page. -/
def NoEarlyImgEnd (g : Statics) (page : List UInt8) : Prop :=
  ∀ k, k + 2 < page.length →
    ¬(htmlParserCmpTag (atByte g page k) TAG_IMG = true ∧
      (atByte g page k).htmlPart.tagEnd = true)

instance (g : Statics) (page : List UInt8) : Decidable (NoEarlyImgEnd g page) :=
  decidable_of_iff (∀ k < page.length - 2, ¬(htmlParserCmpTag (atByte g page k) TAG_IMG = true ∧
      (atByte g page k).htmlPart.tagEnd = true))
    ⟨fun h k hk => h k (by omega), fun h k hk => h k (by omega)⟩

/-- Byte `k` is the first after which an `img` is reported. -/
structure FirstImg (g : Statics) (page : List UInt8) (k : ℕ) : Prop where
  onPage : k < page.length
  img : htmlParserCmpTag (atByte g page k) TAG_IMG = true
  first : ∀ j < k, htmlParserCmpTag (atByte g page j) TAG_IMG = false

theorem exists_firstImg {g : Statics} {page : List UInt8} {k : ℕ} (hk : k < page.length)
    (h : htmlParserCmpTag (atByte g page k) TAG_IMG = true) : ∃ k, FirstImg g page k := by
  have hex : ∃ k, k < page.length ∧ htmlParserCmpTag (atByte g page k) TAG_IMG = true :=
    ⟨k, hk, h⟩
  refine ⟨Nat.find hex, (Nat.find_spec hex).1, (Nat.find_spec hex).2, fun j hj => ?_⟩
  have hmin := Nat.find_min hex hj
  have hlt := (Nat.find_spec hex).1
  simpa [show j < page.length by omega] using hmin

section FirstImg

variable {g : Statics} {page : List UInt8} {k₀ : ℕ}

theorem FirstImg.name_ends (h : FirstImg g page k₀) :
    (parserAfter g page k₀).parserState = .tagName ∧ (atByte g page k₀).BehindName := by
  have himg := h.img
  rw [atByte_eq h.onPage] at himg ⊢
  refine (parserAfter_ok g page k₀).name_ends (s := TAG_IMG) (by decide) (by decide) ?_ himg
  cases k₀ with
  | zero => rfl
  | succ k => exact h.first k (by omega)

/-- Until its end, the first image stays the tag reported. -/
theorem FirstImg.goes_on (h : FirstImg g page k₀) {m : ℕ} (hm : m < page.length) (hk : k₀ ≤ m)
    (hopen : ∀ j < m, k₀ ≤ j → (atByte g page j).htmlPart.tagEnd = false) :
    (atByte g page m).BehindName ∧ htmlParserCmpTag (atByte g page m) TAG_IMG = true := by
  induction m with
  | zero =>
      obtain rfl : k₀ = 0 := by omega
      exact ⟨h.name_ends.2, h.img⟩
  | succ m ih =>
      rcases Nat.le_succ_iff.mp hk with hle | rfl
      · obtain ⟨hb, himg⟩ := ih (by omega) hle fun j hj hkj => hopen j (by omega) hkj
        have hgo := (atByte_ok m).tag_goes_on hb (hopen m (by omega) hle) (page.getD (m + 1) 0)
        rw [atByte_eq hm]
        exact ⟨hgo.1, (hgo.2 TAG_IMG).trans himg⟩
      · exact ⟨h.name_ends.2, h.img⟩

/-- Once the first image has ended, nothing on the page counts any more: at most
one byte is left, and no value ends there. -/
theorem FirstImg.valueEnded_behind (h : FirstImg g page k₀) (hno : NoEarlyImgEnd g page) {m : ℕ}
    (hm : m < page.length) (hend : ∃ j < m, k₀ ≤ j ∧ (atByte g page j).htmlPart.tagEnd = true) :
    (atByte g page m).htmlPart.valueEnded = false := by
  have hfind := Nat.find_spec hend
  have hmin : ∀ j < Nat.find hend, k₀ ≤ j → (atByte g page j).htmlPart.tagEnd = false := by
    intro j hj hkj
    have hne := Nat.find_min hend hj
    have hjm : j < m := by omega
    simpa [hjm, hkj] using hne
  -- `e` is the byte that ends the first image
  generalize Nat.find hend = e at hfind hmin
  obtain ⟨hem, hke, htagEnd⟩ := hfind
  have himg := (h.goes_on (by omega) hke hmin).2
  have hlast : ¬e + 2 < page.length := fun hlt => hno e hlt ⟨himg, htagEnd⟩
  obtain rfl : m = e + 1 := by omega
  exact valueEnded_behind_tagEnd hm htagEnd

theorem FirstImg.valueEnded_upTo (h : FirstImg g page k₀) {m : ℕ} (hm : m = k₀) :
    (atByte g page m).htmlPart.valueEnded = false := by
  subst hm
  by_contra hv
  have hin := inValue_of_valueEnded_atByte h.onPage (by simpa using hv)
  simp [Control.inValue, h.name_ends.1] at hin

/-- Where an image's value ends, the first image is still open. -/
theorem FirstImg.open_at_value (h : FirstImg g page k₀) (hno : NoEarlyImgEnd g page) {m : ℕ}
    (hm : m < page.length) {key : List UInt8} (hv : imgValueAt key (atByte g page m) = true) :
    k₀ < m ∧ ∀ j < m, k₀ ≤ j → (atByte g page j).htmlPart.tagEnd = false := by
  simp only [imgValueAt, valueAt, Bool.and_eq_true] at hv
  refine ⟨?_, fun j hj hkj => ?_⟩
  · rcases Nat.lt_trichotomy m k₀ with hlt | heq | hgt
    · simp [h.first m hlt] at hv
    · simp [h.valueEnded_upTo heq] at hv
    · exact hgt
  · by_contra hend
    simp [h.valueEnded_behind hno hm ⟨j, hj, hkj, by simpa using hend⟩] at hv

/-- While the first image is open, values of `key` in it are values of `key`. -/
theorem FirstImg.imgValueAt_eq (h : FirstImg g page k₀) {m : ℕ} (hm : m < page.length)
    (hk : k₀ ≤ m) (hopen : ∀ j < m, k₀ ≤ j → (atByte g page j).htmlPart.tagEnd = false)
    (key : List UInt8) : imgValueAt key (atByte g page m) = valueAt key (atByte g page m) := by
  simp [imgValueAt, (h.goes_on hm hk hopen).2]

/-- No link is counted from the first image on. -/
theorem FirstImg.linkAt_eq_false (h : FirstImg g page k₀) (hno : NoEarlyImgEnd g page) {m : ℕ}
    (hm : m < page.length) (hk : k₀ ≤ m) : linkAt (atByte g page m) = false := by
  by_cases hopen : ∀ j < m, k₀ ≤ j → (atByte g page j).htmlPart.tagEnd = false
  · have himg := (h.goes_on hm hk hopen).2
    have hne : htmlParserCmpTag (atByte g page m) TAG_A = false := by
      by_contra ha
      have h₁ := cmpTag_first (by decide) himg
      have h₂ := cmpTag_first (s := TAG_A) (by decide) (by simpa using ha)
      exact absurd (h₁.trans h₂.symm) (by decide)
    simp [linkAt, hne]
  · push Not at hopen
    obtain ⟨j, hj, hkj, hend⟩ := hopen
    have hv := h.valueEnded_behind hno hm ⟨j, hj, hkj, by simpa using hend⟩
    simp [linkAt, hv]

/-- The first image is the only one with a value. -/
theorem FirstImg.imgWith_unique (h : FirstImg g page k₀) (hno : NoEarlyImgEnd g page)
    {key : List UInt8} {b b' : ℕ} (hb : ImgWith g page key b) (hb' : ImgWith g page key b') :
    b = b' := by
  -- A name that begins behind `k₀` would begin inside the first image.
  have early : ∀ {b}, ImgWith g page key b → b ≤ k₀ ∧ k₀ < page.length ∧
      ∀ j ≤ k₀, b ≤ j → (atByte g page j).htmlPart.tagEnd = false := by
    rintro b ⟨hbegin, k, hk, hbk, hopen, hv⟩
    obtain ⟨hk₀, hopen₀⟩ := h.open_at_value hno hk hv
    refine ⟨?_, h.onPage, fun j hj hbj => hopen j (by omega) hbj⟩
    by_contra hlt
    obtain ⟨m, rfl⟩ : ∃ m, b = m + 1 := ⟨b - 1, by omega⟩
    have hgo := (h.goes_on (m := m) (by omega) (by omega) fun j hj hkj => hopen₀ j (by omega) hkj).1
    have hin := hgo.inTag.resolve_right (by simp [hopen₀ m (by omega) (by omega)])
    exact not_open_at_nameBeginning (by omega) hbegin (.inr hin)
  have later : ∀ {b b'}, ImgWith g page key b → ImgWith g page key b' → ¬b < b' := by
    intro b b' hb hb' hlt
    obtain ⟨hbk, hk, hopen⟩ := early hb
    have hbk' := (early hb').1
    refine not_open_at_nameBeginning (by omega) hb'.1
      (open_until_end (b := b) (by omega) hlt hb.1 fun j hj hbj => hopen j (by omega) hbj)
  rcases Nat.lt_trichotomy b b' with hlt | heq | hgt
  · exact absurd hlt (later hb hb')
  · exact heq
  · exact absurd hgt (later hb' hb)

/-- Some byte ends a value of `key` in an `img`. -/
def HasImgValue (g : Statics) (page key : List UInt8) (n : ℕ) : Prop :=
  ∃ k < n, imgValueAt key (atByte g page k) = true

instance (g : Statics) (page key : List UInt8) (n : ℕ) : Decidable (HasImgValue g page key n) :=
  inferInstanceAs (Decidable (∃ k < n, imgValueAt key (atByte g page k) = true))

theorem imgCount_of_noEarlyImgEnd (hno : NoEarlyImgEnd g page) (key : List UInt8) :
    imgCount g page key = (decide (HasImgValue g page key page.length)).toNat := by
  by_cases hv : HasImgValue g page key page.length
  · obtain ⟨k, hk, hkv⟩ := hv
    have himg : htmlParserCmpTag (atByte g page k) TAG_IMG = true := by
      simp only [imgValueAt, Bool.and_eq_true] at hkv
      exact hkv.1
    obtain ⟨k₀, h⟩ := exists_firstImg hk himg
    obtain ⟨hk₀, hopen⟩ := h.open_at_value hno hk hkv
    obtain ⟨b, hb, hbegin, hopen₀⟩ := exists_nameBeginning (by omega) h.name_ends.1
    have hwith : ImgWith g page key b := by
      refine ⟨hbegin, k, hk, by omega, fun j hj hbj => ?_, hkv⟩
      by_cases hjk : j < k₀
      · exact hopen₀ j hjk hbj
      · exact hopen j hj (by omega)
    have hcard : ((Finset.range page.length).filter (ImgWith g page key)).card = 1 := by
      refine Finset.card_eq_one.mpr ⟨b, Finset.eq_singleton_iff_unique_mem.mpr ⟨?_, ?_⟩⟩
      · simp only [Finset.mem_filter, Finset.mem_range]
        exact ⟨by omega, hwith⟩
      · intro b' hb'
        exact h.imgWith_unique hno (Finset.mem_filter.mp hb').2 hwith
    rw [imgCount, Nat.count_eq_card_filter_range, hcard, decide_eq_true ⟨k, hk, hkv⟩]
    rfl
  · have hcard : (Finset.range page.length).filter (ImgWith g page key) = ∅ := by
      refine Finset.filter_eq_empty_iff.mpr fun b _ hb => hv ?_
      obtain ⟨-, k, hk, -, -, hkv⟩ := hb
      exact ⟨k, hk, hkv⟩
    rw [imgCount, Nat.count_eq_card_filter_range, hcard, decide_eq_false hv]
    rfl

end FirstImg

end HtmlBenchmark.TestHsp
