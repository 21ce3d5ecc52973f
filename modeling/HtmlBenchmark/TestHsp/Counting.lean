import HtmlBenchmark.TestHsp.Phases

/-!
The driver's count of links and images against the one pass.

On a page where no image ends early its totals are those of the one pass up to
the last byte. That byte is parsed only by the `for` loop, so a value that ends
there, in a tag that ends nowhere or just there, is missed.
-/

namespace HtmlBenchmark.TestHsp

open Library StreamParser Driver

section Events

variable {g : Statics} {page : List UInt8}

theorem linkCount_succ (n : ℕ) :
    linkCount g page (n + 1) = linkCount g page n + (linkAt (atByte g page n)).toNat := by
  rw [linkCount, Nat.count_succ, linkCount]
  cases linkAt (atByte g page n) <;> rfl

theorem hasImgValue_succ {key : List UInt8} (n : ℕ) :
    HasImgValue g page key (n + 1) ↔
      HasImgValue g page key n ∨ imgValueAt key (atByte g page n) = true := by
  constructor
  · rintro ⟨k, hk, hv⟩
    rcases Nat.lt_succ_iff_lt_or_eq.mp hk with hk | rfl
    · exact .inl ⟨k, hk, hv⟩
    · exact .inr hv
  · rintro (⟨k, hk, hv⟩ | hv)
    · exact ⟨k, by omega, hv⟩
    · exact ⟨n, by omega, hv⟩

theorem decide_hasImgValue_succ {key : List UInt8} (n : ℕ) :
    decide (HasImgValue g page key (n + 1)) =
      (decide (HasImgValue g page key n) || imgValueAt key (atByte g page n)) := by
  rw [Bool.eq_iff_iff]
  simp [hasImgValue_succ]

theorem not_hasImgValue_of_no_img {key : List UInt8} {n : ℕ}
    (h : ∀ j < n, htmlParserCmpTag (atByte g page j) TAG_IMG = false) :
    ¬HasImgValue g page key n := by
  rintro ⟨k, hk, hv⟩
  simp [imgValueAt, h k hk] at hv

variable {k₀ : ℕ}

/-- Where the first image is found, none of its values has ended. -/
theorem FirstImg.not_hasImgValue (h : FirstImg g page k₀) (key : List UInt8) :
    ¬HasImgValue g page key (k₀ + 1) := by
  rw [hasImgValue_succ]
  rintro (hv | hv)
  · exact not_hasImgValue_of_no_img h.first hv
  · simp [imgValueAt, valueAt, h.valueEnded_upTo rfl] at hv

theorem FirstImg.linkCount_eq (h : FirstImg g page k₀) (hno : NoEarlyImgEnd g page) {m : ℕ}
    (hk : k₀ ≤ m) (hm : m ≤ page.length) :
    linkCount g page m = linkCount g page page.length := by
  -- no byte behind the image adds a link
  have hfar : ∀ n, m + n ≤ page.length → linkCount g page (m + n) = linkCount g page m := by
    intro n
    induction n with
    | zero => exact fun _ => rfl
    | succ n ih =>
        intro hle
        rw [← Nat.add_assoc, linkCount_succ, ih (by omega),
          h.linkAt_eq_false hno (m := m + n) (by omega) (by omega)]
        rfl
  obtain ⟨n, hn⟩ := Nat.exists_eq_add_of_le hm
  rw [hn, hfar n (by omega)]

end Events

/-! ### What the driver counts -/

namespace Driver

theorem linkAt_congr {p q : HtmlStreamParser} (h : p.SameTags q) : linkAt p = linkAt q := by
  simp only [linkAt, h.cmpTag_eq, h.cmpAttr_eq, h.htmlPart_eq]

theorem valueAt_congr {p q : HtmlStreamParser} (h : p.SameTags q) (key : List UInt8) :
    valueAt key p = valueAt key q := by
  simp only [valueAt, h.cmpAttr_eq, h.htmlPart_eq]

/-- The totals have grown by these numbers. -/
structure Counted (base : TestResult) (d : Driver) (href src alt : ℕ) : Prop where
  totalHref : d.result.totalHref = base.totalHref + href
  totalSrc : d.result.totalSrc = base.totalSrc + src
  totalAlt : d.result.totalAlt = base.totalAlt + alt

/-- An `img` value of `key` has ended within the first `n` bytes, as a count. -/
def imgSeen (g : Statics) (page key : List UInt8) (n : ℕ) : ℕ :=
  (decide (HasImgValue g page key n)).toNat

/-- The driver has counted what the one pass has reported so far, but for a
value at the last byte; the flags of the `while` loop say the same. -/
structure Counting (g : Statics) (page : List UInt8) (base : TestResult) (d : Driver) : Prop where
  phase : d.Phase g page
  counted : d.Counted base (linkCount g page (min d.fed page.length))
    (imgSeen g page ATTR_SRC (min d.fed (page.length - 1)))
    (imgSeen g page ATTR_ALT (min d.fed (page.length - 1)))
  flags : ∀ {imgSrc imgAlt}, d.pc = .whileTest imgSrc imgAlt →
    imgSrc = decide (HasImgValue g page ATTR_SRC (min d.fed (page.length - 1))) ∧
      imgAlt = decide (HasImgValue g page ATTR_ALT (min d.fed (page.length - 1)))

variable {g : Statics} {page : List UInt8} {base : TestResult} {d : Driver}

/-- Before the first image the `for` loop counts the links. -/
theorem Counting.forBody (hd : d.Counting g page base) (h : d.BeforeImg g page)
    (hphase : (d.forBody (page.getD d.i 0)).Phase g page) (hpc : d.pc = .forTest)
    (hi : d.i < page.length) : (d.forBody (page.getD d.i 0)).Counting g page base := by
  have hnone : ∀ key, ∀ m ≤ d.i + 1, ¬HasImgValue g page key m := by
    rintro key m hm ⟨k, hk, hv⟩
    rcases Nat.lt_or_eq_of_le (show k ≤ d.i by omega) with hlt | rfl
    · simp [imgValueAt, h.noImg k hlt] at hv
    · have hfirst : FirstImg g page d.i := ⟨hi, by simp_all [imgValueAt], h.noImg⟩
      exact hfirst.not_hasImgValue key ⟨d.i, by omega, hv⟩
  have hfed : d.fed = d.i := fed_forTest hpc
  have hfed' := fed_forBody hpc (page.getD d.i 0)
  have hlinks := hd.counted.totalHref
  have hsrc := hd.counted.totalSrc
  have halt := hd.counted.totalAlt
  rw [hfed] at hlinks hsrc halt hfed'
  refine ⟨hphase, ⟨?_, ?_, ?_⟩, fun {imgSrc imgAlt} hpc' => ?_⟩
  · rw [forBody_totalHref, linkAt_congr (h.inStep.atByte_for hpc hi), hlinks, hfed',
      Nat.min_eq_left hi.le, Nat.min_eq_left hi, linkCount_succ, Nat.add_assoc]
  · rw [forBody_totalSrc, hsrc, hfed', imgSeen, imgSeen, decide_eq_false (hnone _ _ (by omega)),
      decide_eq_false (hnone _ _ (by omega))]
  · rw [forBody_totalAlt, halt, hfed', imgSeen, imgSeen, decide_eq_false (hnone _ _ (by omega)),
      decide_eq_false (hnone _ _ (by omega))]
  · have hbody := d.forBody_pc (page.getD d.i 0) hpc
    rw [hpc'] at hbody
    split_ifs at hbody
    · obtain ⟨hflags, -⟩ := Prod.mk.inj hbody
      obtain ⟨rfl, rfl⟩ := Pc.whileTest.inj hflags
      rw [hfed', decide_eq_false (hnone _ _ (by omega)), decide_eq_false (hnone _ _ (by omega))]
      exact ⟨rfl, rfl⟩
    · simp at hbody

/-- Inside the first image the `while` loop counts the first value of each
kind. -/
theorem Counting.whileBody (hno : NoEarlyImgEnd g page) {k₀ : ℕ} {imgSrc imgAlt : Bool}
    (hd : d.Counting g page base) (h : d.InImg g page k₀) (hpc : d.pc = .whileTest imgSrc imgAlt)
    (hi : d.i + 1 < page.length - 1) (htag : d.hsp.htmlPart.tagEnd = false) :
    (({ d with i := d.i + 1 } : Driver).whileBody imgSrc imgAlt
      (page.getD (d.i + 1) 0)).Counting g page base := by
  have hbehind := h.behind
  have hsame := h.inStep.atByte_while hpc (by omega)
  -- inside the image the driver need not ask for the tag
  have hvalue : ∀ key, valueAt key (htmlParserCharParse d.hsp (page.getD (d.i + 1) 0)) =
      imgValueAt key (atByte g page (d.i + 1)) := fun key => by
    rw [valueAt_congr hsame,
      h.first.imgValueAt_eq (by omega) (by omega) (h.opened_succ hpc htag)]
  have hpc' := whileBody_pc { d with i := d.i + 1 } (page.getD (d.i + 1) 0) imgSrc imgAlt hpc
  have hfed := fed_whileTest hpc
  have hfed' := fed_whileBody hpc (page.getD (d.i + 1) 0)
  have hflags := hd.flags hpc
  have hlinks := hd.counted.totalHref
  have hsrc := hd.counted.totalSrc
  have halt := hd.counted.totalAlt
  rw [hfed, Nat.min_eq_left (by omega)] at hflags hlinks hsrc halt
  rw [hfed] at hfed'
  refine ⟨.inImg k₀ _ _ hpc' (h.whileBody hpc hi htag), ?_, ?_⟩
  · rw [hfed', Nat.min_eq_left (by omega), Nat.min_eq_left (by omega)]
    constructor
    · rw [whileBody_totalHref, hlinks, linkCount_succ (d.i + 1),
        h.first.linkAt_eq_false hno (by omega) (by omega)]
      rfl
    · rw [whileBody_totalSrc, hsrc, hvalue, imgSeen, imgSeen, decide_hasImgValue_succ (d.i + 1),
        ← hflags.1]
      cases imgSrc <;> simp
    · rw [whileBody_totalAlt, halt, hvalue, imgSeen, imgSeen, decide_hasImgValue_succ (d.i + 1),
        ← hflags.2]
      cases imgAlt <;> simp
  · intro imgSrc' imgAlt' hpc''
    obtain ⟨hsrc', halt'⟩ := Pc.whileTest.inj (hpc''.symm.trans hpc')
    rw [hfed', Nat.min_eq_left (by omega), decide_hasImgValue_succ (d.i + 1),
      decide_hasImgValue_succ (d.i + 1), ← hflags.1, ← hflags.2, hsrc', halt', hvalue, hvalue]
    exact ⟨rfl, rfl⟩

theorem Counting.leave (hno : NoEarlyImgEnd g page) {k₀ : ℕ} {imgSrc imgAlt : Bool}
    (hd : d.Counting g page base) (h : d.InImg g page k₀) (hpc : d.pc = .whileTest imgSrc imgAlt)
    (hleave : d.i + 1 < page.length - 1 → d.hsp.htmlPart.tagEnd = true) :
    (({ d with i := d.i + 1 } : Driver).next).Counting g page base := by
  have hbehind := h.behind
  obtain ⟨hend, hi⟩ := h.leave hno hpc hleave
  have hcounted := hd.counted
  rw [fed_whileTest hpc, Nat.min_eq_left (by omega), Nat.min_eq_right (by omega),
    h.first.linkCount_eq hno (by omega) (by omega)] at hcounted
  refine ⟨.done rfl hend, ?_, fun hpc' => by simp at hpc'⟩
  rw [fed_forTest (next_pc _), next_i, Nat.min_eq_right hend,
      Nat.min_eq_right (by simp only; omega)]
  exact ⟨hcounted.totalHref, hcounted.totalSrc, hcounted.totalAlt⟩

theorem Stepped.counting (hno : NoEarlyImgEnd g page) {d' : Driver} (hstep : Stepped page d d')
    (hd : d.Counting g page base) : d'.Counting g page base := by
  have hphase := hstep.phase hno hd.phase
  cases hstep.inPhase hd.phase with
  | forBody hpc hi h => exact hd.forBody h hphase hpc hi
  | whileBody k₀ imgSrc imgAlt hpc hi htag h => exact hd.whileBody hno h hpc hi htag
  | leave k₀ imgSrc imgAlt hpc hleave h => exact hd.leave hno h hpc hleave

end Driver

theorem finish_counted {g : Statics} {page : List UInt8} (hno : NoEarlyImgEnd g page)
    (result : TestResult) :
    (finish g result page).Counted result (linkCount g page page.length)
      (imgSeen g page ATTR_SRC (page.length - 1)) (imgSeen g page ATTR_ALT (page.length - 1)) := by
  obtain ⟨hcounting, hpc, hi⟩ := finish_spec g result page
    (I := Driver.Counting g page result)
    ⟨phase_start g result page, ⟨rfl, by simp [imgSeen, HasImgValue, fed, start],
      by simp [imgSeen, HasImgValue, fed, start]⟩, fun hpc => by simp [start] at hpc⟩
    (fun d d' hd _ h => h.counting hno hd)
  have hcounted := hcounting.counted
  rwa [fed_forTest hpc, Nat.min_eq_right hi, Nat.min_eq_right (by omega)] at hcounted

/-! ### Agreement -/

/-- `test_hsp` counts what one pass over the page finds. -/
structure CountsAgree (g : Statics) (result : TestResult) (page : List UInt8) : Prop where
  href : (testHsp g result page).2.totalHref =
    result.totalHref + linkCount g page page.length
  src : (testHsp g result page).2.totalSrc = result.totalSrc + imgCount g page ATTR_SRC
  alt : (testHsp g result page).2.totalAlt = result.totalAlt + imgCount g page ATTR_ALT

/-- The page breaks off right behind the first value of `key` in an image. -/
def LastByteCounts (g : Statics) (page key : List UInt8) : Prop :=
  ¬HasImgValue g page key (page.length - 1) ∧ HasImgValue g page key page.length

instance (g : Statics) (page key : List UInt8) : Decidable (LastByteCounts g page key) :=
  inferInstanceAs (Decidable (_ ∧ _))

theorem imgSeen_eq_iff (g : Statics) (page key : List UInt8) :
    imgSeen g page key (page.length - 1) = imgSeen g page key page.length ↔
      ¬LastByteCounts g page key := by
  have hmono : HasImgValue g page key (page.length - 1) → HasImgValue g page key page.length :=
    fun ⟨k, hk, hv⟩ => ⟨k, by omega, hv⟩
  by_cases hbefore : HasImgValue g page key (page.length - 1)
  · simp [imgSeen, LastByteCounts, hbefore, hmono]
  · by_cases hafter : HasImgValue g page key page.length <;>
      simp [imgSeen, LastByteCounts, hbefore, hafter]

/-- **Links and images.** As long as no image ends before the last two bytes of
the page, `test_hsp` counts as the one pass does, unless the page breaks off
right behind an image's first `src` or `alt` value. -/
theorem countsAgree_iff {g : Statics} {page : List UInt8} (hno : NoEarlyImgEnd g page)
    (result : TestResult) :
    CountsAgree g result page ↔
      ¬LastByteCounts g page ATTR_SRC ∧ ¬LastByteCounts g page ATTR_ALT := by
  have hcounted := finish_counted hno result
  have hsrc := imgCount_of_noEarlyImgEnd hno ATTR_SRC
  have halt := imgCount_of_noEarlyImgEnd hno ATTR_ALT
  rw [← imgSeen_eq_iff, ← imgSeen_eq_iff, imgSeen, imgSeen, imgSeen, imgSeen, ← hsrc, ← halt]
  constructor
  · rintro ⟨-, hsrc, halt⟩
    exact ⟨Nat.add_left_cancel (hcounted.totalSrc.symm.trans hsrc),
      Nat.add_left_cancel (hcounted.totalAlt.symm.trans halt)⟩
  · rintro ⟨hsrc, halt⟩
    exact ⟨hcounted.totalHref, hcounted.totalSrc.trans (congrArg _ hsrc),
      hcounted.totalAlt.trans (congrArg _ halt)⟩

/-- A link in front of an image on the last line. -/
theorem countsAgree_link_img :
    NoEarlyImgEnd {} (bytes "<a href=x>t</a><img src=y alt=z>\n") ∧
      CountsAgree {} {} (bytes "<a href=x>t</a><img src=y alt=z>\n") :=
  have hno : NoEarlyImgEnd {} (bytes "<a href=x>t</a><img src=y alt=z>\n") := by decide +kernel
  ⟨hno, (countsAgree_iff hno {}).mpr (by decide +kernel)⟩

/-- The link behind an image is read inside the `while` loop and lost. -/
theorem not_forall_countsAgree :
    ¬∀ (g : Statics) (result : TestResult) (page : List UInt8), page.length ≤ 2147483647 →
      CountsAgree g result page := by
  intro h
  have hhref := (h {} {} (bytes "<img><a href=x>") (by decide)).href
  exact absurd hhref (by decide +kernel)

end HtmlBenchmark.TestHsp
