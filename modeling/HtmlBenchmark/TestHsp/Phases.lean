import HtmlBenchmark.TestHsp.Images

/-!
The way of the driver over a page where no image ends early.

It goes through three phases: the `for` loop up to the first image, the `while`
loop inside that image, and the way out, behind which no byte is left. In the
first two its parser is the one-pass parser. What the driver counts and collects
is then proved phase by phase.
-/

namespace HtmlBenchmark.TestHsp.Driver

open Library StreamParser

/-- In the `for` loop, no image found yet. -/
structure BeforeImg (g : Statics) (page : List UInt8) (d : Driver) : Prop where
  inStep : d.InStep g page
  onPage : d.i ≤ page.length
  noImg : ∀ j < d.i, htmlParserCmpTag (atByte g page j) TAG_IMG = false

/-- In the `while` loop, inside the first image. -/
structure InImg (g : Statics) (page : List UInt8) (k₀ : ℕ) (d : Driver) : Prop where
  first : FirstImg g page k₀
  inStep : d.InStep g page
  behind : k₀ ≤ d.i
  onPage : d.i = k₀ ∨ d.i + 1 < page.length
  opened : ∀ j < d.i, k₀ ≤ j → (atByte g page j).htmlPart.tagEnd = false

/-- The phase the driver is in. -/
inductive Phase (g : Statics) (page : List UInt8) (d : Driver) : Prop
  | beforeImg (hpc : d.pc = .forTest) (h : d.BeforeImg g page)
  | inImg (k₀ : ℕ) (imgSrc imgAlt : Bool) (hpc : d.pc = .whileTest imgSrc imgAlt)
      (h : d.InImg g page k₀)
  | done (hpc : d.pc = .forTest) (hi : page.length ≤ d.i)

variable {g : Statics} {page : List UInt8} {d : Driver}

/-- What the one pass reports where the driver has just parsed byte `i`. -/
theorem InStep.atByte_for (h : d.InStep g page) (hpc : d.pc = .forTest)
    (hi : d.i < page.length) :
    (htmlParserCharParse d.hsp (page.getD d.i 0)).SameTags (atByte g page d.i) := by
  rw [InStep, fed_forTest hpc] at h
  rw [atByte_eq hi]
  exact h.charParse _

theorem InStep.atByte_while (h : d.InStep g page) {imgSrc imgAlt : Bool}
    (hpc : d.pc = .whileTest imgSrc imgAlt) (hi : d.i + 1 < page.length) :
    (htmlParserCharParse d.hsp (page.getD (d.i + 1) 0)).SameTags (atByte g page (d.i + 1)) := by
  rw [InStep, fed_whileTest hpc] at h
  rw [atByte_eq hi]
  exact h.charParse _

theorem BeforeImg.forBody (h : d.BeforeImg g page) (hpc : d.pc = .forTest)
    (hi : d.i < page.length) : (d.forBody (page.getD d.i 0)).Phase g page := by
  have hstep := h.inStep.forBody hpc hi
  have hbody := h.inStep.forBody_pc hpc hi
  split_ifs at hbody with himg
  · obtain ⟨hpc', hi'⟩ := Prod.mk.inj hbody
    refine .inImg d.i false false hpc' ⟨⟨hi, himg, h.noImg⟩, hstep, by omega, .inl hi', ?_⟩
    intro j hj hkj
    omega
  · obtain ⟨hpc', hi'⟩ := Prod.mk.inj hbody
    refine .beforeImg hpc' ⟨hstep, by omega, fun j hj => ?_⟩
    rcases Nat.lt_succ_iff_lt_or_eq.mp (hi' ▸ hj) with hj | rfl
    · exact h.noImg j hj
    · exact Bool.eq_false_iff.mpr himg

section InImg

variable {k₀ : ℕ} {imgSrc imgAlt : Bool}

/-- Inside the `while` loop, the image is open up to the byte to come. -/
theorem InImg.opened_succ (h : d.InImg g page k₀) (hpc : d.pc = .whileTest imgSrc imgAlt)
    (htag : d.hsp.htmlPart.tagEnd = false) :
    ∀ j < d.i + 1, k₀ ≤ j → (atByte g page j).htmlPart.tagEnd = false := by
  intro j hj hkj
  rcases Nat.lt_succ_iff_lt_or_eq.mp hj with hj | rfl
  · exact h.opened j hj hkj
  · have hstep := h.inStep
    rw [InStep, fed_whileTest hpc] at hstep
    rw [← htag, hstep.htmlPart_eq, atByte]

theorem InImg.whileBody (h : d.InImg g page k₀) (hpc : d.pc = .whileTest imgSrc imgAlt)
    (hi : d.i + 1 < page.length - 1) (htag : d.hsp.htmlPart.tagEnd = false) :
    (({ d with i := d.i + 1 } : Driver).whileBody imgSrc imgAlt
      (page.getD (d.i + 1) 0)).InImg g page k₀ := by
  have hbehind := h.behind
  refine ⟨h.first, h.inStep.whileBody hpc hi, ?_, .inr ?_, ?_⟩
  · rw [whileBody_i]
    simp only
    omega
  · rw [whileBody_i]
    simp only
    omega
  · rw [whileBody_i]
    exact h.opened_succ hpc htag

/-- The `while` loop ends one byte before the end of the page, or at it. -/
theorem InImg.leave (hno : NoEarlyImgEnd g page) (h : d.InImg g page k₀)
    (hpc : d.pc = .whileTest imgSrc imgAlt)
    (hleave : d.i + 1 < page.length - 1 → d.hsp.htmlPart.tagEnd = true) :
    page.length ≤ d.i + 2 ∧ d.i < page.length := by
  have honPage := h.first.onPage
  have hi := h.onPage
  refine ⟨?_, by omega⟩
  -- the loop left for the end of the tag would be an image ended early
  by_contra hlt
  have hend := hleave (by omega)
  have hstep := h.inStep
  rw [InStep, fed_whileTest hpc] at hstep
  rw [hstep.htmlPart_eq] at hend
  exact hno d.i (by omega) ⟨(h.first.goes_on (by omega) h.behind h.opened).2, hend⟩

end InImg

/-- A step, with the phase it is taken in. -/
inductive SteppedIn (g : Statics) (page : List UInt8) (d : Driver) : Driver → Prop
  | forBody (hpc : d.pc = .forTest) (hi : d.i < page.length) (h : d.BeforeImg g page) :
      SteppedIn g page d (d.forBody (page.getD d.i 0))
  | whileBody (k₀ : ℕ) (imgSrc imgAlt : Bool) (hpc : d.pc = .whileTest imgSrc imgAlt)
      (hi : d.i + 1 < page.length - 1) (htag : d.hsp.htmlPart.tagEnd = false)
      (h : d.InImg g page k₀) :
      SteppedIn g page d
        (({ d with i := d.i + 1 } : Driver).whileBody imgSrc imgAlt (page.getD (d.i + 1) 0))
  | leave (k₀ : ℕ) (imgSrc imgAlt : Bool) (hpc : d.pc = .whileTest imgSrc imgAlt)
      (hleave : d.i + 1 < page.length - 1 → d.hsp.htmlPart.tagEnd = true)
      (h : d.InImg g page k₀) :
      SteppedIn g page d (({ d with i := d.i + 1 } : Driver).next)

/-- The loop the driver stands in tells the phase. -/
theorem Stepped.inPhase {d' : Driver} (h : Stepped page d d') (hd : d.Phase g page) :
    SteppedIn g page d d' := by
  cases h with
  | forBody hpc hi =>
      cases hd with
      | beforeImg _ h => exact .forBody hpc hi h
      | inImg k₀ imgSrc imgAlt hpc' h => simp [hpc] at hpc'
      | done _ hi' => omega
  | whileBody imgSrc imgAlt hpc hi htag =>
      cases hd with
      | beforeImg hpc' _ => simp [hpc] at hpc'
      | inImg k₀ imgSrc' imgAlt' hpc' h => exact .whileBody k₀ imgSrc imgAlt hpc hi htag h
      | done hpc' _ => simp [hpc] at hpc'
  | leave imgSrc imgAlt hpc hleave =>
      cases hd with
      | beforeImg hpc' _ => simp [hpc] at hpc'
      | inImg k₀ imgSrc' imgAlt' hpc' h => exact .leave k₀ imgSrc imgAlt hpc hleave h
      | done hpc' _ => simp [hpc] at hpc'

theorem Stepped.phase (hno : NoEarlyImgEnd g page) {d' : Driver} (hstep : Stepped page d d')
    (hd : d.Phase g page) : d'.Phase g page := by
  cases hstep.inPhase hd with
  | forBody hpc hi h => exact h.forBody hpc hi
  | whileBody k₀ imgSrc imgAlt hpc hi htag h =>
      have hpc' := whileBody_pc { d with i := d.i + 1 } (page.getD (d.i + 1) 0) imgSrc imgAlt hpc
      exact .inImg k₀ _ _ hpc' (h.whileBody hpc hi htag)
  | leave k₀ imgSrc imgAlt hpc hleave h => exact .done rfl (h.leave hno hpc hleave).1

theorem phase_start (g : Statics) (result : TestResult) (page : List UInt8) :
    (start g result).Phase g page :=
  .beforeImg rfl ⟨inStep_start g result page, Nat.zero_le _,
    fun _ hj => absurd hj (Nat.not_lt_zero _)⟩

end HtmlBenchmark.TestHsp.Driver
