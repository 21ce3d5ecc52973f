import HtmlBenchmark.StreamParser.Flags
import HtmlBenchmark.TestHsp.Driver

/-!
What one step of the driver does.

`Driver.step_cases` is the inversion of a step: the body of the `for` loop, the
body of the `while` loop, or the way out of the `while` loop. The equations
before it say what the two bodies do to each part of the state; the edits the
driver makes in place touch no part of the parser but the bytes of the inner
text and of the attribute value. `finish_spec` is the loop rule at the driver,
with termination paid for.
-/

namespace HtmlBenchmark.TestHsp

open Library StreamParser

namespace Driver

/-! ### The edits in place -/

section Edits

variable (d : Driver)

@[simp] theorem next_hsp : d.next.hsp = d.hsp := rfl
@[simp] theorem next_result : d.next.result = d.result := rfl
@[simp] theorem next_innertext : d.next.innertext = d.innertext := rfl
@[simp] theorem next_parsed : d.next.parsed = d.parsed := rfl
@[simp] theorem next_pc : d.next.pc = .forTest := rfl
@[simp] theorem next_i : d.next.i = d.i + 1 := rfl

theorem parse_hsp (c : UInt8) : (d.parse c).hsp = htmlParserCharParse d.hsp c := rfl
theorem parse_result (c : UInt8) : (d.parse c).result = d.result := rfl

@[simp] theorem endTitle_result : d.endTitle.result = d.result := rfl
@[simp] theorem endTitle_innertext : d.endTitle.innertext = d.innertext := rfl
@[simp] theorem endTitle_parsed : d.endTitle.parsed = d.parsed := rfl
@[simp] theorem endTitle_i : d.endTitle.i = d.i := rfl
@[simp] theorem endTitle_pc : d.endTitle.pc = d.pc := rfl
theorem endTitle_sameTags : d.endTitle.hsp.SameTags d.hsp :=
  ⟨rfl, .refl _, .refl _, rfl, rfl⟩

@[simp] theorem trimAlt_result : d.trimAlt.result = d.result := rfl
@[simp] theorem trimAlt_innertext : d.trimAlt.innertext = d.innertext := rfl
@[simp] theorem trimAlt_parsed : d.trimAlt.parsed = d.parsed := rfl
@[simp] theorem trimAlt_i : d.trimAlt.i = d.i := rfl
@[simp] theorem trimAlt_innerText : d.trimAlt.hsp.innerText = d.hsp.innerText := rfl

theorem trimAlt_sameTags : d.trimAlt.hsp.SameTags d.hsp :=
  ⟨rfl, .refl _, .refl _, rfl, rfl⟩

/-- The length of the text a closing tag would collect. -/
def collectLen : ℕ := (trimSpaces d.hsp.innerText.data (htmlParserInnerTextLength d.hsp)).2.2

@[simp] theorem collect_hsp :
    d.collect.hsp = { d.hsp with innerText := { d.hsp.innerText with
      data := (trimSpaces d.hsp.innerText.data (htmlParserInnerTextLength d.hsp)).1 } } := by
  simp only [collect]
  split_ifs <;> rfl

theorem collect_sameTags : d.collect.hsp.SameTags d.hsp := by
  rw [collect_hsp]
  exact ⟨rfl, .refl _, .refl _, rfl, rfl⟩

@[simp] theorem collect_result :
    d.collect.result = { d.result with
      totalInnertextBytes := d.result.totalInnertextBytes + d.collectLen } := by
  simp only [collect, collectLen]
  split_ifs with h
  · rfl
  · simp [not_not.mp h]

@[simp] theorem collect_innertext_size :
    d.collect.innertext.size = d.innertext.size + d.collectLen := by
  simp only [collect, collectLen]
  split_ifs with h
  · rfl
  · simp [not_not.mp h]

@[simp] theorem collect_parsed : d.collect.parsed = d.parsed := by
  simp only [collect]
  split_ifs <;> rfl

@[simp] theorem collect_i : d.collect.i = d.i := by
  simp only [collect]
  split_ifs <;> rfl

@[simp] theorem countHref_hsp : d.countHref.hsp = d.hsp := by
  simp only [countHref]
  split_ifs <;> rfl

@[simp] theorem countHref_parsed : d.countHref.parsed = d.parsed := by
  simp only [countHref]
  split_ifs <;> rfl

@[simp] theorem countHref_i : d.countHref.i = d.i := by
  simp only [countHref]
  split_ifs <;> rfl

@[simp] theorem countHref_innertext : d.countHref.innertext = d.innertext := by
  simp only [countHref]
  split_ifs <;> rfl

@[simp] theorem countHref_result :
    d.countHref.result = { d.result with
      totalHref := d.result.totalHref + d.linkFound.toNat } := by
  simp only [countHref]
  cases d.linkFound <;> rfl

end Edits

/-! ### The two bodies -/

/-- The end of a link's `href` value, as a question to the parser. -/
def linkAt (hsp : HtmlStreamParser) : Bool :=
  htmlParserCmpTag hsp TAG_A && htmlParserCmpAttr hsp ATTR_HREF && hsp.htmlPart.valueEnded

/-- The end of a value of the attribute `key`, whatever the tag. -/
def valueAt (key : List UInt8) (hsp : HtmlStreamParser) : Bool :=
  htmlParserCmpAttr hsp key && hsp.htmlPart.valueEnded

section Bodies

variable (d : Driver) (c : UInt8)

theorem forBody_parsed : (d.forBody c).parsed = d.parsed ++ [c] := by
  simp only [forBody]
  split_ifs <;> simp [parse]

theorem forBody_sameTags : (d.forBody c).hsp.SameTags (htmlParserCharParse d.hsp c) := by
  simp only [forBody]
  split_ifs
  · simpa [parse] using HtmlStreamParser.SameTags.refl _
  · simpa [parse] using endTitle_sameTags (d.parse c).countHref
  · simpa [parse] using HtmlStreamParser.SameTags.refl _
  · simpa only [next_hsp, countHref_hsp, parse] using collect_sameTags (d.parse c).countHref
  · simpa [parse] using HtmlStreamParser.SameTags.refl _

theorem forBody_pc (hpc : d.pc = .forTest) :
    ((d.forBody c).pc, (d.forBody c).i) =
      if htmlParserCmpTag (htmlParserCharParse d.hsp c) TAG_IMG then
        (.whileTest false false, d.i)
      else (.forTest, d.i + 1) := by
  simp only [forBody]
  split_ifs <;> simp_all [parse]

theorem forBody_totalHref :
    (d.forBody c).result.totalHref =
      d.result.totalHref + (linkAt (htmlParserCharParse d.hsp c)).toNat := by
  simp only [forBody]
  split_ifs <;> simp [parse, linkFound, linkAt]

theorem forBody_totalSrc : (d.forBody c).result.totalSrc = d.result.totalSrc := by
  simp only [forBody]
  split_ifs <;> simp [parse]

theorem forBody_totalAlt : (d.forBody c).result.totalAlt = d.result.totalAlt := by
  simp only [forBody]
  split_ifs <;> simp [parse]

theorem cmpAttr_first {hsp : HtmlStreamParser} {key : List UInt8} (hkey : 0 < key.length)
    (h : htmlParserCmpAttr hsp key) : cstr key 0 = hsp.attrName.data 0 := by
  obtain ⟨n, hn⟩ := Nat.exists_eq_succ_of_ne_zero (Nat.pos_iff_ne_zero.mp hkey)
  simp only [htmlParserCmpAttr, strncmp, hn, cmpn, Bool.and_eq_true, id_eq, beq_iff_eq] at h
  exact h.2.1

theorem not_alt_of_src {hsp : HtmlStreamParser} (h : htmlParserCmpAttr hsp ATTR_SRC) :
    htmlParserCmpAttr hsp ATTR_ALT = false := by
  by_contra halt
  have hs := cmpAttr_first (by decide) h
  have ha := cmpAttr_first (show 0 < ATTR_ALT.length by decide) (by simpa using halt)
  exact absurd (hs.trans ha.symm) (by decide)

variable (imgSrc imgAlt : Bool)

theorem whileBody_parsed : (d.whileBody imgSrc imgAlt c).parsed = d.parsed ++ [c] := by
  simp only [whileBody]
  split_ifs <;> simp [parse]

theorem whileBody_sameTags :
    (d.whileBody imgSrc imgAlt c).hsp.SameTags (htmlParserCharParse d.hsp c) := by
  simp only [whileBody]
  split_ifs
  · exact .refl _
  · exact .refl _
  · exact trimAlt_sameTags (d.parse c)
  · exact .refl _
  · exact .refl _

theorem whileBody_i : (d.whileBody imgSrc imgAlt c).i = d.i := by
  simp only [whileBody]
  split_ifs <;> simp [parse]

theorem whileBody_pc (hpc : d.pc = .whileTest imgSrc imgAlt) :
    (d.whileBody imgSrc imgAlt c).pc =
      .whileTest (imgSrc || valueAt ATTR_SRC (htmlParserCharParse d.hsp c))
        (imgAlt || valueAt ATTR_ALT (htmlParserCharParse d.hsp c)) := by
  have hpc' : (d.parse c).pc = .whileTest imgSrc imgAlt := hpc
  rw [← parse_hsp]
  simp only [whileBody, valueAt]
  generalize d.parse c = e at hpc'
  by_cases hsrc : htmlParserCmpAttr e.hsp ATTR_SRC
  · have halt := not_alt_of_src hsrc
    cases e.hsp.htmlPart.valueEnded <;> cases imgSrc <;> simp [hsrc, halt, hpc']
  · by_cases halt : htmlParserCmpAttr e.hsp ATTR_ALT
    · cases e.hsp.htmlPart.valueEnded <;> cases imgAlt <;> simp [hsrc, halt, hpc']
    · simp [hsrc, halt, hpc']

theorem whileBody_totalHref :
    (d.whileBody imgSrc imgAlt c).result.totalHref = d.result.totalHref := by
  simp only [whileBody]
  split_ifs <;> simp [parse]

theorem whileBody_totalSrc :
    (d.whileBody imgSrc imgAlt c).result.totalSrc =
      d.result.totalSrc + (valueAt ATTR_SRC (htmlParserCharParse d.hsp c) && !imgSrc).toNat := by
  rw [← parse_hsp, ← parse_result d c]
  simp only [whileBody, valueAt]
  generalize d.parse c = e
  by_cases hsrc : htmlParserCmpAttr e.hsp ATTR_SRC
  · cases e.hsp.htmlPart.valueEnded <;> cases imgSrc <;> simp [hsrc]
  · by_cases halt : htmlParserCmpAttr e.hsp ATTR_ALT
    · cases e.hsp.htmlPart.valueEnded <;> cases imgAlt <;> simp [hsrc, halt]
    · simp [hsrc, halt]

theorem whileBody_totalAlt :
    (d.whileBody imgSrc imgAlt c).result.totalAlt =
      d.result.totalAlt + (valueAt ATTR_ALT (htmlParserCharParse d.hsp c) && !imgAlt).toNat := by
  rw [← parse_hsp, ← parse_result d c]
  simp only [whileBody, valueAt]
  generalize d.parse c = e
  by_cases hsrc : htmlParserCmpAttr e.hsp ATTR_SRC
  · have halt := not_alt_of_src hsrc
    cases e.hsp.htmlPart.valueEnded <;> cases imgSrc <;> simp [hsrc, halt]
  · by_cases halt : htmlParserCmpAttr e.hsp ATTR_ALT
    · cases e.hsp.htmlPart.valueEnded <;> cases imgAlt <;> simp [hsrc, halt]
    · simp [hsrc, halt]

theorem whileBody_totalInnertextBytes :
    (d.whileBody imgSrc imgAlt c).result.totalInnertextBytes = d.result.totalInnertextBytes := by
  simp only [whileBody]
  split_ifs <;> simp [parse]

theorem whileBody_innertext : (d.whileBody imgSrc imgAlt c).innertext = d.innertext := by
  simp only [whileBody]
  split_ifs <;> simp [parse]

end Bodies

/-! ### Inversion of a step -/

/-- Into the body of the `for` loop, into the body of the `while` loop, or out
of the `while` loop and on to the `i++` of the `for` loop. -/
inductive Stepped (page : List UInt8) (d : Driver) : Driver → Prop
  | forBody (hpc : d.pc = .forTest) (hi : d.i < page.length) :
      Stepped page d (d.forBody (page.getD d.i 0))
  | whileBody (imgSrc imgAlt : Bool) (hpc : d.pc = .whileTest imgSrc imgAlt)
      (hi : d.i + 1 < page.length - 1) (htag : d.hsp.htmlPart.tagEnd = false) :
      Stepped page d
        (({ d with i := d.i + 1 } : Driver).whileBody imgSrc imgAlt (page.getD (d.i + 1) 0))
  | leave (imgSrc imgAlt : Bool) (hpc : d.pc = .whileTest imgSrc imgAlt)
      (hleave : d.i + 1 < page.length - 1 → d.hsp.htmlPart.tagEnd = true) :
      Stepped page d ({ d with i := d.i + 1 } : Driver).next

theorem step_cases {page : List UInt8} {d d' : Driver} (h : step page d = some d') :
    Stepped page d d' := by
  simp only [step] at h
  split at h
  · rename_i hpc
    split_ifs at h with hi
    injection h with h
    subst h
    exact .forBody hpc hi
  · rename_i imgSrc imgAlt hpc
    split_ifs at h with hi
    · injection h with h
      subst h
      simp only [Bool.and_eq_true, decide_eq_true_eq, Bool.not_eq_true'] at hi
      exact .whileBody imgSrc imgAlt hpc hi.1 hi.2
    · injection h with h
      subst h
      simp only [Bool.and_eq_true, decide_eq_true_eq, Bool.not_eq_true', not_and,
        Bool.not_eq_false] at hi
      exact .leave imgSrc imgAlt hpc hi

theorem halted_iff {page : List UInt8} {d : Driver} :
    (loops page).Halted d ↔ d.pc = .forTest ∧ page.length ≤ d.i := by
  simp only [Machine.Halted, loops, step]
  split
  · rename_i hpc
    split_ifs with hi
    · simp
      omega
    · simp [hpc]
      omega
  · rename_i hpc
    split_ifs <;> simp [hpc]

/-- Inside the `while` loop the index is still on the page. -/
def OnPage (page : List UInt8) (d : Driver) : Prop := d.pc ≠ .forTest → d.i < page.length

/-- Steps still to come: two for each byte ahead, one less inside the `while`
loop. -/
def stepsLeft (page : List UInt8) (d : Driver) : ℕ :=
  match d.pc with
  | .forTest => 2 * (page.length - d.i)
  | .whileTest _ _ => 2 * (page.length - d.i) - 1

theorem stepsLeft_forTest {page : List UInt8} {d : Driver} (h : d.pc = .forTest) :
    d.stepsLeft page = 2 * (page.length - d.i) := by
  simp only [stepsLeft, h]

theorem stepsLeft_whileTest {page : List UInt8} {d : Driver} {imgSrc imgAlt : Bool}
    (h : d.pc = .whileTest imgSrc imgAlt) :
    d.stepsLeft page = 2 * (page.length - d.i) - 1 := by
  simp only [stepsLeft, h]

theorem Stepped.onPage {page : List UInt8} {d d' : Driver} (h : Stepped page d d')
    (hd : d.OnPage page) : d'.OnPage page ∧ d'.stepsLeft page < d.stepsLeft page := by
  cases h with
  | forBody hpc hi =>
      have hbody := d.forBody_pc (page.getD d.i 0) hpc
      split_ifs at hbody with himg
      · obtain ⟨hpc', hi'⟩ := Prod.mk.inj hbody
        refine ⟨fun _ => by omega, ?_⟩
        rw [stepsLeft_forTest hpc, stepsLeft_whileTest hpc', hi']
        omega
      · obtain ⟨hpc', hi'⟩ := Prod.mk.inj hbody
        refine ⟨fun hne => absurd hpc' hne, ?_⟩
        rw [stepsLeft_forTest hpc, stepsLeft_forTest hpc', hi']
        omega
  | whileBody imgSrc imgAlt hpc hi htag =>
      refine ⟨fun _ => by rw [whileBody_i]; simp only; omega, ?_⟩
      have hbody := whileBody_pc { d with i := d.i + 1 } (page.getD (d.i + 1) 0) imgSrc imgAlt hpc
      rw [stepsLeft_whileTest hbody, stepsLeft_whileTest hpc, whileBody_i]
      simp only
      omega
  | leave imgSrc imgAlt hpc hleave =>
      have hi : d.i < page.length := hd (by simp [hpc])
      refine ⟨fun hne => absurd rfl hne, ?_⟩
      rw [stepsLeft_forTest (next_pc _), stepsLeft_whileTest hpc, next_i]
      simp only
      omega

end Driver

/-- **The loop rule at the driver.** What holds at the start and is kept by
every step holds where `test_hsp` ends, and there the page is used up. -/
theorem finish_spec (g : Statics) (result : TestResult) (page : List UInt8)
    {I : Driver → Prop} (hstart : I (start g result))
    (hstep : ∀ d d', I d → d.OnPage page → Driver.Stepped page d d' → I d') :
    I (finish g result page) ∧ (finish g result page).pc = .forTest ∧
      page.length ≤ (finish g result page).i := by
  refine Machine.run_spec (M := loops page) (μ := Driver.stepsLeft page)
    (I := fun d => I d ∧ d.OnPage page)
    (Q := fun d => I d ∧ d.pc = .forTest ∧ page.length ≤ d.i) ?_ ?_ ?_ ?_
  · rintro d d' ⟨hI, hd⟩ h
    have hs := Driver.step_cases h
    obtain ⟨hd', hlt⟩ := hs.onPage hd
    exact ⟨⟨hstep d d' hI hd hs, hd'⟩, hlt⟩
  · rintro d ⟨hI, -⟩ h
    exact ⟨hI, Driver.halted_iff.mp h⟩
  · exact ⟨hstart, fun hne => absurd rfl hne⟩
  · simp only [Driver.stepsLeft, start, enough]
    omega

end HtmlBenchmark.TestHsp
