import HtmlBenchmark.StreamParser.Blanks
import HtmlBenchmark.TestHsp.Steps

/-!
What a page adds does not depend on what was processed before.

Two runs of the driver over one page, from any two static parsers, results and
buffer contents, go through the same loop tests: the reset names every field of
the parser, and nothing the driver does looks at a byte beyond the length of a
text. `Driver.Alike` is the relation the two runs keep; the lockstep rule makes
a statement about whole runs of it.
-/

namespace HtmlBenchmark.TestHsp

open Library StreamParser

namespace Driver

/-- The runs stand at the same place, their parsers cannot be told apart, and
their results have grown by the same amounts. -/
structure Alike (r r' : TestResult) (d e : Driver) : Prop where
  pc : d.pc = e.pc
  i : d.i = e.i
  hsp : d.hsp.Same e.hsp
  gain : ∃ gain, d.result = r.add gain ∧ e.result = r'.add gain

/-! ### The edits -/

theorem innerTextLength_congr {p q : HtmlStreamParser} (h : p.Same q) :
    htmlParserInnerTextLength p = htmlParserInnerTextLength q := by
  simp only [htmlParserInnerTextLength, h.toSameTags.htmlPart_eq, h.innerText.len]

theorem valLength_congr {p q : HtmlStreamParser} (h : p.Same q) :
    htmlParserValLength p = htmlParserValLength q := by
  simp only [htmlParserValLength, h.toSameTags.htmlPart_eq, h.attrValue.len]

theorem same_trimSpaces {a b : TextBuf} (h : a.Same b) {n : ℕ} (hn : n ≤ a.len) :
    ({ a with data := (trimSpaces a.data n).1 } : TextBuf).Same
      { b with data := (trimSpaces b.data n).1 } ∧
      (trimSpaces a.data n).2 = (trimSpaces b.data n).2 := by
  obtain ⟨hpair, hdata⟩ := trimSpaces_congr fun i hi => h.data i (Nat.lt_of_lt_of_le hi hn)
  exact ⟨⟨h.len, h.realLen, h.maxLen, fun i hi => hdata i (h.data i hi)⟩, hpair⟩

theorem same_cut {a b : TextBuf} (h : a.Same b) (i : ℕ) :
    ({ a with data := Function.update a.data i 0 } : TextBuf).Same
      { b with data := Function.update b.data i 0 } := by
  refine ⟨h.len, h.realLen, h.maxLen, fun j hj => ?_⟩
  by_cases hij : j = i
  · simp [hij]
  · simp only [Function.update_of_ne hij]
    exact h.data j hj

variable {r r' : TestResult} {d e : Driver}

namespace Alike

theorem add (h : d.Alike r r' e) (gain : Gain) :
    ({ d with result := d.result.add gain } : Driver).Alike r r'
      { e with result := e.result.add gain } := by
  obtain ⟨sum, hd, he⟩ := h.gain
  exact ⟨h.pc, h.i, h.hsp, sum.add gain, by simp only [hd, TestResult.add_add],
    by simp only [he, TestResult.add_add]⟩

theorem parse (h : d.Alike r r' e) (c : UInt8) : (d.parse c).Alike r r' (e.parse c) :=
  ⟨h.pc, h.i, h.hsp.charParse c, h.gain⟩

theorem next (h : d.Alike r r' e) : d.next.Alike r r' e.next :=
  ⟨rfl, congrArg (· + 1) h.i, h.hsp, h.gain⟩

theorem withPc (h : d.Alike r r' e) (pc : Pc) :
    ({ d with pc := pc } : Driver).Alike r r' { e with pc := pc } :=
  ⟨rfl, h.i, h.hsp, h.gain⟩

theorem countHref (h : d.Alike r r' e) : d.countHref.Alike r r' e.countHref := by
  have hfound : d.linkFound = e.linkFound := by
    simp only [linkFound, h.hsp.toSameTags.cmpTag_eq, h.hsp.toSameTags.cmpAttr_eq,
      h.hsp.toSameTags.htmlPart_eq]
  simp only [Driver.countHref, hfound]
  split_ifs
  · exact h.add { href := 1 }
  · exact h

theorem endTitle (h : d.Alike r r' e) : d.endTitle.Alike r r' e.endTitle := by
  obtain ⟨hsame, hpair⟩ := same_trimSpaces h.hsp.innerText (innerTextLength_le d.hsp)
  rw [innerTextLength_congr h.hsp] at hsame hpair
  simp only [Driver.endTitle, innerTextLength_congr h.hsp, hpair]
  exact ⟨h.pc, h.i, { h.hsp with innerText := same_cut hsame _ }, h.gain⟩

theorem collect (h : d.Alike r r' e) : d.collect.Alike r r' e.collect := by
  obtain ⟨hsame, hpair⟩ := same_trimSpaces h.hsp.innerText (innerTextLength_le d.hsp)
  rw [innerTextLength_congr h.hsp] at hsame hpair
  have hlen : d.collectLen = e.collectLen := by
    simp only [collectLen, innerTextLength_congr h.hsp, hpair]
  obtain ⟨gain, hd, he⟩ := h.gain
  refine ⟨?_, by simp [h.i], ?_, gain.add { innertextBytes := d.collectLen }, ?_, ?_⟩
  · simp only [Driver.collect]
    split_ifs <;> exact h.pc
  · rw [collect_hsp, collect_hsp, innerTextLength_congr h.hsp]
    exact { h.hsp with innerText := hsame }
  · rw [collect_result, hd, ← TestResult.add_add]
    rfl
  · rw [collect_result, he, hlen, ← TestResult.add_add]
    rfl

theorem trimAlt (h : d.Alike r r' e) : d.trimAlt.Alike r r' e.trimAlt := by
  obtain ⟨hsame, hpair⟩ := same_trimSpaces h.hsp.attrValue (valLength_le d.hsp)
  rw [valLength_congr h.hsp] at hsame hpair
  simp only [Driver.trimAlt, valLength_congr h.hsp, hpair]
  exact ⟨h.pc, h.i, { h.hsp with attrValue := same_cut hsame _ }, h.gain⟩

/-! ### The two bodies and a step -/

theorem forBody (h : d.Alike r r' e) (c : UInt8) : (d.forBody c).Alike r r' (e.forBody c) := by
  have hbody := (h.parse c).countHref
  simp only [Driver.forBody, hbody.hsp.toSameTags.cmpTag_eq, hbody.hsp.toSameTags.htmlPart_eq]
  split_ifs
  · exact hbody.withPc _
  · exact hbody.endTitle.next
  · exact hbody.next
  · exact hbody.collect.next
  · exact hbody.next

theorem whileBody (h : d.Alike r r' e) (imgSrc imgAlt : Bool) (c : UInt8) :
    (d.whileBody imgSrc imgAlt c).Alike r r' (e.whileBody imgSrc imgAlt c) := by
  have hbody := h.parse c
  simp only [Driver.whileBody, hbody.hsp.toSameTags.cmpAttr_eq, hbody.hsp.toSameTags.htmlPart_eq]
  split_ifs
  · exact (hbody.add { src := 1 }).withPc _
  · exact hbody
  · exact (hbody.trimAlt.add { alt := 1 }).withPc _
  · exact hbody
  · exact hbody

theorem step (page : List UInt8) (h : d.Alike r r' e) :
    Option.Rel (Alike r r') (d.step page) (e.step page) := by
  simp only [Driver.step, ← h.pc, ← h.i, ← h.hsp.toSameTags.htmlPart_eq]
  split
  · split_ifs
    · exact .some (h.forBody _)
    · exact .none
  · have hnext : ({ d with i := d.i + 1 } : Driver).Alike r r'
        { e with pc := d.pc, i := d.i + 1 } := ⟨rfl, rfl, h.hsp, h.gain⟩
    split_ifs
    · exact .some (hnext.whileBody _ _ _)
    · exact .some hnext.next

end Alike

end Driver

/-! ### A page on its own -/

/-- Whatever the parser and the buffers held before, the parser set up for a
page is the same to the code. -/
theorem configured_same (g g' : Statics) : (configured g).Same (configured g') where
  control := rfl
  tagName := ⟨rfl, rfl, rfl, fun _ hi => absurd hi (Nat.not_lt_zero _)⟩
  attrName := ⟨rfl, rfl, rfl, fun _ hi => absurd hi (Nat.not_lt_zero _)⟩
  tagNameToLower := rfl
  attrNameToLower := rfl
  attrValue := ⟨rfl, rfl, rfl, fun _ hi => absurd hi (Nat.not_lt_zero _)⟩
  innerText := ⟨rfl, rfl, rfl, fun _ hi => absurd hi (Nat.not_lt_zero _)⟩
  attrValToLower := rfl

/-- `result->total_bytes`, whatever the page. -/
def hspBytes : ℕ := sizeofHtmlStreamParser + 18 + 128 + 8192

/-- The counters of a page that is the only one processed. -/
def gainOf (page : List UInt8) : Gain :=
  let r := (testHsp {} {} page).2
  { href := r.totalHref
    src := r.totalSrc
    alt := r.totalAlt
    innertextBytes := r.totalInnertextBytes }

/-- **A page adds what it adds on its own**, on any static parser, with any
buffer contents, to any result. -/
theorem testHsp_result (g : Statics) (result : TestResult) (page : List UInt8) :
    (testHsp g result page).2 = { result with totalBytes := hspBytes }.add (gainOf page) := by
  have halike : (finish g result page).Alike { result with totalBytes := hspBytes }
      { totalBytes := hspBytes } (finish {} {} page) :=
    Machine.run_related (fun _ _ h => h.step page)
      ⟨rfl, rfl, configured_same g {}, {}, rfl, rfl⟩ (enough page)
  obtain ⟨gain, hd, he⟩ := halike.gain
  have hgain : gainOf page = gain := by
    simp only [gainOf, testHsp, he, TestResult.add, Nat.zero_add]
  rw [hgain]
  exact hd

end HtmlBenchmark.TestHsp
