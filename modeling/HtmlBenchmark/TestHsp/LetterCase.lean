import HtmlBenchmark.StreamParser.Scripts
import HtmlBenchmark.TestHsp.Isolation

/-!
The case of letters does not matter to `test_hsp`.

The parser looks at a byte only to tell it from a few bytes that are no letters,
to see whether it is a letter, and in lower case. Names are kept in lower case;
of values and texts the driver uses blanks and lengths. So the run over a page in
lower case is the run over the page itself, with the texts in the buffers in
lower case.
-/

namespace HtmlBenchmark.StreamParser

/-! ### Bytes in lower case -/

theorem tolower_tolower (c : UInt8) : tolower (tolower c) = tolower c := by
  grind [tolower, isupper]

theorem ishtmlspace_tolower (c : UInt8) : ishtmlspace (tolower c) = ishtmlspace c := by
  grind [ishtmlspace, tolower, isupper]

theorem isalpha_tolower (c : UInt8) : isalpha (tolower c) = isalpha c := by
  grind [isalpha, tolower, isupper, islower]

theorem htmlParserControl_tolower (s : Control) (c : UInt8) :
    htmlParserControl s (tolower c) = htmlParserControl s c := by
  have hswitch : ∀ s : Control, htmlParserSwitch s (tolower c) = htmlParserSwitch s c := by
    intro s
    have h : ∀ x, isalpha x = false → (tolower c = x) = (c = x) := fun x hx =>
      propext (tolower_eq_iff hx)
    simp only [htmlParserSwitch, ishtmlspace_tolower, isalpha_tolower, ne_eq, h '<'.toUInt8 rfl,
      h '/'.toUInt8 rfl, h '!'.toUInt8 rfl, h '>'.toUInt8 rfl, h '='.toUInt8 rfl, h '"'.toUInt8 rfl,
      h '\''.toUInt8 rfl]
  simp only [htmlParserControl, hswitch, htmlParserScript, tolower_tolower]

/-! ### Texts in lower case -/

def foldBuf (b : Buf) : Buf := fun i => tolower (b i)

theorem foldBuf_update (b : Buf) (i : ℕ) (c : UInt8) :
    foldBuf (Function.update b i c) = Function.update (foldBuf b) i (tolower c) := by
  funext j
  by_cases h : j = i
  · subst h
    simp [foldBuf]
  · simp [foldBuf, h]

theorem htmlParserLtrim_foldBuf (b : Buf) (src len : ℕ) :
    htmlParserLtrim (foldBuf b) src len = htmlParserLtrim b src len := by
  induction len generalizing src with
  | zero => rfl
  | succ len ih => rw [htmlParserLtrim, htmlParserLtrim, ih, foldBuf, ishtmlspace_tolower]

theorem htmlParserRtrim_foldBuf (b : Buf) (src len : ℕ) :
    htmlParserRtrim (foldBuf b) src len = htmlParserRtrim b src len := by
  induction len with
  | zero => rfl
  | succ len ih => rw [htmlParserRtrim, htmlParserRtrim, ih, foldBuf, ishtmlspace_tolower]

theorem replaceSpacesLoop_foldBuf (src n i l : ℕ) (ws : Bool) (b : Buf) :
    replaceSpacesLoop src n i l ws (foldBuf b) =
      (foldBuf (replaceSpacesLoop src n i l ws b).1, (replaceSpacesLoop src n i l ws b).2) := by
  have hblank : tolower 32 = 32 := rfl
  induction n generalizing i l ws b with
  | zero => rfl
  | succ n ih =>
      have hbyte : foldBuf b (src + i) = tolower (b (src + i)) := rfl
      rw [replaceSpacesLoop, replaceSpacesLoop, hbyte, ishtmlspace_tolower]
      split_ifs
      · rw [← foldBuf_update, ih]
      · rw [← hblank, ← foldBuf_update, ih, hblank]
      · rw [ih]

theorem trimSpaces_foldBuf (b : Buf) (len : ℕ) :
    trimSpaces (foldBuf b) len = (foldBuf (trimSpaces b len).1, (trimSpaces b len).2) := by
  simp only [trimSpaces, htmlParserTrim, htmlParserReplaceSpaces, htmlParserLtrim_foldBuf,
    htmlParserRtrim_foldBuf, replaceSpacesLoop_foldBuf]

def TextBuf.fold (b : TextBuf) : TextBuf := { b with data := foldBuf b.data }

theorem TextBuf.fold_put (b : TextBuf) (c : UInt8) : b.fold.put (tolower c) = (b.put c).fold := by
  by_cases hroom : b.len < b.maxLen
  · simp [TextBuf.put, TextBuf.fold, hroom, foldBuf_update]
  · simp [TextBuf.put, TextBuf.fold, hroom]

theorem TextBuf.fold_put_tolower (b : TextBuf) (c : UInt8) :
    (b.put (tolower c)).fold = (b.put c).fold := by
  rw [← fold_put, tolower_tolower, fold_put]

theorem TextBuf.fold_clear (b : TextBuf) : b.fold.clear = b.clear.fold := rfl

/-- The parser with its values and texts in lower case. -/
def HtmlStreamParser.fold (p : HtmlStreamParser) : HtmlStreamParser :=
  { p with attrValue := p.attrValue.fold, innerText := p.innerText.fold }

/-- **One byte in lower case.** -/
theorem charParse_fold {p : HtmlStreamParser} (htag : p.tagNameToLower = true)
    (hattr : p.attrNameToLower = true) (c : UInt8) :
    htmlParserCharParse p.fold (tolower c) = (htmlParserCharParse p c).fold := by
  obtain ⟨control, tag, attr, value, text, tagLower, attrLower, valLower⟩ := p
  obtain rfl : tagLower = true := htag
  obtain rfl : attrLower = true := hattr
  simp only [htmlParserCharParse, HtmlStreamParser.fold, htmlParserControl_tolower,
    htmlParserStore, tolower_tolower, ite_self, TextBuf.fold_clear]
  cases valLower
  · split_ifs <;> simp_all [TextBuf.fold_put]
  · split_ifs <;> simp_all [TextBuf.fold_put, TextBuf.fold_put_tolower]

end HtmlBenchmark.StreamParser

namespace HtmlBenchmark.TestHsp

open Library StreamParser

namespace Driver

/-- The run over the page in lower case stands where the run over the page
does. -/
structure Folded (d e : Driver) : Prop where
  pc : e.pc = d.pc
  i : e.i = d.i
  hsp : e.hsp = d.hsp.fold
  result : e.result = d.result
  tagLower : d.hsp.tagNameToLower = true
  attrLower : d.hsp.attrNameToLower = true

namespace Folded

variable {d e : Driver}

theorem parse (h : d.Folded e) (c : UInt8) : (d.parse c).Folded (e.parse (tolower c)) where
  pc := h.pc
  i := h.i
  hsp := by rw [parse_hsp, parse_hsp, h.hsp, charParse_fold h.tagLower h.attrLower]
  result := h.result
  tagLower := by rw [parse_hsp, charParse_tagNameToLower, h.tagLower]
  attrLower := by rw [parse_hsp, charParse_attrNameToLower, h.attrLower]

theorem next (h : d.Folded e) : d.next.Folded e.next :=
  ⟨rfl, congrArg (· + 1) h.i, h.hsp, h.result, h.tagLower, h.attrLower⟩

theorem withPc (h : d.Folded e) (pc : Pc) :
    ({ d with pc := pc } : Driver).Folded { e with pc := pc } :=
  ⟨rfl, h.i, h.hsp, h.result, h.tagLower, h.attrLower⟩

/-- The driver's questions are about the names and the flags. -/
theorem questions (h : d.Folded e) :
    (∀ s, htmlParserCmpTag e.hsp s = htmlParserCmpTag d.hsp s) ∧
      (∀ s, htmlParserCmpAttr e.hsp s = htmlParserCmpAttr d.hsp s) ∧
      e.hsp.htmlPart = d.hsp.htmlPart := by
  rw [h.hsp]
  exact ⟨fun _ => rfl, fun _ => rfl, rfl⟩

theorem countHref (h : d.Folded e) : d.countHref.Folded e.countHref := by
  obtain ⟨htag, hattr, hpart⟩ := h.questions
  have hfound : e.linkFound = d.linkFound := by simp only [linkFound, htag, hattr, hpart]
  simp only [Driver.countHref, hfound]
  split_ifs
  · exact ⟨h.pc, h.i, h.hsp, by rw [h.result], h.tagLower, h.attrLower⟩
  · exact h

theorem endTitle (h : d.Folded e) : d.endTitle.Folded e.endTitle := by
  have hdata : e.hsp.innerText.data = foldBuf d.hsp.innerText.data := by rw [h.hsp]; rfl
  have hlen : htmlParserInnerTextLength e.hsp = htmlParserInnerTextLength d.hsp := by
    rw [h.hsp]
    rfl
  refine ⟨h.pc, h.i, ?_, h.result, h.tagLower, h.attrLower⟩
  simp only [Driver.endTitle, hdata, hlen, trimSpaces_foldBuf]
  rw [← show tolower 0 = 0 from rfl, ← foldBuf_update, h.hsp]
  rfl

theorem collect (h : d.Folded e) : d.collect.Folded e.collect := by
  have hdata : e.hsp.innerText.data = foldBuf d.hsp.innerText.data := by rw [h.hsp]; rfl
  have hlen : htmlParserInnerTextLength e.hsp = htmlParserInnerTextLength d.hsp := by
    rw [h.hsp]
    rfl
  have hcollect : e.collectLen = d.collectLen := by
    simp only [collectLen, hdata, hlen, trimSpaces_foldBuf]
  refine ⟨?_, by simp [h.i], ?_, by simp [hcollect, h.result], ?_, ?_⟩
  · simp only [Driver.collect]
    split_ifs <;> exact h.pc
  · rw [collect_hsp, collect_hsp, hdata, hlen, trimSpaces_foldBuf, h.hsp]
    rfl
  · rw [collect_hsp]
    exact h.tagLower
  · rw [collect_hsp]
    exact h.attrLower

theorem trimAlt (h : d.Folded e) : d.trimAlt.Folded e.trimAlt := by
  have hdata : e.hsp.attrValue.data = foldBuf d.hsp.attrValue.data := by rw [h.hsp]; rfl
  have hlen : htmlParserValLength e.hsp = htmlParserValLength d.hsp := by
    rw [h.hsp]
    rfl
  refine ⟨h.pc, h.i, ?_, h.result, h.tagLower, h.attrLower⟩
  simp only [Driver.trimAlt, hdata, hlen, trimSpaces_foldBuf]
  rw [← show tolower 0 = 0 from rfl, ← foldBuf_update, h.hsp]
  rfl

theorem forBody (h : d.Folded e) (c : UInt8) : (d.forBody c).Folded (e.forBody (tolower c)) := by
  have hbody := (h.parse c).countHref
  obtain ⟨htag, -, hpart⟩ := hbody.questions
  simp only [Driver.forBody, htag, hpart]
  split_ifs
  · exact hbody.withPc _
  · exact hbody.endTitle.next
  · exact hbody.next
  · exact hbody.collect.next
  · exact hbody.next

theorem whileBody (h : d.Folded e) (imgSrc imgAlt : Bool) (c : UInt8) :
    (d.whileBody imgSrc imgAlt c).Folded (e.whileBody imgSrc imgAlt (tolower c)) := by
  have hbody := h.parse c
  obtain ⟨-, hattr, hpart⟩ := hbody.questions
  simp only [Driver.whileBody, hattr, hpart]
  split_ifs
  · exact ⟨rfl, hbody.i, hbody.hsp, by rw [hbody.result], hbody.tagLower, hbody.attrLower⟩
  · exact hbody
  · have htrim := hbody.trimAlt
    exact ⟨rfl, htrim.i, htrim.hsp, by rw [htrim.result], htrim.tagLower, htrim.attrLower⟩
  · exact hbody
  · exact hbody

theorem step (page : List UInt8) (h : d.Folded e) :
    Option.Rel Folded (d.step page) (e.step (page.map tolower)) := by
  have hget : ∀ i, (page.map tolower).getD i 0 = tolower (page.getD i 0) := fun i => by
    rw [List.getD_eq_getElem?_getD, List.getD_eq_getElem?_getD, List.getElem?_map]
    cases page[i]? <;> rfl
  have hpart := h.questions.2.2
  simp only [Driver.step, h.pc, h.i, hpart, List.length_map, hget]
  split
  · split_ifs
    · exact .some (h.forBody _)
    · exact .none
  · have hnext : ({ d with i := d.i + 1 } : Driver).Folded { e with pc := d.pc, i := d.i + 1 } :=
      ⟨rfl, rfl, h.hsp, h.result, h.tagLower, h.attrLower⟩
    split_ifs
    · exact .some (hnext.whileBody _ _ _)
    · exact .some hnext.next

end Folded

end Driver

/-- What a page adds, it adds in lower case. -/
theorem gainOf_map_tolower (page : List UInt8) : gainOf (page.map tolower) = gainOf page := by
  have hstart : (start {} {}).Folded (start {} {}) :=
    { pc := rfl, i := rfl, hsp := rfl, result := rfl, tagLower := rfl, attrLower := rfl }
  have hfolded := Machine.run_related (M := loops page) (N := loops (page.map tolower))
    (fun _ _ h => h.step page) hstart (enough page)
  have hresult : (testHsp {} {} (page.map tolower)).2 = (testHsp {} {} page).2 := by
    simp only [testHsp, finish, enough, List.length_map]
    exact hfolded.result
  simp only [gainOf, hresult]

/-- **Letter case.** Pages that differ in the case of letters only give the same
result, whatever was processed before either of them. -/
theorem testHsp_letterCase (g g' : Statics) (result : TestResult) {page page' : List UInt8}
    (h : page.map tolower = page'.map tolower) :
    (testHsp g result page).2 = (testHsp g' result page').2 := by
  rw [testHsp_result, testHsp_result, ← gainOf_map_tolower page, h, gainOf_map_tolower]

theorem testHsp_letterCase_link :
    (testHsp {} {} (bytes "<A HREF=X>T</A>")).2 = (testHsp {} {} (bytes "<a Href=x>t</a>")).2 :=
  testHsp_letterCase {} {} {} (by decide)

end HtmlBenchmark.TestHsp
