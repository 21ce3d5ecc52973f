import HtmlBenchmark.StreamParser.RoundTrip
import HtmlBenchmark.TestHsp.InnerText
import HtmlBenchmark.TestHsp.Isolation
import HtmlBenchmark.TestHsp.Reports

/-!
What `test_hsp` makes of a document.

The runs of a page can be read off its reports: a text begins one, and every end
of a tag or a comment is added to the latest, as the name reported last says.
With the round trip this gives all counters of a document that has no image. The
inner text is what `Run.collected` makes of each of its runs, and what is due of
each where the document has its texts collected once.
-/

namespace HtmlBenchmark.TestHsp

open Library StreamParser Driver

/-! ### Runs and reports -/

/-- The end of a tag, by the name reported last. -/
def endOf (last : List UInt8) (closing : Bool) : TagEnd :=
  let name := kept (lowered true true false) hspLength .tagName last
  if name = TAG_IMG then .img
  else if name = TAG_ENDTITLE then .title closing
  else if closing then .closing
  else .other

def addEnd (e : TagEnd) : List Run → List Run
  | [] => []
  | r :: rs => { r with ends := r.ends ++ [e] } :: rs

/-- The name reported last and the runs so far, the latest first. -/
structure Scan where
  last : List UInt8 := []
  runs : List Run := []

def Scan.add (s : Scan) : Report → Scan
  | .text t => { s with runs := { text := t } :: s.runs }
  | .name n => { s with last := n }
  | .attr _ _ | .value _ _ _ => s
  | .tagEnd closing => { s with runs := addEnd (endOf s.last closing) s.runs }
  | .comment => { s with runs := addEnd (endOf s.last false) s.runs }

def scanReports (reports : List Report) : Scan := reports.foldl Scan.add {}

/-! ### The name reported last -/

/-- The states behind a name that has been reported. -/
def ParserState.behindName : ParserState → Bool
  | .tagName | .script | .scriptLess | .scriptSlash | .scriptName => false
  | _ => true

/-- A name that is behind was reported now or was behind before. -/
theorem behindName_switch {s : Control} {c : UInt8}
    (h : (ParserState.behindName (htmlParserSwitch s c).parserState)) :
    (htmlParserSwitch s c).htmlPart.nameEnded ∨ ParserState.behindName s.parserState := by
  obtain ⟨state, part, len⟩ := s
  generalize hs : htmlParserSwitch _ c = s' at h ⊢
  cases state <;> simp only [htmlParserSwitch] at hs <;> split_ifs at hs <;> subst hs <;>
    simp_all [ParserState.behindName]

theorem behindName_control {s : Control} {c : UInt8}
    (h : ParserState.behindName (htmlParserControl s c).parserState) :
    (htmlParserControl s c).htmlPart.nameEnded ∨ ParserState.behindName s.parserState := by
  rw [htmlParserControl, htmlParserScript_parserState] at h
  rw [htmlParserControl, htmlParserScript_htmlPart]
  rcases htmlParserEnterScript_cases s with heq | ⟨hstate, -⟩
  · rw [heq] at h ⊢
    exact behindName_switch h
  · -- a script has just been entered, and no byte leaves it at once
    exact (behindName_switch h).imp_right fun hb => by
      rw [hstate] at hb
      cases hb

/-- The state of the reading after `k` bytes, the last name and the runs go
together. -/
structure Scanned (g : Statics) (page : List UInt8) (k : ℕ) (rd : Reading) (s : Scan) : Prop where
  last : ParserState.behindName rd.parserState → rd.text .tagName = s.last
  runs : runsUpTo g page k =
    (if rd.htmlPart.innerText then [{ text := rd.text .innerText }] else []) ++ s.runs

theorem behindName_inName {s : Control} (h : s.Routed)
    (hb : ParserState.behindName s.parserState) : s.inName = false := by
  by_contra hin
  have hreads := h.reads (r := .tagName) (by simpa [Control.reads] using hin)
  cases hs : s.parserState <;> rw [hs] at hb hreads <;>
    simp_all [ParserState.behindName, ParserState.readsTo]

/-- A text that is being read stays where no text is read. -/
theorem text_innerText {rd : Reading} {c : UInt8} (h : (rd.next c).htmlPart.innerText = false) :
    (rd.next c).text .innerText = rd.text .innerText := by
  have hin : (htmlParserControl rd.toControl c).htmlPart.innerText = false := h
  rw [Reading.next_text, Control.grown, Control.begins]
  simp only [Control.goesTo, hin]
  split_ifs <;> simp_all

/-- A text begins exactly where none has been read. -/
theorem innerTextBeginning_eq {s : Control} (h : s.Routed) {c : UInt8}
    (hin : (htmlParserControl s c).htmlPart.innerText) :
    (htmlParserControl s c).htmlPart.innerTextBeginning = !s.htmlPart.innerText := by
  rw [htmlParserControl, htmlParserScript_htmlPart] at hin ⊢
  rcases htmlParserEnterScript_cases s with heq | ⟨hstate, hpart⟩
  · rw [heq] at hin ⊢
    have hinner := h.inner
    obtain ⟨state, part, len⟩ := s
    generalize hs : htmlParserSwitch _ c = s' at hin ⊢
    cases state <;> simp only [htmlParserSwitch] at hs <;> split_ifs at hs <;> subst hs <;>
      simp_all
  · simp only [htmlParserSwitch, hstate, hpart] at hin
    split_ifs at hin
    all_goals simp [hpart] at hin

/-- Where a text ends, nothing else does. -/
theorem quiet_of_text_ends {s : Control} (h : s.Routed) (hin : s.htmlPart.innerText) {c : UInt8}
    (hend : (htmlParserControl s c).htmlPart.innerText = false) :
    (htmlParserControl s c).htmlPart.Quiet := by
  refine (h.control c).quiet ?_
  have hstate := (h.inner hin).1
  rw [htmlParserControl, htmlParserScript_htmlPart] at hend
  rw [htmlParserControl, htmlParserScript_parserState]
  rcases htmlParserEnterScript_cases s with heq | ⟨hscript, -⟩
  · rw [heq] at hend ⊢
    by_cases hless : c = '<'.toUInt8
    · simp [htmlParserSwitch, hstate, hless, ParserState.midway]
    · simp [htmlParserSwitch, hstate, hless, hin] at hend
  · simp only [htmlParserSwitch, hscript]
    split_ifs
    · rfl
    · rw [hscript]
      rfl

namespace Scanned

variable {g : Statics} {page : List UInt8} {k : ℕ} {rd : Reading} {s : Scan}

/-- A name behind is the last one reported, now or before. -/
theorem last_next (h : Scanned g page k rd s) (hrouted : rd.Routed) (c : UInt8)
    (hb : ParserState.behindName (rd.next c).parserState) :
    (rd.next c).text .tagName =
      if (rd.next c).htmlPart.nameEnded then (rd.next c).text .tagName else s.last := by
  split_ifs with hended
  · rfl
  · rw [Reading.text_tagName (behindName_inName (hrouted.control c) hb)]
    exact h.last ((behindName_control hb).resolve_left hended)

/-- The driver's question at the end of a tag is answered by the last name. -/
theorem tagEndAt_eq {hsp : HtmlStreamParser} {rd : Reading}
    (hserves : Serves (lowered true true false) hspLength hsp rd)
    (hin : rd.inName = false) :
    tagEndAt hsp = endOf (rd.text .tagName) hsp.htmlPart.closingTag := by
  have hread := hserves.read_eq (r := .tagName) (by simpa [Control.reads] using hin)
  have himg : htmlParserCmpTag hsp TAG_IMG = true ↔ hsp.read .tagName = TAG_IMG :=
    cmpTag_iff_read hsp (by decide)
  have htitle : htmlParserCmpTag hsp TAG_ENDTITLE = true ↔ hsp.read .tagName = TAG_ENDTITLE :=
    cmpTag_iff_read hsp (by decide)
  rw [hread] at himg htitle
  simp only [tagEndAt, endOf, himg, htitle]

theorem next_text (h : Scanned g page k rd s) (hrouted : rd.Routed) {c : UInt8}
    (hpart : (atByte g page k).htmlPart = (rd.next c).htmlPart) (hc : page.getD k 0 = c)
    (hin : (rd.next c).htmlPart.innerText) :
    Scanned g page (k + 1) (rd.next c) ((reader.out rd c).foldl Scan.add s) := by
  have hrouted' : (rd.next c).Routed := hrouted.control c
  have hq := hrouted'.quiet_of_innerText hin
  have hout : reader.out rd c = [] := reported_quiet hq (.inr hin) _
  have hbegin : (rd.next c).htmlPart.innerTextBeginning = !rd.htmlPart.innerText :=
    innerTextBeginning_eq hrouted hin
  have htext := Reading.text_of_reads hrouted' (r := .innerText) hin .innerText
  simp only [Control.begins, hrouted'.goesTo_eq (r := .innerText) hin, hbegin] at htext
  rw [hout]
  refine ⟨fun hb => ?_, ?_⟩
  · rw [h.last_next hrouted c hb, hq.nameEnded]
    rfl
  · rw [runsUpTo, h.runs, scanByte.eq_def, hpart, if_pos hin, if_pos hin, hbegin, hc, htext]
    cases hwas : rd.htmlPart.innerText with
    | true => simp
    | false => cases hruns : s.runs <;> simp [hruns]

theorem next_text_ends (h : Scanned g page k rd s) (hrouted : rd.Routed) {c : UInt8}
    (hpart : (atByte g page k).htmlPart = (rd.next c).htmlPart)
    (hwas : rd.htmlPart.innerText) (hin : (rd.next c).htmlPart.innerText = false) :
    Scanned g page (k + 1) (rd.next c) ((reader.out rd c).foldl Scan.add s) := by
  have hq : (rd.next c).htmlPart.Quiet := quiet_of_text_ends hrouted hwas hin
  have hout : reader.out rd c = [.text (rd.text .innerText)] := by
    simp [reader, reported, hwas, hin, hq.nameEnded, hq.attrEnded, hq.valueEnded, hq.tagEnd,
      text_innerText hin]
  rw [hout]
  refine ⟨fun hb => ?_, ?_⟩
  · rw [h.last_next hrouted c hb, hq.nameEnded]
    rfl
  · rw [runsUpTo, h.runs, scanByte.eq_def, hpart, hin, hq.tagEnd, hwas]
    rfl

theorem next_between (h : Scanned g page k rd s) (hrouted : rd.Routed) {c : UInt8}
    (hserves : Serves (lowered true true false) hspLength (atByte g page k) (rd.next c))
    (hwas : rd.htmlPart.innerText = false) (hin : (rd.next c).htmlPart.innerText = false) :
    Scanned g page (k + 1) (rd.next c) ((reader.out rd c).foldl Scan.add s) := by
  have hpart : (atByte g page k).htmlPart = (rd.next c).htmlPart :=
    congrArg Control.htmlPart hserves.keptIn.control
  have hscan : (reader.out rd c).foldl Scan.add s =
      { last := if (rd.next c).htmlPart.nameEnded then (rd.next c).text .tagName else s.last
        runs := if (rd.next c).htmlPart.tagEnd then
            addEnd (endOf (if (rd.next c).htmlPart.nameEnded then (rd.next c).text .tagName
              else s.last) (rd.next c).htmlPart.closingTag) s.runs
          else s.runs } := by
    have hout : reader.out rd c = reported false (rd.next c).htmlPart (rd.next c).text := by
      rw [← hwas]
      rfl
    rw [hout, reported]
    cases (rd.next c).htmlPart.nameEnded <;> cases (rd.next c).htmlPart.attrEnded <;>
      cases (rd.next c).htmlPart.valueEnded <;> cases (rd.next c).htmlPart.tagEnd <;>
      cases (rd.next c).htmlPart.comment <;> cases (rd.next c).htmlPart.closingTag <;> rfl
  rw [hscan]
  refine ⟨h.last_next hrouted c, ?_⟩
  rw [runsUpTo, h.runs, scanByte.eq_def, hpart, hin, hwas]
  cases htag : (rd.next c).htmlPart.tagEnd with
  | false => rfl
  | true =>
      have hbehind : ParserState.behindName (rd.next c).parserState := by
        rw [hserves.routed.tagEnd htag]
        rfl
      have hend := tagEndAt_eq hserves (behindName_inName hserves.routed hbehind)
      rw [h.last_next hrouted c hbehind, hpart] at hend
      simp only [Bool.false_eq_true, if_false, if_true, List.nil_append]
      rw [hend]
      cases s.runs <;> rfl

theorem next (h : Scanned g page k rd s) (hk : k < page.length)
    (hserves : Serves (lowered true true false) hspLength (parserAfter g page k) rd) :
    Scanned g page (k + 1) (rd.next (page.getD k 0))
      ((reader.out rd (page.getD k 0)).foldl Scan.add s) := by
  have hserves' : Serves (lowered true true false) hspLength (atByte g page k)
      (rd.next (page.getD k 0)) := by
    rw [atByte_eq hk]
    exact hserves.next _
  have hpart : (atByte g page k).htmlPart = (rd.next (page.getD k 0)).htmlPart :=
    congrArg Control.htmlPart hserves'.keptIn.control
  cases hin : (rd.next (page.getD k 0)).htmlPart.innerText with
  | true => exact h.next_text hserves.routed hpart rfl hin
  | false =>
      cases hwas : rd.htmlPart.innerText with
      | true => exact h.next_text_ends hserves.routed hpart hwas hin
      | false => exact h.next_between hserves.routed hserves' hwas hin

end Scanned

theorem serves_page (g : Statics) (page : List UInt8) (k : ℕ) :
    Serves (lowered true true false) hspLength (parserAfter g page k)
      (reader.run {} (page.take k)) :=
  (Transducer.related (R := Serves (lowered true true false) hspLength) (fun _ _ c h => h.next c)
    (fun _ _ c h => h.out c)
    ⟨keptIn_setUp g.hsp true true false g.buffer hspLength, Control.routed_initial⟩ _).1

theorem scanned_page (g : Statics) {page : List UInt8} {k : ℕ} (hk : k ≤ page.length) :
    Scanned g page k (reader.run {} (page.take k))
      (scanReports (reader.outputs {} (page.take k))) := by
  induction k with
  | zero => exact ⟨fun _ => rfl, rfl⟩
  | succ k ih =>
      have htake : page.take (k + 1) = page.take k ++ [page.getD k 0] := by
        rw [List.take_succ_eq_append_getElem (by omega), List.getElem_eq_getD 0]
      have hnext := (ih (by omega)).next (by omega) (serves_page g page k)
      rw [htake, Transducer.run_append, Transducer.outputs_append, scanReports, List.foldl_append,
        Transducer.outputs_cons, Transducer.outputs_nil, List.append_nil]
      exact hnext

/-- **Runs and reports.** What the runs of a page give is what its reports give;
a text the page breaks off in gives nothing. -/
theorem collectedOf_runsOf (g : Statics) (page : List UInt8) :
    collectedOf (runsOf g page) = collectedOf (scanReports (reader.outputs {} page)).runs := by
  have hruns := (scanned_page g (Nat.le_refl page.length)).runs
  rw [List.take_length] at hruns
  rw [runsOf, hruns]
  split_ifs
  · simp [collectedOf, Run.collected, collectedFrom]
  · rfl

/-! ### Documents -/

/-- An attribute `href` with a value. -/
def isHref (a : StreamParser.Attribute) : Bool :=
  a.name.1.map tolower = ATTR_HREF && !(a.value matches .none)

def linksOf (t : Tag) : ℕ :=
  if t.name.bytes.map tolower = TAG_A then t.attrs.countP isHref else 0

def tagsOf : Markup → List Tag
  | .tag t _ => [t]
  | .comment _ => []
  | .script s => [s.start, s.stop]

def documentTags (d : Document) : List Tag := d.pieces.flatMap fun p => tagsOf p.2

/-- The texts of a document, each with the ends of the tags and comments behind
it up to the next text; the latest comes first. -/
def documentRuns (d : Document) : List Run := (scanReports d.reports).runs

/-- What a document without images should add to the counters: its links, and of
each text with a tag behind it that is no `</title>`, as far as there is room for
it, the length without the blanks around it and with single blanks inside. -/
def documentGain (d : Document) : Gain where
  href := ((documentTags d).map linksOf).sum
  innertextBytes := dueOf (documentRuns d)

/-- A name too long for its buffer is not taken for a short one. -/
theorem kept_eq_iff {lower : Buffer → Bool} {room : Buffer → ℕ} {r : Buffer} {t x : List UInt8}
    (hlower : lower r = true) (hx : x.length < room r) :
    kept lower room r t = x ↔ t.map tolower = x := by
  have hcased : cased (lower r) = tolower := by
    funext c
    rw [cased, hlower, if_pos rfl]
  rw [kept, hcased]
  constructor
  · intro h
    have hlen := congrArg List.length h
    rw [List.length_take] at hlen
    rw [← h, List.take_of_length_le (by omega)]
  · intro h
    rw [h, List.take_of_length_le (by omega)]

/-- The reports of a document as `test_hsp` gets them. -/
abbrev asKept : Report → Report := Report.map (kept (lowered true true false) hspLength)

theorem isLink_asKept_value (tag key v : List UInt8) :
    isLink (asKept (.value tag key v)) =
      (decide (tag.map tolower = TAG_A) && decide (key.map tolower = ATTR_HREF)) := by
  have htag : kept (lowered true true false) hspLength .tagName tag = TAG_A ↔
      tag.map tolower = TAG_A := kept_eq_iff rfl (by decide)
  have hkey : kept (lowered true true false) hspLength .attrName key = ATTR_HREF ↔
      key.map tolower = ATTR_HREF := kept_eq_iff rfl (by decide)
  simp only [asKept, Report.map, isLink, htag, hkey]

theorem countP_attribute (n : List UInt8) (a : StreamParser.Attribute) :
    ((a.reports n).map asKept).countP isLink =
      if n.map tolower = TAG_A then (isHref a).toNat else 0 := by
  have hattr : ∀ key, isLink (asKept (.attr n key)) = false := fun key => rfl
  rw [StreamParser.Attribute.reports, isHref]
  cases a.value <;>
    simp only [Value.reports, List.append_nil, List.singleton_append, List.map_cons, List.map_nil,
      List.countP_cons, List.countP_nil, hattr, isLink_asKept_value]
  all_goals
    by_cases hn : n.map tolower = TAG_A <;> by_cases hk : a.name.1.map tolower = ATTR_HREF <;>
      simp [hn, hk]

theorem countP_tag (t : Tag) : (t.reports.map asKept).countP isLink = linksOf t := by
  have hattrs : ∀ attrs : List StreamParser.Attribute,
      ((attrs.flatMap (StreamParser.Attribute.reports t.name.bytes)).map asKept).countP isLink =
        if t.name.bytes.map tolower = TAG_A then attrs.countP isHref else 0 := by
    intro attrs
    induction attrs with
    | nil => simp
    | cons a attrs ih =>
        rw [List.flatMap_cons, List.map_append, List.countP_append, ih, countP_attribute,
          List.countP_cons]
        split_ifs with hn hhref
        · simp [hhref, Nat.add_comm]
        · simp [hhref]
        · rfl
  have hname : isLink (asKept (.name t.name.bytes)) = false := rfl
  have hend : isLink (asKept (.tagEnd t.name.isClosing)) = false := rfl
  simp only [Tag.reports, List.map_append, List.countP_append, hattrs, List.map_cons, List.map_nil,
    List.countP_cons, List.countP_nil, hname, hend, linksOf]
  simp

theorem countP_document (d : Document) :
    (d.reports.map asKept).countP isLink = ((documentTags d).map linksOf).sum := by
  rw [Document.reports, documentTags]
  induction d.pieces with
  | nil => rfl
  | cons p pieces ih =>
      have htext : ((textReports p.1.1).map asKept).countP isLink = 0 := by
        rw [textReports]
        split_ifs
        · rfl
        · rfl
      have hmarkup : (p.2.reports.map asKept).countP isLink = ((tagsOf p.2).map linksOf).sum := by
        cases p.2 with
        | tag t _ =>
            simp only [Markup.reports, tagsOf, countP_tag, List.map_cons, List.map_nil,
              List.sum_cons, List.sum_nil, Nat.add_zero]
        | comment body => rfl
        | script s =>
            simp only [Markup.reports, tagsOf, List.map_append, List.countP_append, countP_tag,
              List.map_cons, List.map_nil, List.sum_cons, List.sum_nil, Nat.add_zero]
      rw [List.flatMap_cons, List.map_append, List.map_append, List.countP_append,
        List.countP_append, htext, hmarkup, ih, List.flatMap_cons, List.map_append, List.sum_append,
        Nat.zero_add]

/-- The names reported of a document are those of its tags. -/
theorem name_mem_reports {d : Document} {n : List UInt8} (h : .name n ∈ d.reports) :
    ∃ t ∈ documentTags d, t.name.bytes = n := by
  have htag : ∀ {t : Tag}, .name n ∈ t.reports → t.name.bytes = n := by
    intro t ht
    simp only [Tag.reports, List.mem_append, List.mem_singleton, List.mem_flatMap,
      Report.name.injEq, reduceCtorEq, or_false] at ht
    rcases ht with rfl | ⟨a, -, ha⟩
    · rfl
    · rw [StreamParser.Attribute.reports] at ha
      cases hvalue : a.value <;> simp [hvalue, Value.reports] at ha
  obtain ⟨p, hp, hmem⟩ := List.mem_flatMap.mp h
  rw [List.mem_append] at hmem
  rcases hmem with hmem | hmem
  · rw [textReports] at hmem
    split_ifs at hmem <;> simp at hmem
  · cases hmarkup : p.2 with
    | tag t hscript =>
        rw [hmarkup] at hmem
        exact ⟨t, List.mem_flatMap.mpr ⟨p, hp, by simp [hmarkup, tagsOf]⟩, htag hmem⟩
    | comment body => simp [hmarkup, Markup.reports] at hmem
    | script s =>
        rw [hmarkup, Markup.reports, List.mem_append] at hmem
        rcases hmem with hmem | hmem
        · exact ⟨s.start, List.mem_flatMap.mpr ⟨p, hp, by simp [hmarkup, tagsOf]⟩, htag hmem⟩
        · exact ⟨s.stop, List.mem_flatMap.mpr ⟨p, hp, by simp [hmarkup, tagsOf]⟩, htag hmem⟩

theorem reportsOf_document (g : Statics) (d : Document) :
    reportsOf g d.render = d.reports.map asKept :=
  outputs_document g.hsp true true false g.buffer hspLength d

/-- What `test_hsp` adds for a document without images. -/
theorem gainOf_document (d : Document)
    (hno : ∀ t ∈ documentTags d, t.name.bytes.map tolower ≠ TAG_IMG) :
    gainOf d.render = { documentGain d with innertextBytes := collectedOf (documentRuns d) } := by
  have hnoImg : .name TAG_IMG ∉ reportsOf {} d.render := by
    rw [reportsOf_document]
    intro hmem
    obtain ⟨r, hr, himg⟩ := List.mem_map.mp hmem
    cases r <;> simp only [asKept, Report.map, Report.name.injEq, reduceCtorEq] at himg
    obtain ⟨t, ht, rfl⟩ := name_mem_reports hr
    exact hno t ht ((kept_eq_iff rfl (by decide)).mp himg)
  have hcounted := finish_counted_of_reports hnoImg {}
  have hnoEarly : NoEarlyImgEnd {} d.render := fun k hk hend => by
    rw [noImg_of_reports hnoImg (by omega)] at hend
    cases hend.1
  have hcollected := (finish_collected hnoEarly {}).total
  rw [collectedOf_runsOf, (triple_document d {} between_initial).1] at hcollected
  have hfinish : (testHsp {} {} d.render).2 = (finish {} {} d.render).result := rfl
  rw [gainOf, documentGain, Gain.mk.injEq, hfinish]
  refine ⟨?_, ?_, ?_, ?_⟩
  · rw [← countP_document, ← reportsOf_document {}]
    simpa using hcounted.totalHref
  · simpa using hcounted.totalSrc
  · simpa using hcounted.totalAlt
  · simpa [documentRuns] using hcollected

/-- **Documents.** On a document without images `test_hsp` counts every value of
`href` in a tag `a` and no image value, and collects each text as its run says;
where every text is collected once, that is what is due of the texts. -/
theorem testHsp_document (g : Statics) (result : TestResult) (d : Document)
    (hno : ∀ t ∈ documentTags d, t.name.bytes.map tolower ≠ TAG_IMG) :
    (testHsp g result d.render).2 = { result with totalBytes := hspBytes }.add
        { documentGain d with innertextBytes := ((documentRuns d).map Run.collected).sum } ∧
      ((∀ r ∈ documentRuns d, r.CollectedOnce) →
        (testHsp g result d.render).2 =
          { result with totalBytes := hspBytes }.add (documentGain d)) := by
  have hgain : (testHsp g result d.render).2 = { result with totalBytes := hspBytes }.add
      { documentGain d with innertextBytes := ((documentRuns d).map Run.collected).sum } := by
    rw [testHsp_result, gainOf_document d hno, collectedOf]
  refine ⟨hgain, fun honce => ?_⟩
  have hdue : ((documentRuns d).map Run.collected).sum = dueOf (documentRuns d) :=
    collectedOf_eq_dueOf honce
  rw [hgain, hdue, documentGain]

/-- A link with a title, a text and its closing tag. -/
def linkDocument : Document where
  pieces :=
    [(⟨[], by decide +kernel⟩, .tag
        { name := .opening ⟨'A'.toUInt8, by decide +kernel⟩ ⟨[], by decide +kernel⟩
          attrs :=
            [{ gap := ⟨bytes " ", by decide +kernel⟩
               name := ⟨bytes "title", by decide +kernel⟩
               value := .bare ⟨[], by decide +kernel⟩ ⟨[], by decide +kernel⟩
                ⟨bytes "t", by decide +kernel⟩ (by intro q; cases q <;> decide +kernel) },
             { gap := ⟨bytes " ", by decide +kernel⟩
               name := ⟨bytes "Href", by decide +kernel⟩
               value := .quoted ⟨bytes " ", by decide +kernel⟩ ⟨[], by decide +kernel⟩
                .double ⟨bytes "a>b", by decide +kernel⟩ }]
          gap := ⟨[], by decide +kernel⟩ } (by decide +kernel)),
      (⟨bytes " to  b ", by decide +kernel⟩, .tag
        { name := .closing ⟨bytes "a", by decide +kernel⟩
          attrs := []
          gap := ⟨[], by decide +kernel⟩ }
        (by decide +kernel))]
  rest := ⟨[], by decide +kernel⟩

theorem testHsp_linkDocument :
    linkDocument.render = bytes "<A title=t Href =\"a>b\"> to  b </a>" ∧
      (∀ t ∈ documentTags linkDocument, t.name.bytes.map tolower ≠ TAG_IMG) ∧
      (∀ r ∈ documentRuns linkDocument, r.CollectedOnce) ∧
      documentGain linkDocument = { href := 1, innertextBytes := 4 } ∧
      (testHsp {} {} linkDocument.render).2 =
        { ({} : TestResult) with totalBytes := hspBytes }.add (documentGain linkDocument) :=
  have hno : ∀ t ∈ documentTags linkDocument, t.name.bytes.map tolower ≠ TAG_IMG := by decide
  have honce : ∀ r ∈ documentRuns linkDocument, r.CollectedOnce := by decide +kernel
  ⟨by decide, hno, honce, by decide +kernel, (testHsp_document {} {} linkDocument hno).2 honce⟩

end HtmlBenchmark.TestHsp
