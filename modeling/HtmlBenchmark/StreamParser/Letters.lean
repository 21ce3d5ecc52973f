import HtmlBenchmark.StreamParser.Markup

/-!
What one byte of a page does, by the place it stands at.

A page is followed through the parser from place to place: a text, the name of a
tag, the space behind it, an attribute, a value, a comment, a script. For each
place there is a predicate on what has been read so far, and for each byte that
may stand there a triple that says what is reported and which place comes next.
-/

namespace HtmlBenchmark.StreamParser

open Library

/-! ### Flags and texts one byte later -/

/-- A state whose flags report nothing. -/
structure HtmlPart.Quiet (h : HtmlPart) : Prop where
  nameEnded : h.nameEnded = false
  attrEnded : h.attrEnded = false
  valueEnded : h.valueEnded = false
  tagEnd : h.tagEnd = false

/-- The states in which nothing has just ended. -/
def ParserState.midway : ParserState → Bool
  | .innerText | .tagSpace | .beforeValue => false
  | _ => true

theorem Control.Routed.quiet {s : Control} (h : s.Routed) (hs : s.parserState.midway) :
    s.htmlPart.Quiet := by
  have hname := h.nameEnded
  have hattr := h.attrEnded
  have hvalue := h.valueEnded
  have htag := h.tagEnd
  cases hstate : s.parserState <;> rw [hstate] at hs <;>
    simp_all [ParserState.midway] <;> constructor <;> assumption

theorem Control.Routed.quiet_of_innerText {s : Control} (h : s.Routed) (hs : s.htmlPart.innerText) :
    s.htmlPart.Quiet := by
  obtain ⟨hstate, htag, hvalue⟩ := h.inner hs
  have hname := h.nameEnded
  have hattr := h.attrEnded
  constructor <;> simp_all

theorem reported_quiet {h : HtmlPart} (hq : h.Quiet) {wasText : Bool}
    (htext : wasText = false ∨ h.innerText) (read : Buffer → List UInt8) :
    reported wasText h read = [] := by
  have hend : (wasText && !h.innerText) = false := by
    rcases htext with ht | ht <;> simp [ht]
  simp [reported, hend, hq.nameEnded, hq.attrEnded, hq.valueEnded, hq.tagEnd]

theorem Control.Routed.goesTo_eq {s : Control} (h : s.Routed) {r : Buffer} (hr : s.reads r) :
    s.goesTo = some r := by
  have honly : ∀ r', s.reads r' → r' = r := fun r' hr' =>
    Option.some.inj ((h.reads hr').symm.trans (h.reads hr))
  simp only [Control.goesTo]
  split_ifs with h1 h2 h3 h4
  · exact congrArg some (honly .innerText h1)
  · exact congrArg some (honly .tagName h2)
  · exact congrArg some (honly .attrName h3)
  · exact congrArg some (honly .attrValue h4)
  · cases r <;> simp_all [Control.reads]

/-- The texts behind a byte that goes to one of them. -/
theorem Reading.text_of_reads {rd : Reading} {c : UInt8} {r : Buffer} (h : (rd.next c).Routed)
    (hr : (rd.next c).reads r) (r' : Buffer) :
    (rd.next c).text r' =
      (if (rd.next c).begins r' then [] else rd.text r') ++ if r = r' then [c] else [] := by
  have hgoes : (htmlParserControl rd.toControl c).goesTo = some r := h.goesTo_eq hr
  simp only [Reading.next_text, Control.grown, hgoes, Option.some.injEq]
  rfl

/-- A byte that goes nowhere leaves all texts alone. -/
theorem Reading.text_of_not_reads {rd : Reading} {c : UInt8}
    (h : ∀ r, (rd.next c).reads r = false) : (rd.next c).text = rd.text := by
  have hgoes : (htmlParserControl rd.toControl c).goesTo = none := by
    have h1 : (htmlParserControl rd.toControl c).htmlPart.innerText = false := h .innerText
    have h2 : (htmlParserControl rd.toControl c).inName = false := h .tagName
    have h3 : (htmlParserControl rd.toControl c).htmlPart.attr = false := h .attrName
    have h4 : (htmlParserControl rd.toControl c).htmlPart.value = false := h .attrValue
    simp [Control.goesTo, h1, h2, h3, h4]
  funext r
  rw [Reading.next_text, Control.grown, Control.begins, hgoes]
  simp

/-- The name of a tag stays while none is read. -/
theorem Reading.text_tagName {rd : Reading} {c : UInt8} (h : (rd.next c).inName = false) :
    (rd.next c).text .tagName = rd.text .tagName := by
  have hin : (htmlParserControl rd.toControl c).inName = false := h
  rw [Reading.next_text, Control.grown, Control.begins]
  simp only [Control.goesTo, hin]
  split_ifs <;> simp_all

/-! ### Texts -/

/-- Between two tags, with the text `t` read so far. -/
structure Between (t : List UInt8) (rd : Reading) : Prop where
  routed : rd.Routed
  state : rd.parserState = .innerText
  len : rd.scriptEqualityLen ≠ 6
  reading : rd.htmlPart.innerText ↔ t ≠ []
  text : t ≠ [] → rd.text .innerText = t

theorem between_initial : Between [] {} where
  routed := Control.routed_initial
  state := rfl
  len := by decide
  reading := by simp
  text h := absurd rfl h

/-- Behind the `<` of a tag. -/
structure Opened (rd : Reading) : Prop where
  routed : rd.Routed
  state : rd.parserState = .tagBeginning
  part : rd.htmlPart = { tag := true, tagBeginning := true }

theorem Between.control {t : List UInt8} {rd : Reading} (h : Between t rd) (c : UInt8) :
    htmlParserControl rd.toControl c = htmlParserScript (htmlParserSwitch rd.toControl c) c := by
  rw [htmlParserControl, htmlParserEnterScript, if_neg fun hs => h.len hs.2]

/-- A triple of one byte, in the terms of a `Reading`. -/
theorem triple_letter {P Q : Reading → Prop} {c : UInt8} {out : List Report}
    (h : ∀ rd, P rd → reported rd.htmlPart.innerText (rd.next c).htmlPart (rd.next c).text = out ∧
      Q (rd.next c)) : reader.Triple P [c] out Q :=
  .letter h

theorem triple_text {c : UInt8} (hc : c ≠ '<'.toUInt8) (t : List UInt8) :
    reader.Triple (Between t) [c] [] (Between (t ++ [c])) := by
  refine triple_letter fun rd h => ?_
  have hrouted : (rd.next c).Routed := h.routed.control c
  have hnext : (rd.next c).toControl = { rd.toControl with
      htmlPart := if rd.htmlPart.innerText then { rd.htmlPart with innerTextBeginning := false }
        else { innerText := true, innerTextBeginning := true } } := by
    rw [Reading.next_toControl, h.control]
    cases hin : rd.htmlPart.innerText <;>
      simp [htmlParserSwitch, htmlParserScript, h.state, hc, hin]
  have hreads : (rd.next c).reads .innerText := by
    rw [hnext]
    cases hin : rd.htmlPart.innerText <;> simp [Control.reads, hin]
  have htext : (rd.next c).text .innerText = t ++ [c] := by
    rw [Reading.text_of_reads hrouted hreads, Control.begins, hrouted.goesTo_eq hreads, hnext]
    by_cases ht : t = []
    · simp [ht, h.reading]
    · simp [ht, h.reading, h.text]
  refine ⟨reported_quiet (hrouted.quiet_of_innerText hreads) (.inr hreads) _, hrouted, ?_, ?_, ?_,
    fun _ => htext⟩
  · rw [hnext]
    exact h.state
  · rw [hnext]
    exact h.len
  · have hinner : (rd.next c).htmlPart.innerText = true := hreads
    simp [hinner]

/-- Where the state reads nothing, no text changes. -/
theorem Reading.text_of_readsTo {rd : Reading} {c : UInt8} (h : (rd.next c).Routed)
    (hstate : (rd.next c).parserState.readsTo = none) : (rd.next c).text = rd.text := by
  refine Reading.text_of_not_reads fun r => ?_
  by_contra hr
  have hsome := h.reads (by simpa using hr)
  rw [hstate] at hsome
  cases hsome

/-- The `<` that ends a text. -/
theorem triple_open (t : List UInt8) :
    reader.Triple (Between t) ['<'.toUInt8] (textReports t) Opened := by
  refine triple_letter fun rd h => ?_
  have hrouted : (rd.next '<'.toUInt8).Routed := h.routed.control _
  have hnext : (rd.next '<'.toUInt8).toControl = { rd.toControl with
      parserState := .tagBeginning, htmlPart := { tag := true, tagBeginning := true } } := by
    rw [Reading.next_toControl, h.control]
    simp [htmlParserSwitch, htmlParserScript, h.state]
  refine ⟨?_, hrouted, by rw [hnext], by rw [hnext]⟩
  rw [Reading.text_of_readsTo hrouted (by rw [hnext]; rfl), hnext, textReports]
  by_cases ht : t = []
  · simp [reported, h.reading, ht]
  · simp [reported, h.reading, ht, h.text]

/-! ### Tags -/

/-- Inside a tag named `n`. -/
structure InTag (n : List UInt8) (closing : Bool) (rd : Reading) : Prop where
  routed : rd.Routed
  name : rd.text .tagName = n
  script : rd.scriptEqualityLen = 6 ↔ IsScript n
  closing : rd.htmlPart.closingTag = closing
  comment : rd.htmlPart.comment = false

/-- The name is being read. -/
structure Named (n : List UInt8) (closing : Bool) (rd : Reading) : Prop where
  inTag : InTag n closing rd
  state : rd.parserState = .tagName
  len : rd.scriptEqualityLen = matched n

theorem triple_name_first {c : UInt8} (hc : c = '/'.toUInt8 ∨ isalpha c) :
    reader.Triple Opened [c] [] (Named [c] (c = '/'.toUInt8)) := by
  refine triple_letter fun rd h => ?_
  have hrouted : (rd.next c).Routed := h.routed.control c
  have hswitch : htmlParserSwitch rd.toControl c = { rd.toControl with
      parserState := .tagName, scriptEqualityLen := 0
      htmlPart := { tag := true, name := true, nameBeginning := true, slash := c = '/'.toUInt8
                    closingTag := c = '/'.toUInt8 } } := by
    rcases hc with rfl | hc
    · simp [htmlParserSwitch, h.state, h.part]
    · have hne : ∀ d, isalpha d = false → c ≠ d := by
        rintro d hd rfl
        simp [hd] at hc
      simp [htmlParserSwitch, h.state, h.part, hne '/'.toUInt8 (by decide),
        hne '!'.toUInt8 (by decide), hne '>'.toUInt8 (by decide), hc]
  have hnext : (rd.next c).toControl = htmlParserScript (htmlParserSwitch rd.toControl c) c := by
    rw [Reading.next_toControl, htmlParserControl_of_ne (by simp [h.state])]
  have hstate : (rd.next c).parserState = .tagName := by simp [hnext, hswitch]
  have hpart : (rd.next c).htmlPart = (htmlParserSwitch rd.toControl c).htmlPart := by
    simp [hnext]
  have hlen : (rd.next c).scriptEqualityLen = matched [c] := by
    rw [hnext]
    exact htmlParserScript_len (u := []) (.inl (by rw [hswitch])) (by rw [hswitch]; rfl) c
  have hreads : (rd.next c).reads .tagName := by
    simp [Control.reads, Control.inName, hpart, hswitch]
  have htext : (rd.next c).text .tagName = [c] := by
    rw [Reading.text_of_reads hrouted hreads, Control.begins, hrouted.goesTo_eq hreads]
    simp [Control.startsName, hpart, hswitch]
  have hscript : (rd.next c).scriptEqualityLen = 6 ↔ IsScript [c] := by
    rw [hlen, matched_eq_six_iff, IsScript]
  refine ⟨reported_quiet (hrouted.quiet (by rw [hstate]; rfl)) (.inl (by rw [h.part])) _,
    ⟨hrouted, htext, hscript, ?_, ?_⟩, hstate, hlen⟩
  · rw [hpart, hswitch]
  · rw [hpart, hswitch]

theorem Control.Routed.not_innerText {s : Control} (h : s.Routed)
    (hs : s.parserState ≠ .innerText) : s.htmlPart.innerText = false := by
  by_contra hin
  exact hs (h.inner (by simpa using hin)).1

theorem triple_name {c : UInt8} (hc : nameByte c) (n : List UInt8) (closing : Bool) :
    reader.Triple (Named n closing) [c] [] (Named (n ++ [c]) closing) := by
  refine triple_letter fun rd h => ?_
  have hrouted : (rd.next c).Routed := h.inTag.routed.control c
  simp only [nameByte, Bool.and_eq_true, decide_eq_true_eq, Bool.not_eq_true'] at hc
  have hswitch : htmlParserSwitch rd.toControl c = { rd.toControl with
      htmlPart := { rd.htmlPart with nameBeginning := false, slash := false } } := by
    simp [htmlParserSwitch, h.state, hc]
  have hnext : (rd.next c).toControl = htmlParserScript (htmlParserSwitch rd.toControl c) c := by
    rw [Reading.next_toControl, htmlParserControl_of_ne (by simp [h.state])]
  have hstate : (rd.next c).parserState = .tagName := by simp [hnext, hswitch, h.state]
  have hpart : (rd.next c).htmlPart = { rd.htmlPart with nameBeginning := false, slash := false } :=
    by simp [hnext, hswitch]
  have hlen : (rd.next c).scriptEqualityLen = matched (n ++ [c]) := by
    rw [hnext]
    exact htmlParserScript_len (.inl (by rw [hswitch]; exact h.state)) (by rw [hswitch, h.len]) c
  have hreads : (rd.next c).reads .tagName := by
    simp [Control.reads, Control.inName, hrouted.name, hstate]
  have htext : (rd.next c).text .tagName = n ++ [c] := by
    rw [Reading.text_of_reads hrouted hreads, Control.begins, hrouted.goesTo_eq hreads]
    simp [Control.startsName, hpart, hstate, h.inTag.name]
  have hscript : (rd.next c).scriptEqualityLen = 6 ↔ IsScript (n ++ [c]) := by
    rw [hlen, matched_eq_six_iff, IsScript]
  have hwas := h.inTag.routed.not_innerText (by simp [h.state])
  refine ⟨reported_quiet (hrouted.quiet (by rw [hstate]; rfl)) (.inl hwas) _,
    ⟨hrouted, htext, hscript, ?_, ?_⟩, hstate, hlen⟩
  · rw [hpart]
    exact h.inTag.closing
  · rw [hpart]
    exact h.inTag.comment

/-! ### Behind a name -/

/-- The `switch` leaves alone what belongs to the whole tag. -/
theorem htmlParserSwitch_inTag {s : Control} (h : s.parserState = .tagName ∨ s.inTag)
    (c : UInt8) :
    (htmlParserSwitch s c).htmlPart.closingTag = s.htmlPart.closingTag ∧
      (htmlParserSwitch s c).htmlPart.comment = s.htmlPart.comment ∧
      (htmlParserSwitch s c).scriptEqualityLen = s.scriptEqualityLen ∧
      (htmlParserSwitch s c).parserState ≠ .scriptName := by
  suffices hall : ∀ s', htmlParserSwitch s c = s' →
      s'.htmlPart.closingTag = s.htmlPart.closingTag ∧ s'.htmlPart.comment = s.htmlPart.comment ∧
        s'.scriptEqualityLen = s.scriptEqualityLen ∧ s'.parserState ≠ .scriptName from hall _ rfl
  intro s' hs
  obtain ⟨state, part, len⟩ := s
  cases state <;> simp only [Control.inTag, Bool.false_eq_true, or_false, reduceCtorEq] at h <;>
    simp only [htmlParserSwitch] at hs <;> split_ifs at hs <;> subst hs <;> simp

/-- A byte that does not go on a name leaves its tag as it is. -/
theorem InTag.next {n : List UInt8} {closing : Bool} {rd : Reading} (h : InTag n closing rd)
    (hin : rd.parserState = .tagName ∨ rd.inTag) {c : UInt8} {s' : Control}
    (hswitch : htmlParserSwitch rd.toControl c = s') (hstate : s'.parserState ≠ .tagName) :
    (rd.next c).toControl = s' ∧ InTag n closing (rd.next c) := by
  obtain ⟨hclosing, hcomment, hlen, hname⟩ := htmlParserSwitch_inTag hin c
  have hnext : (rd.next c).toControl = s' := by
    have hne : rd.parserState ≠ .innerText := by
      rcases hin with hs | hs
      · simp [hs]
      · intro he
        simp [Control.inTag, he] at hs
    rw [Reading.next_toControl, htmlParserControl_of_ne hne, hswitch,
      htmlParserScript_of_ne hstate (hswitch ▸ hname)]
  have hbehind : (rd.next c).BehindName := by
    rcases hin with hs | hs
    · exact (h.routed.of_tagName hs c).resolve_left (by rwa [← Reading.next_toControl, hnext])
    · exact h.routed.behindName_of_inTag hs c
  refine ⟨hnext, h.routed.control c, ?_, ?_, ?_, ?_⟩
  · rw [Reading.text_tagName hbehind.inName, h.name]
  · rw [hnext, ← hswitch, hlen, h.script]
  · rw [hnext, ← hswitch, hclosing, h.closing]
  · rw [hnext, ← hswitch, hcomment, h.comment]

/-- Where a page can stand in a tag behind the beginning of its name. -/
inductive Place
  | name
  | space
  | attr (key : List UInt8)
  | value (key val : List UInt8)

/-- What will be reported of a place when it ends. -/
def Place.reports (n : List UInt8) : Place → List Report
  | .name => [.name n]
  | .space => []
  | .attr key => [.attr n key]
  | .value key val => [.value n key val]

inductive Standing (n : List UInt8) (closing : Bool) : Place → Reading → Prop
  | name {rd : Reading} (h : Named n closing rd) : Standing n closing .name rd
  | space {rd : Reading} (h : InTag n closing rd) (hstate : rd.parserState = .tagSpace) :
      Standing n closing .space rd
  | attr {rd : Reading} (h : InTag n closing rd) (hstate : rd.parserState = .attributeName)
      (hval : rd.text .attrValue = []) : Standing n closing (.attr (rd.text .attrName)) rd
  | value {rd : Reading} (h : InTag n closing rd) (hstate : rd.parserState = .valueUnquoted)
      (hvalue : rd.htmlPart.value) :
      Standing n closing (.value (rd.text .attrName) (rd.text .attrValue)) rd

/-- Where a tag has ended, or a name or a value, no text changes. -/
theorem Reading.text_of_ended {rd : Reading} {c : UInt8} (h : (rd.next c).Routed)
    (hend : (rd.next c).htmlPart.tagEnd ∨ (rd.next c).parserState.readsTo = none) :
    (rd.next c).text = rd.text := by
  refine Reading.text_of_not_reads fun r => ?_
  by_contra hr
  have hsome := h.reads (by simpa using hr)
  rcases hend with htag | hnone
  · rw [h.tagEnd htag, ParserState.readsTo, Option.some.injEq] at hsome
    subst hsome
    have hinner : (rd.next c).htmlPart.innerText = true := by simpa [Control.reads] using hr
    rw [(h.inner hinner).2.1] at htag
    cases htag
  · rw [hnone] at hsome
    cases hsome

theorem Standing.inTag {n : List UInt8} {closing : Bool} {p : Place} {rd : Reading}
    (h : Standing n closing p rd) : InTag n closing rd := by
  cases h with
  | name h => exact h.inTag
  | space h _ => exact h
  | attr h _ _ => exact h
  | value h _ _ => exact h

theorem Standing.state {n : List UInt8} {closing : Bool} {p : Place} {rd : Reading}
    (h : Standing n closing p rd) : rd.parserState = .tagName ∨ rd.inTag := by
  cases h with
  | name h => exact .inl h.state
  | space _ hs => exact .inr (by rw [Control.inTag, hs])
  | attr _ hs _ => exact .inr (by rw [Control.inTag, hs])
  | value _ hs _ => exact .inr (by rw [Control.inTag, hs])

/-- The flags where a place ends. -/
structure Place.Ends (p : Place) (tagEnd : Bool) (h : HtmlPart) : Prop where
  nameEnded : h.nameEnded = (p matches .name)
  attrEnded : h.attrEnded = (p matches .attr _)
  valueEnded : h.valueEnded = (p matches .value _ _)
  tagEnd : h.tagEnd = tagEnd

/-- What the `switch` does with a byte that ends whatever stands in front of it. -/
theorem Standing.ends {n : List UInt8} {closing : Bool} {p : Place} {rd : Reading}
    (h : Standing n closing p rd) {c : UInt8} (hc : c = '>'.toUInt8 ∨ ishtmlspace c) :
    (htmlParserSwitch rd.toControl c).parserState =
        (if c = '>'.toUInt8 then .innerText else .tagSpace) ∧
      p.Ends (c = '>'.toUInt8) (htmlParserSwitch rd.toControl c).htmlPart := by
  have heq : c ≠ '='.toUInt8 := by
    rintro rfl
    rcases hc with hc | hc <;> cases hc
  have hgt : ishtmlspace '>'.toUInt8 = false := by decide
  have hblank : c ≠ '>'.toUInt8 → ishtmlspace c := hc.resolve_left
  have hquiet := h.inTag.routed.quiet
  cases h with
  | name h =>
      have hq := hquiet (by rw [h.state]; rfl)
      by_cases hend : c = '>'.toUInt8
      · exact ⟨by simp [htmlParserSwitch, h.state, hend],
          by constructor <;> simp [htmlParserSwitch, h.state, hend, hq.attrEnded, hq.valueEnded]⟩
      · exact ⟨by simp [htmlParserSwitch, h.state, hend, hblank],
          by constructor <;> simp [htmlParserSwitch, h.state, hend, hblank, hq.attrEnded,
            hq.valueEnded, hq.tagEnd]⟩
  | space h hstate =>
      have htag : rd.htmlPart.tagEnd = false := by
        by_contra he
        have hinner := h.routed.tagEnd (by simpa using he)
        simp [hstate] at hinner
      by_cases hend : c = '>'.toUInt8
      · exact ⟨by simp [htmlParserSwitch, hstate, hend, hgt],
          by constructor <;> simp [htmlParserSwitch, hstate, hend, hgt]⟩
      · exact ⟨by simp [htmlParserSwitch, hstate, hend, hblank],
          by constructor <;> simp [htmlParserSwitch, hstate, hend, hblank, htag]⟩
  | attr h hstate hval =>
      have hq := hquiet (by rw [hstate]; rfl)
      by_cases hend : c = '>'.toUInt8
      · exact ⟨by simp [htmlParserSwitch, hstate, hend],
          by constructor <;> simp [htmlParserSwitch, hstate, hend, hq.nameEnded, hq.valueEnded]⟩
      · exact ⟨by simp [htmlParserSwitch, hstate, hend, heq, hblank],
          by constructor <;> simp [htmlParserSwitch, hstate, hend, heq, hblank, hq.nameEnded,
            hq.valueEnded, hq.tagEnd]⟩
  | value h hstate hvalue =>
      have hq := hquiet (by rw [hstate]; rfl)
      by_cases hend : c = '>'.toUInt8
      · exact ⟨by simp [htmlParserSwitch, hstate, hend],
          by constructor <;> simp [htmlParserSwitch, hstate, hend, hq.nameEnded, hq.attrEnded]⟩
      · exact ⟨by simp [htmlParserSwitch, hstate, hend, hblank],
          by constructor <;> simp [htmlParserSwitch, hstate, hend, hblank, hq.nameEnded,
            hq.attrEnded, hq.tagEnd]⟩

/-- Behind a tag. -/
structure Ended (n : List UInt8) (rd : Reading) : Prop where
  routed : rd.Routed
  state : rd.parserState = .innerText
  script : rd.scriptEqualityLen = 6 ↔ IsScript n
  reading : rd.htmlPart.innerText = false

/-- What is reported where a place ends. -/
theorem Standing.reported_ends {n : List UInt8} {closing : Bool} {p : Place} {rd : Reading}
    (h : Standing n closing p rd) {part : HtmlPart} {tagEnd : Bool} (hends : p.Ends tagEnd part)
    (hclosing : part.closingTag = closing) (hcomment : part.comment = false) :
    reported rd.htmlPart.innerText part rd.text =
      p.reports n ++ if tagEnd then [.tagEnd closing] else [] := by
  have hin := h.inTag
  have hwas := hin.routed.not_innerText fun hs => by
    rcases h.state with h | h <;> simp [Control.inTag, hs] at h
  obtain ⟨hname, hattr, hvalue, htag⟩ := hends
  cases h <;> simp [reported, Place.reports, hwas, hname, hattr, hvalue, htag, hclosing, hcomment,
    hin.name]

/-- The byte behind a place ends it. -/
theorem Standing.next {n : List UInt8} {closing : Bool} {p : Place} {rd : Reading}
    (h : Standing n closing p rd) {c : UInt8} (hc : c = '>'.toUInt8 ∨ ishtmlspace c) :
    (rd.next c).toControl = htmlParserSwitch rd.toControl c ∧ InTag n closing (rd.next c) ∧
      reported rd.htmlPart.innerText (rd.next c).htmlPart (rd.next c).text =
        p.reports n ++ if c = '>'.toUInt8 then [.tagEnd closing] else [] := by
  obtain ⟨hstate, hends⟩ := h.ends hc
  obtain ⟨hnext, hin⟩ := h.inTag.next h.state (c := c) rfl (by rw [hstate]; split_ifs <;> simp)
  have htext : (rd.next c).text = rd.text := by
    refine Reading.text_of_ended hin.routed ?_
    rw [hnext, hends.tagEnd, hstate]
    by_cases hgt : c = '>'.toUInt8
    · exact .inl (by simpa using hgt)
    · rw [if_neg hgt]
      exact .inr rfl
  rw [← hnext] at hends
  have hreport := h.reported_ends hends hin.closing hin.comment
  simp only [decide_eq_true_eq] at hreport
  exact ⟨hnext, hin, by rw [htext, hreport]⟩

/-- A blank ends whatever stands in front of it. -/
theorem triple_blank {c : UInt8} (hc : ishtmlspace c) (n : List UInt8) (closing : Bool)
    (p : Place) :
    reader.Triple (Standing n closing p) [c] (p.reports n) (Standing n closing .space) := by
  refine triple_letter fun rd h => ?_
  obtain ⟨hnext, hin, hreport⟩ := h.next (.inr hc)
  have hgt : c ≠ '>'.toUInt8 := by rintro rfl; cases hc
  refine ⟨by rw [hreport, if_neg hgt, List.append_nil], .space hin ?_⟩
  rw [hnext, (h.ends (.inr hc)).1, if_neg hgt]

theorem triple_end (n : List UInt8) (closing : Bool) (p : Place) :
    reader.Triple (Standing n closing p) ['>'.toUInt8] (p.reports n ++ [.tagEnd closing])
      (Ended n) := by
  refine triple_letter fun rd h => ?_
  obtain ⟨hnext, hin, hreport⟩ := h.next (.inl rfl)
  obtain ⟨hstate, hends⟩ := h.ends (.inl rfl)
  rw [← hnext] at hstate hends
  rw [if_pos rfl] at hstate hreport
  refine ⟨hreport, hin.routed, hstate, hin.script, ?_⟩
  by_contra hreading
  have htag := (hin.routed.inner (by simpa using hreading)).2.1
  rw [hends.tagEnd] at htag
  cases htag

end HtmlBenchmark.StreamParser
