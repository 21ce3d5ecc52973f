import HtmlBenchmark.StreamParser.Store

/-!
What the state says about the flags, and what one byte can do to both.

The flags are set and cleared piecemeal by the states, so nothing local says,
for instance, that `HTML_VALUE_ENDED` is gone one byte after the tag that set
it. `Control.Ok` collects the facts every reachable state satisfies; the step
lemmas below it say what a byte does from each kind of state, and are all that
the later modules use of the `switch`.
-/

namespace HtmlBenchmark.StreamParser

def Control.inTag (s : Control) : Bool :=
  match s.parserState with
  | .tagSpace | .attributeName | .beforeValue | .valueDoubleQuoted | .valueSingleQuoted
  | .valueUnquoted => true
  | _ => false

def Control.inValue (s : Control) : Bool :=
  match s.parserState with
  | .valueDoubleQuoted | .valueSingleQuoted | .valueUnquoted => true
  | _ => false

/-- What the flags mean in every reachable state. -/
structure Control.Ok (s : Control) : Prop where
  inner : s.htmlPart.innerText →
    s.parserState = .innerText ∧ s.htmlPart.tagEnd = false ∧ s.htmlPart.valueEnded = false
  tagEnd : s.htmlPart.tagEnd → s.parserState = .innerText
  name : s.htmlPart.name ↔ s.parserState = .tagName
  nameBeginning : s.htmlPart.nameBeginning → s.parserState = .tagName
  valueEnded : s.htmlPart.valueEnded →
    s.parserState = .tagSpace ∨ s.parserState = .innerText ∧ s.htmlPart.tagEnd

theorem Control.ok_initial : ({} : Control).Ok := by
  constructor <;> simp

@[simp] theorem htmlParserScript_parserState (s : Control) (c : UInt8) :
    (htmlParserScript s c).parserState = s.parserState := by
  simp only [htmlParserScript]
  split_ifs <;> rfl

@[simp] theorem htmlParserScript_htmlPart (s : Control) (c : UInt8) :
    (htmlParserScript s c).htmlPart = s.htmlPart := by
  simp only [htmlParserScript]
  split_ifs <;> rfl

theorem Control.Ok.enterScript {s : Control} (h : s.Ok) : (htmlParserEnterScript s).Ok := by
  simp only [htmlParserEnterScript]
  split_ifs
  · constructor <;> simp
  · exact h

theorem Control.Ok.switch {s : Control} (h : s.Ok) (c : UInt8) : (htmlParserSwitch s c).Ok := by
  obtain ⟨hinner, htagEnd, hname, hbeginning, hvalueEnded⟩ := h
  obtain ⟨state, part, len⟩ := s
  cases state <;> simp only [htmlParserSwitch] <;> split_ifs <;> constructor <;> simp_all

theorem Control.Ok.control {s : Control} (h : s.Ok) (c : UInt8) : (htmlParserControl s c).Ok := by
  have hs := h.enterScript.switch c
  constructor <;> simp only [htmlParserControl, htmlParserScript_parserState,
    htmlParserScript_htmlPart]
  · exact hs.inner
  · exact hs.tagEnd
  · exact hs.name
  · exact hs.nameBeginning
  · exact hs.valueEnded

/-! ### What a byte does from each kind of state -/

theorem htmlParserEnterScript_of_ne {s : Control} (h : s.parserState ≠ .innerText) :
    htmlParserEnterScript s = s := by
  simp [htmlParserEnterScript, h]

theorem htmlParserEnterScript_cases (s : Control) :
    htmlParserEnterScript s = s ∨
      (htmlParserEnterScript s).parserState = .script ∧
        (htmlParserEnterScript s).htmlPart = { script := true } := by
  simp only [htmlParserEnterScript]
  split_ifs
  · exact .inr ⟨rfl, rfl⟩
  · exact .inl rfl

@[simp] theorem htmlParserScript_inName (s : Control) (c : UInt8) :
    (htmlParserScript s c).inName = s.inName := by
  simp [Control.inName]

@[simp] theorem htmlParserScript_inTag (s : Control) (c : UInt8) :
    (htmlParserScript s c).inTag = s.inTag := by
  simp [Control.inTag]

theorem htmlParserControl_of_ne {s : Control} (h : s.parserState ≠ .innerText) (c : UInt8) :
    htmlParserControl s c = htmlParserScript (htmlParserSwitch s c) c := by
  rw [htmlParserControl, htmlParserEnterScript_of_ne h]

/-- The byte is no part of a text or a name, and the tag goes on behind its
name or ends. -/
structure Control.BehindName (s : Control) : Prop where
  innerText : s.htmlPart.innerText = false
  inName : s.inName = false
  inTag : s.inTag ∨ s.htmlPart.tagEnd

theorem Control.BehindName.script {s : Control} (h : s.BehindName) (c : UInt8) :
    (htmlParserScript s c).BehindName :=
  ⟨by simpa using h.innerText, by simpa using h.inName, by simpa using h.inTag⟩

/-- Behind the name, a tag goes on until its end. -/
theorem Control.Ok.behindName_of_inTag {s : Control} (h : s.Ok) (ht : s.inTag) (c : UInt8) :
    (htmlParserControl s c).BehindName := by
  have hne : s.parserState ≠ .innerText := by
    intro he
    simp [Control.inTag, he] at ht
  rw [htmlParserControl_of_ne hne]
  refine Control.BehindName.script ?_ c
  obtain ⟨hinner, -, hname, -, -⟩ := h
  obtain ⟨state, part, len⟩ := s
  generalize hs : htmlParserSwitch _ c = s'
  cases state <;> simp only [Control.inTag, Bool.false_eq_true] at ht <;>
    simp only [htmlParserSwitch] at hs <;> split_ifs at hs <;> subst hs <;>
    constructor <;> simp_all [Control.inTag, Control.inName]

/-- A tag name goes on, or ends with the tag or before its attributes. -/
theorem Control.Ok.of_tagName {s : Control} (h : s.Ok) (ht : s.parserState = .tagName)
    (c : UInt8) :
    (htmlParserControl s c).parserState = .tagName ∨ (htmlParserControl s c).BehindName := by
  rw [htmlParserControl_of_ne (by simp [ht])]
  suffices hsw : (htmlParserSwitch s c).parserState = .tagName ∨
      (htmlParserSwitch s c).BehindName by
    rw [htmlParserScript_parserState]
    exact hsw.imp_right fun hb => hb.script c
  obtain ⟨hinner, -, hname, -, -⟩ := h
  obtain ⟨state, part, len⟩ := s
  subst ht
  generalize hs : htmlParserSwitch _ c = s'
  simp only [htmlParserSwitch] at hs
  split_ifs at hs
  all_goals subst hs
  · right
    constructor <;> simp_all [Control.inTag, Control.inName]
  · right
    constructor <;> simp_all [Control.inTag, Control.inName]
  · left
    rfl

/-- No tag ends right behind another. -/
theorem Control.Ok.not_tagEnd_twice {s : Control} (h : s.Ok) (he : s.htmlPart.tagEnd)
    (c : UInt8) : (htmlParserControl s c).htmlPart.tagEnd = false := by
  have hstate := h.tagEnd he
  have hinner : s.htmlPart.innerText = false := by
    by_contra hin
    simp [(h.inner (by simpa using hin)).2.1] at he
  rw [htmlParserControl, htmlParserScript_htmlPart, htmlParserEnterScript]
  split_ifs
  · simp only [htmlParserSwitch]
    split_ifs <;> rfl
  · simp only [htmlParserSwitch, hstate, hinner]
    split_ifs <;> simp_all

/-- How a state comes about: a text that does not begin goes on; a tag name goes
on or begins, and begins only right behind the `<`; the name of a script's
closing tag starts with its slash; only a byte inside a value ends one. -/
structure Control.Follows (s : Control) (c : UInt8) (s' : Control) : Prop where
  text : s'.htmlPart.innerText → s'.htmlPart.innerTextBeginning = false → s.htmlPart.innerText
  name : s'.parserState = .tagName → s.parserState = .tagName ∨ s'.htmlPart.nameBeginning
  nameBeginning : s.Ok → s'.htmlPart.nameBeginning → s.parserState = .tagBeginning
  scriptSlash : s'.parserState = .scriptSlash → c = '/'.toUInt8
  scriptName : s'.parserState = .scriptName →
    s.parserState = .scriptSlash ∨ s.parserState = .scriptName
  valueEnded : s.Ok → s'.htmlPart.valueEnded → s.inValue

theorem Control.follows_switch (s : Control) (c : UInt8) :
    s.Follows c (htmlParserSwitch s c) := by
  suffices h : ∀ s', htmlParserSwitch s c = s' → s.Follows c s' from h _ rfl
  intro s' hs
  obtain ⟨state, part, len⟩ := s
  cases state <;> simp only [htmlParserSwitch] at hs <;> split_ifs at hs <;> subst hs <;>
    constructor
  -- Where a flag is left as it was, `Ok` says what it meant before.
  all_goals first
    | simp_all [Control.inValue]; done
    | rintro ⟨hinner, -, -, hbeginning, hvalueEnded⟩; simp_all [Control.inValue]

/-- The script matcher looks at neither the state nor the flags. -/
theorem Control.Follows.script {s s' : Control} {c : UInt8} (h : s.Follows c s') :
    s.Follows c (htmlParserScript s' c) := by
  constructor <;> simp only [htmlParserScript_parserState, htmlParserScript_htmlPart]
  · exact h.text
  · exact h.name
  · exact h.nameBeginning
  · exact h.scriptSlash
  · exact h.scriptName
  · exact h.valueEnded

theorem Control.follows (s : Control) (c : UInt8) : s.Follows c (htmlParserControl s c) := by
  have h : (htmlParserEnterScript s).Follows c (htmlParserControl s c) :=
    ((htmlParserEnterScript s).follows_switch c).script
  rcases htmlParserEnterScript_cases s with heq | ⟨hstate, hpart⟩
  · rwa [heq] at h
  · -- A script has just been entered: it is neither a text nor a name nor a value.
    constructor
    · intro hin hb
      simpa [hpart] using h.text hin hb
    · intro hname
      exact .inr ((h.name hname).resolve_left (by simp [hstate]))
    · intro hok hb
      simpa [hstate] using h.nameBeginning hok.enterScript hb
    · exact h.scriptSlash
    · intro hname
      simpa [hstate] using h.scriptName hname
    · intro hok he
      simpa [Control.inValue, hstate] using h.valueEnded hok.enterScript he

/-! ### Reachable parsers -/

/-- The control is in order, and a name read inside a script starts with the
slash of the closing tag. -/
structure HtmlStreamParser.Ok (p : HtmlStreamParser) : Prop where
  control : p.toControl.Ok
  room : 0 < p.tagName.maxLen
  slash : p.parserState = .scriptSlash ∨ p.parserState = .scriptName →
    0 < p.tagName.len ∧ p.tagName.data 0 = '/'.toUInt8

theorem charParse_tagName_maxLen (p : HtmlStreamParser) (c : UInt8) :
    (htmlParserCharParse p c).tagName.maxLen = p.tagName.maxLen := by
  simp only [charParse_tagName]
  split_ifs <;> simp

theorem TextBuf.put_first {b : TextBuf} (h : 0 < b.len) (c : UInt8) :
    0 < (b.put c).len ∧ (b.put c).data 0 = b.data 0 := by
  simp only [TextBuf.put]
  split
  · exact ⟨Nat.succ_pos _, Function.update_of_ne (by omega) _ _⟩
  · exact ⟨h, rfl⟩

theorem TextBuf.clear_put {b : TextBuf} (h : 0 < b.maxLen) (c : UInt8) :
    (b.clear.put c).len = 1 ∧ (b.clear.put c).data 0 = c := by
  simp [TextBuf.put, TextBuf.clear, h]

theorem HtmlStreamParser.Ok.charParse {p : HtmlStreamParser} (h : p.Ok) (c : UInt8) :
    (htmlParserCharParse p c).Ok := by
  have hctl := h.control.control c
  refine ⟨by simpa using hctl, ?_, fun hs => ?_⟩
  · rw [charParse_tagName_maxLen]
    exact h.room
  · have hinner : (htmlParserControl p.toControl c).htmlPart.innerText = false := by
      by_contra hin
      have := (hctl.inner (by simpa using hin)).1
      simp [this] at hs
    rw [charParse_toControl] at hs
    rcases hs with hs | hs
    · have hname : (htmlParserControl p.toControl c).inName := by simp [Control.inName, hs]
      have hstart : (htmlParserControl p.toControl c).startsName := by
        simp [Control.startsName, hs]
      have hc : (if p.tagNameToLower then tolower c else c) = '/'.toUInt8 := by
        rw [(p.toControl.follows c).scriptSlash hs]
        cases p.tagNameToLower <;> decide
      have hput := TextBuf.clear_put h.room '/'.toUInt8
      have htag : (htmlParserCharParse p c).tagName = p.tagName.clear.put '/'.toUInt8 := by
        simp [charParse_tagName, hinner, hname, hstart, TextBuf.clearIf, hc]
      rw [htag]
      exact ⟨by omega, hput.2⟩
    · have hname : (htmlParserControl p.toControl c).inName := by simp [Control.inName, hs]
      have hstart : (htmlParserControl p.toControl c).startsName = false := by
        have hb : (htmlParserControl p.toControl c).htmlPart.nameBeginning = false := by
          by_contra hb
          have := hctl.nameBeginning (by simpa using hb)
          simp [hs] at this
        simp [Control.startsName, hb, hs]
      obtain ⟨hlen, hdata⟩ := h.slash ((p.toControl.follows c).scriptName hs)
      have htag : (htmlParserCharParse p c).tagName =
          p.tagName.put (if p.tagNameToLower then tolower c else c) := by
        simp [charParse_tagName, hinner, hname, hstart, TextBuf.clearIf]
      rw [htag]
      have hput := TextBuf.put_first hlen (if p.tagNameToLower then tolower c else c)
      exact ⟨hput.1, hput.2.trans hdata⟩

end HtmlBenchmark.StreamParser
