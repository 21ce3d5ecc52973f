import HtmlBenchmark.StreamParser.Values

/-!
The texts of a page, told apart without the parser.

A `LastRead` follows a page by what its bytes are for: it knows where in the
markup it stands and the text, the name and the attribute read last, and it has
neither states nor flags. `Sees` relates it to the parser without buffers, byte
by byte.

The two part at an attribute with several values. The parser empties the buffer
of a value at the first byte of one without quotes or in double quotes, so a value
in single quotes, or one without bytes, stays behind those before it; `held` is
what then stands in the buffer.
-/

namespace HtmlBenchmark.StreamParser

/-! ### Following a page -/

/-- Where a page stands between two of its bytes. -/
inductive Spot
  | between | text | opening | name | space | attr | equals
  | quoted (q : Quote) | bare | comment
  | script | scriptOpening | scriptName
  deriving DecidableEq

/-- A value, and the quotes it is in. -/
structure ReadValue where
  quote : Option Quote
  text : List UInt8 := []
  deriving DecidableEq

/-- What has been read last; of the attribute all values, the latest first. -/
structure LastRead where
  spot : Spot := .between
  innerText : List UInt8 := []
  tagName : List UInt8 := []
  attrName : List UInt8 := []
  values : List ReadValue := []

namespace LastRead

def startName (s : LastRead) (spot : Spot) (c : UInt8) : LastRead :=
  { s with spot, tagName := [c], attrName := [], values := [] }

/-- Behind a tag; a script goes on until its closing tag. -/
def endTag (s : LastRead) : LastRead :=
  { s with spot := if IsScript s.tagName then .script else .between }

def extendValue (s : LastRead) (c : UInt8) : LastRead :=
  { s with values := s.values.modifyHead fun v => { v with text := v.text ++ [c] } }

def next (s : LastRead) (c : UInt8) : LastRead :=
  match s.spot with
  | .between =>
      if c = '<'.toUInt8 then { s with spot := .opening }
      else { s with spot := .text, innerText := [c] }
  | .text =>
      if c = '<'.toUInt8 then { s with spot := .opening }
      else { s with innerText := s.innerText ++ [c] }
  | .opening =>
      if c = '/'.toUInt8 ∨ isalpha c then s.startName .name c
      else if c = '!'.toUInt8 then { s with spot := .comment }
      else if c = '>'.toUInt8 then { s with spot := .between }
      else if c = '<'.toUInt8 then s
      else { s with spot := .text, innerText := [c] }
  | .name =>
      if c = '>'.toUInt8 then s.endTag
      else if ishtmlspace c then { s with spot := .space }
      else { s with tagName := s.tagName ++ [c] }
  | .space =>
      if c = '>'.toUInt8 then s.endTag
      else if ishtmlspace c then s
      else if c = '='.toUInt8 then { s with spot := .equals }
      else { s with spot := .attr, attrName := [c], values := [] }
  | .attr =>
      if c = '>'.toUInt8 then s.endTag
      else if ishtmlspace c then { s with spot := .space }
      else if c = '='.toUInt8 then { s with spot := .equals }
      else { s with attrName := s.attrName ++ [c] }
  | .equals =>
      if c = '>'.toUInt8 then s.endTag
      else if ishtmlspace c then s
      else if c = '"'.toUInt8 then
        { s with spot := .quoted .double, values := { quote := some .double } :: s.values }
      else if c = '\''.toUInt8 then
        { s with spot := .quoted .single, values := { quote := some .single } :: s.values }
      else { s with spot := .bare, values := { quote := none, text := [c] } :: s.values }
  | .quoted q => if c = q.byte then { s with spot := .space } else s.extendValue c
  | .bare =>
      if c = '>'.toUInt8 then s.endTag
      else if ishtmlspace c then { s with spot := .space }
      else s.extendValue c
  | .comment => if c = '>'.toUInt8 then { s with spot := .between } else s
  | .script => if c = '<'.toUInt8 then { s with spot := .scriptOpening } else s
  | .scriptOpening =>
      if c = '<'.toUInt8 then s
      else if c = '/'.toUInt8 then s.startName .scriptName c
      else { s with spot := .script }
  | .scriptName =>
      if c = '<'.toUInt8 then { s with spot := .scriptOpening }
      else if c = '>'.toUInt8 ∧ s.tagName.map tolower = bytes "/script" then
        { s with spot := .between }
      else if ishtmlspace c ∧ s.tagName.map tolower = bytes "/script" then
        { s with spot := .space }
      else { s with tagName := s.tagName ++ [c] }

end LastRead

/-- What stands in the buffer of the values of an attribute. -/
def held : List ReadValue → List UInt8
  | [] => []
  | v :: vs => if v.quote = some .single ∨ v.text = [] then held vs ++ v.text else v.text

/-- The text of a kind last read, for the values what is held of them. -/
def LastRead.text (s : LastRead) : Buffer → List UInt8
  | .innerText => s.innerText
  | .tagName => s.tagName
  | .attrName => s.attrName
  | .attrValue => held s.values

/-! ### The parser at a spot -/

/-- The state of the parser at a spot, with what it remembers of the name. -/
def LastRead.Stands (s : LastRead) (k : Control) : Prop :=
  match s.spot with
  | .between =>
      k.parserState = .innerText ∧ k.htmlPart.innerText = false ∧ k.scriptEqualityLen ≠ 6
  | .text => k.parserState = .innerText ∧ k.htmlPart.innerText ∧ k.scriptEqualityLen ≠ 6
  | .opening => k.parserState = .tagBeginning
  | .name => k.parserState = .tagName ∧ k.scriptEqualityLen = matched s.tagName
  | .space => k.parserState = .tagSpace ∧ (k.scriptEqualityLen = 6 ↔ IsScript s.tagName)
  | .attr => k.parserState = .attributeName ∧ (k.scriptEqualityLen = 6 ↔ IsScript s.tagName)
  | .equals => k.parserState = .beforeValue ∧ (k.scriptEqualityLen = 6 ↔ IsScript s.tagName)
  | .quoted q =>
      k.parserState = q.state ∧ (k.scriptEqualityLen = 6 ↔ IsScript s.tagName) ∧
        ∃ t vs, s.values = { quote := some q, text := t } :: vs ∧
          (q = .double → (k.htmlPart.value ↔ t ≠ []))
  | .bare =>
      k.parserState = .valueUnquoted ∧ (k.scriptEqualityLen = 6 ↔ IsScript s.tagName) ∧
        k.htmlPart.value ∧ ∃ t vs, s.values = { quote := none, text := t } :: vs ∧ t ≠ []
  | .comment => k.parserState = .comment ∧ k.scriptEqualityLen ≠ 6
  | .script => (htmlParserEnterScript k).parserState = .script ∧ k.htmlPart.innerText = false
  | .scriptOpening => k.parserState = .scriptLess
  | .scriptName => ∃ u, s.tagName = '/'.toUInt8 :: u ∧ k.scriptEqualityLen = matched u ∧
      k.parserState = if u = [] then .scriptSlash else .scriptName

theorem Control.Routed.not_innerText_of_tagEnd {k : Control} (h : k.Routed)
    (hend : k.htmlPart.tagEnd) : k.htmlPart.innerText = false := by
  by_contra hin
  rw [(h.inner (by simpa using hin)).2.1] at hend
  cases hend

/-- The parser stands where the page does, and has read the same. -/
structure Sees (s : LastRead) (rd : Reading) : Prop where
  routed : rd.Routed
  stands : s.Stands rd.toControl
  text : rd.text = s.text

theorem sees_initial : Sees {} {} where
  routed := Control.routed_initial
  stands := ⟨rfl, rfl, by decide⟩
  text := by
    funext r
    cases r <;> rfl

namespace Sees

variable {s s' : LastRead} {rd : Reading} {c : UInt8}

/-- A byte that belongs to no text. -/
theorem keep (h : Sees s rd)
    (hend : (rd.next c).htmlPart.tagEnd ∨ (rd.next c).parserState.readsTo = none)
    (hstands : s'.Stands (rd.next c).toControl) (htext : s'.text = s.text) :
    Sees s' (rd.next c) where
  routed := h.routed.control c
  stands := hstands
  text := by rw [Reading.text_of_ended (h.routed.control c) hend, h.text, htext]

theorem put (h : Sees s rd) {r : Buffer} (hreads : (rd.next c).reads r)
    (hstands : s'.Stands (rd.next c).toControl)
    (htext : ∀ r', s'.text r' =
      (if (rd.next c).begins r' then [] else s.text r') ++ if r = r' then [c] else []) :
    Sees s' (rd.next c) where
  routed := h.routed.control c
  stands := hstands
  text := by
    funext r'
    rw [Reading.text_of_reads (h.routed.control c) hreads, h.text, htext]

/-- The control one byte later, where no name is read. -/
theorem next_control {k : Control}
    (hlen : rd.parserState = .innerText → rd.scriptEqualityLen ≠ 6)
    (hswitch : htmlParserSwitch rd.toControl c = k) (hname : k.parserState ≠ .tagName)
    (hscript : k.parserState ≠ .scriptName) : (rd.next c).toControl = k := by
  have henter : htmlParserEnterScript rd.toControl = rd.toControl :=
    if_neg fun h => hlen h.1 h.2
  rw [Reading.next_toControl, htmlParserControl, henter, hswitch,
    htmlParserScript_of_ne hname hscript]

theorem next_text (h : Sees s rd) (hstands : s'.Stands (rd.next c).toControl)
    (hin : (rd.next c).htmlPart.innerText)
    (hinner : s'.innerText =
      (if (rd.next c).htmlPart.innerTextBeginning then [] else s.innerText) ++ [c])
    (htag : s'.tagName = s.tagName) (hattr : s'.attrName = s.attrName)
    (hvalues : s'.values = s.values) : Sees s' (rd.next c) := by
  have hrouted : (rd.next c).Routed := h.routed.control c
  have hreads : (rd.next c).reads .innerText := hin
  refine h.put hreads hstands fun r' => ?_
  rw [Control.begins, hrouted.goesTo_eq hreads]
  cases r' <;> simp [LastRead.text, hinner, htag, hattr, hvalues]

theorem next_name (h : Sees s rd) (fresh : Bool) (hstands : s'.Stands (rd.next c).toControl)
    (hin : (rd.next c).inName) (hfresh : (rd.next c).startsName = fresh)
    (hinner : s'.innerText = s.innerText)
    (htag : s'.tagName = (if fresh then [] else s.tagName) ++ [c])
    (hattr : s'.attrName = if fresh then [] else s.attrName)
    (hvalues : s'.values = if fresh then [] else s.values) : Sees s' (rd.next c) := by
  have hrouted : (rd.next c).Routed := h.routed.control c
  have hreads : (rd.next c).reads .tagName := hin
  refine h.put hreads hstands fun r' => ?_
  rw [Control.begins, hrouted.goesTo_eq hreads, hfresh]
  cases r' <;> cases fresh <;> simp [LastRead.text, hinner, htag, hattr, hvalues, held]

theorem next_attr (h : Sees s rd) (fresh : Bool) (hstands : s'.Stands (rd.next c).toControl)
    (hin : (rd.next c).htmlPart.attr)
    (hfresh : (rd.next c).htmlPart.attrBeginning = fresh)
    (hinner : s'.innerText = s.innerText) (htag : s'.tagName = s.tagName)
    (hattr : s'.attrName = (if fresh then [] else s.attrName) ++ [c])
    (hvalues : s'.values = if fresh then [] else s.values) : Sees s' (rd.next c) := by
  have hrouted : (rd.next c).Routed := h.routed.control c
  have hreads : (rd.next c).reads .attrName := hin
  refine h.put hreads hstands fun r' => ?_
  rw [Control.begins, hrouted.goesTo_eq hreads, hfresh]
  cases r' <;> cases fresh <;> simp [LastRead.text, hinner, htag, hattr, hvalues, held]

theorem next_value (h : Sees s rd) (fresh : Bool) (hstands : s'.Stands (rd.next c).toControl)
    (hin : (rd.next c).htmlPart.value)
    (hfresh : (rd.next c).htmlPart.valueBeginning = fresh)
    (hinner : s'.innerText = s.innerText) (htag : s'.tagName = s.tagName)
    (hattr : s'.attrName = s.attrName)
    (hvalues : held s'.values = (if fresh then [] else held s.values) ++ [c]) :
    Sees s' (rd.next c) := by
  have hrouted : (rd.next c).Routed := h.routed.control c
  have hreads : (rd.next c).reads .attrValue := hin
  refine h.put hreads hstands fun r' => ?_
  rw [Control.begins, hrouted.goesTo_eq hreads, hfresh]
  cases r' <;> cases fresh <;> simp [LastRead.text, hinner, htag, hattr, hvalues]

/-- Behind markup that is no tag of a script. -/
theorem next_end (h : Sees s rd) (hstate : (rd.next c).parserState = .innerText)
    (hend : (rd.next c).htmlPart.tagEnd) (hlen : (rd.next c).scriptEqualityLen ≠ 6) :
    Sees { s with spot := .between } (rd.next c) :=
  have hrouted : (rd.next c).Routed := h.routed.control c
  h.keep (.inl hend) ⟨hstate, hrouted.not_innerText_of_tagEnd hend, hlen⟩ rfl

theorem next_endTag (h : Sees s rd) (hstate : (rd.next c).parserState = .innerText)
    (hend : (rd.next c).htmlPart.tagEnd)
    (hscript : (rd.next c).scriptEqualityLen = 6 ↔ IsScript s.tagName) :
    Sees s.endTag (rd.next c) := by
  have hrouted : (rd.next c).Routed := h.routed.control c
  have hin := hrouted.not_innerText_of_tagEnd hend
  refine h.keep (.inl hend) ?_ (by rw [LastRead.endTag]; split_ifs <;> rfl)
  rw [LastRead.endTag]
  by_cases hname : IsScript s.tagName
  · rw [if_pos hname]
    exact ⟨by rw [htmlParserEnterScript, if_pos ⟨hstate, hscript.mpr hname⟩], hin⟩
  · rw [if_neg hname]
    exact ⟨hstate, hin, fun hlen => hname (hscript.mp hlen)⟩

/-! ### The spots outside a tag -/

theorem between (h : Sees s rd) (hspot : s.spot = .between) (c : UInt8) :
    Sees (s.next c) (rd.next c) := by
  obtain ⟨hstate, hin, hlen⟩ : rd.parserState = .innerText ∧ rd.htmlPart.innerText = false ∧
      rd.scriptEqualityLen ≠ 6 := by simpa [LastRead.Stands, hspot] using h.stands
  simp only [LastRead.next, hspot]
  split_ifs with hless
  · have hnext := next_control (c := c) (fun _ => hlen) (k := { rd.toControl with
        parserState := .tagBeginning, htmlPart := { tag := true, tagBeginning := true } })
      (by simp [htmlParserSwitch, hstate, hless]) (by simp) (by simp)
    exact h.keep (.inr (by rw [hnext]; rfl)) (by rw [hnext]; rfl) rfl
  · have hnext := next_control (c := c) (fun _ => hlen) (k := { rd.toControl with
        htmlPart := { innerText := true, innerTextBeginning := true } })
      (by simp [htmlParserSwitch, hstate, hless, hin]) (by simp [hstate]) (by simp [hstate])
    exact h.next_text (by rw [hnext]; exact ⟨hstate, rfl, hlen⟩) (by rw [hnext])
      (by rw [hnext]; rfl) rfl rfl rfl

theorem text_spot (h : Sees s rd) (hspot : s.spot = .text) (c : UInt8) :
    Sees (s.next c) (rd.next c) := by
  obtain ⟨hstate, hin, hlen⟩ : rd.parserState = .innerText ∧ rd.htmlPart.innerText = true ∧
      rd.scriptEqualityLen ≠ 6 := by simpa [LastRead.Stands, hspot] using h.stands
  simp only [LastRead.next, hspot]
  split_ifs with hless
  · have hnext := next_control (c := c) (fun _ => hlen) (k := { rd.toControl with
        parserState := .tagBeginning, htmlPart := { tag := true, tagBeginning := true } })
      (by simp [htmlParserSwitch, hstate, hless]) (by simp) (by simp)
    exact h.keep (.inr (by rw [hnext]; rfl)) (by rw [hnext]; rfl) rfl
  · have hnext := next_control (c := c) (fun _ => hlen) (k := { rd.toControl with
        htmlPart := { rd.htmlPart with innerTextBeginning := false } })
      (by simp [htmlParserSwitch, hstate, hless, hin]) (by simp [hstate]) (by simp [hstate])
    exact h.next_text (by rw [hnext]; exact ⟨hstate, hin, hlen⟩)
      (by rw [hnext]; exact hin) (by rw [hnext]; rfl) rfl rfl rfl

/-- The control one byte later, where a name may be read. -/
theorem next_control_name (hstate : rd.parserState ≠ .innerText) (c : UInt8) :
    (rd.next c).toControl = htmlParserScript (htmlParserSwitch rd.toControl c) c := by
  rw [Reading.next_toControl, htmlParserControl_of_ne hstate]

theorem opening (h : Sees s rd) (hspot : s.spot = .opening) (c : UInt8) :
    Sees (s.next c) (rd.next c) := by
  have hstate : rd.parserState = .tagBeginning := by simpa [LastRead.Stands, hspot] using h.stands
  have hne : rd.parserState = .innerText → rd.scriptEqualityLen ≠ 6 := by simp [hstate]
  simp only [LastRead.next, hspot]
  split_ifs with hname hbang hgt hless
  · obtain ⟨htag, hlen, hin, hbegin⟩ :
        (htmlParserSwitch rd.toControl c).parserState = .tagName ∧
          (htmlParserSwitch rd.toControl c).scriptEqualityLen = 0 ∧
          (htmlParserSwitch rd.toControl c).htmlPart.name ∧
          (htmlParserSwitch rd.toControl c).htmlPart.nameBeginning := by
      by_cases hslash : c = '/'.toUInt8
      · simp [htmlParserSwitch, hstate, hslash]
      · have halpha := hname.resolve_left hslash
        have hbang : c ≠ '!'.toUInt8 := by rintro rfl; cases halpha
        have hgt : c ≠ '>'.toUInt8 := by rintro rfl; cases halpha
        simp [htmlParserSwitch, hstate, hslash, hbang, hgt, halpha]
    have hnext : (rd.next c).toControl = _ := next_control_name (by simp [hstate]) c
    have hmatched := htmlParserScript_len (u := []) (.inl htag) hlen c
    exact h.next_name true
      ⟨by rw [hnext, htmlParserScript_parserState, htag], by rw [hnext, hmatched]; rfl⟩
      (by simp [hnext, Control.inName, hin])
      (by simp [hnext, Control.startsName, hbegin]) rfl rfl rfl rfl
  · obtain ⟨hslash, halpha⟩ := not_or.mp hname
    have hnext := next_control (c := c) hne (k := { rd.toControl with
        parserState := .comment, scriptEqualityLen := 0
        htmlPart := { rd.htmlPart with tagBeginning := false, comment := true } })
      (by simp only [htmlParserSwitch, hstate, if_neg hslash, if_pos hbang]) (by simp) (by simp)
    exact h.keep (.inr (by rw [hnext]; rfl)) (by rw [hnext]; simp [LastRead.Stands]) rfl
  · obtain ⟨hslash, halpha⟩ := not_or.mp hname
    have hnext := next_control (c := c) hne (k := { rd.toControl with
        parserState := .innerText, scriptEqualityLen := 0
        htmlPart := { rd.htmlPart with tagBeginning := false, tagEnd := true } })
      (by simp only [htmlParserSwitch, hstate, if_neg hslash, if_neg hbang, if_pos hgt])
      (by simp) (by simp)
    exact h.next_end (by rw [hnext]) (by rw [hnext]) (by simp [hnext])
  · obtain ⟨hslash, halpha⟩ := not_or.mp hname
    have hnext := next_control (c := c) hne (k := { rd.toControl with
        scriptEqualityLen := 0, htmlPart := { rd.htmlPart with tagBeginning := false } })
      (by simp only [htmlParserSwitch, hstate, if_neg hslash, if_neg hbang, if_neg hgt,
        if_neg halpha, if_neg (not_not_intro hless)]) (by simp [hstate]) (by simp [hstate])
    exact h.keep (.inr (by rw [hnext]; simp [hstate, ParserState.readsTo]))
      (by rw [hnext]; simpa [LastRead.Stands, hspot] using hstate) rfl
  · obtain ⟨hslash, halpha⟩ := not_or.mp hname
    have hnext := next_control (c := c) hne (k := { rd.toControl with
        parserState := .innerText, scriptEqualityLen := 0
        htmlPart := { innerText := true, innerTextBeginning := true } })
      (by simp only [htmlParserSwitch, hstate, if_neg hslash, if_neg hbang, if_neg hgt,
        if_neg halpha, ne_eq, hless, not_false_eq_true, if_true]) (by simp) (by simp)
    exact h.next_text (by rw [hnext]; simp [LastRead.Stands]) (by rw [hnext])
      (by rw [hnext]; rfl) rfl rfl rfl

theorem comment (h : Sees s rd) (hspot : s.spot = .comment) (c : UInt8) :
    Sees (s.next c) (rd.next c) := by
  obtain ⟨hstate, hlen⟩ : rd.parserState = .comment ∧ rd.scriptEqualityLen ≠ 6 := by
    simpa [LastRead.Stands, hspot] using h.stands
  simp only [LastRead.next, hspot]
  split_ifs with hgt
  · have hnext := next_control (c := c) (fun _ => hlen) (k := { rd.toControl with
        parserState := .innerText, htmlPart := { rd.htmlPart with tagEnd := true } })
      (by simp [htmlParserSwitch, hstate, hgt]) (by simp) (by simp)
    exact h.next_end (by rw [hnext]) (by rw [hnext]) (by rw [hnext]; exact hlen)
  · have hnext := next_control (c := c) (fun _ => hlen) (k := rd.toControl)
      (by simp [htmlParserSwitch, hstate, hgt]) (by simp [hstate]) (by simp [hstate])
    exact h.keep (.inr (by rw [hnext, hstate]; rfl)) (by rw [hnext]; exact h.stands) rfl

/-! ### The spots inside a tag -/

/-- What the name of the tag is known by. -/
abbrev KnowsScript (s : LastRead) (rd : Reading) : Prop :=
  rd.scriptEqualityLen = 6 ↔ IsScript s.tagName

/-- Inside a tag the state alone moves with a byte that goes on no name. -/
theorem next_inTag (hin : rd.parserState = .tagName ∨ rd.inTag)
    (hstate : (htmlParserSwitch rd.toControl c).parserState ≠ .tagName) :
    (rd.next c).toControl = htmlParserSwitch rd.toControl c ∧
      (rd.next c).scriptEqualityLen = rd.scriptEqualityLen := by
  obtain ⟨-, -, hlen, hscript⟩ := htmlParserSwitch_inTag hin c
  have hne : rd.parserState ≠ .innerText := by
    rcases hin with hs | hs
    · simp [hs]
    · intro he
      simp [Control.inTag, he] at hs
  have hnext : (rd.next c).toControl = htmlParserSwitch rd.toControl c := by
    rw [next_control_name hne, htmlParserScript_of_ne hstate hscript]
  exact ⟨hnext, by rw [hnext, hlen]⟩

/-- The end of a tag, behind its name, an attribute, an equals sign or a value. -/
theorem next_gt (h : Sees s rd) (hscript : KnowsScript s rd)
    (hstate : rd.parserState ∈ [.tagName, .tagSpace, .attributeName, .beforeValue,
      .valueUnquoted]) : Sees s.endTag (rd.next '>'.toUInt8) := by
  have hswitch : (htmlParserSwitch rd.toControl '>'.toUInt8).parserState = .innerText ∧
      (htmlParserSwitch rd.toControl '>'.toUInt8).htmlPart.tagEnd := by
    have hblank : ishtmlspace '>'.toUInt8 = false := by decide
    simp only [List.mem_cons, List.not_mem_nil, or_false] at hstate
    rcases hstate with hs | hs | hs | hs | hs <;> simp [htmlParserSwitch, hs, hblank]
  have hin : rd.parserState = .tagName ∨ rd.inTag := by
    simp only [List.mem_cons, List.not_mem_nil, or_false] at hstate
    rcases hstate with hs | hs | hs | hs | hs <;> simp [Control.inTag, hs]
  obtain ⟨hnext, hlen⟩ := next_inTag (c := '>'.toUInt8) hin (by simp [hswitch.1])
  exact h.next_endTag (by rw [hnext, hswitch.1]) (by rw [hnext, hswitch.2]) (by rwa [hlen])

/-- A blank behind a name or a value without quotes. -/
theorem next_blank (h : Sees s rd) (hscript : KnowsScript s rd)
    (hstate : rd.parserState ∈ [.tagName, .tagSpace, .attributeName, .valueUnquoted])
    (hc : ishtmlspace c) : Sees { s with spot := .space } (rd.next c) := by
  have hgt : c ≠ '>'.toUInt8 := by rintro rfl; cases hc
  have heq : c ≠ '='.toUInt8 := by rintro rfl; cases hc
  have hswitch : (htmlParserSwitch rd.toControl c).parserState = .tagSpace := by
    simp only [List.mem_cons, List.not_mem_nil, or_false] at hstate
    rcases hstate with hs | hs | hs | hs <;> simp [htmlParserSwitch, hs, hc, hgt, heq]
  have hin : rd.parserState = .tagName ∨ rd.inTag := by
    simp only [List.mem_cons, List.not_mem_nil, or_false] at hstate
    rcases hstate with hs | hs | hs | hs <;> simp [Control.inTag, hs]
  obtain ⟨hnext, hlen⟩ := next_inTag (c := c) hin (by simp [hswitch])
  have hspace : (rd.next c).parserState = .tagSpace := by rw [hnext, hswitch]
  refine h.keep (.inr (by rw [hspace]; rfl)) ⟨hspace, ?_⟩ rfl
  rwa [hlen]

theorem name (h : Sees s rd) (hspot : s.spot = .name) (c : UInt8) :
    Sees (s.next c) (rd.next c) := by
  obtain ⟨hstate, hlen⟩ :
      rd.parserState = .tagName ∧ rd.scriptEqualityLen = matched s.tagName := by
    simpa [LastRead.Stands, hspot] using h.stands
  have hscript : KnowsScript s rd := by
    rw [KnowsScript, hlen]
    exact matched_eq_six_iff _
  simp only [LastRead.next, hspot]
  split_ifs with hgt hblank
  · subst hgt
    exact h.next_gt hscript (by simp [hstate])
  · exact h.next_blank hscript (by simp [hstate]) hblank
  · have hswitch : htmlParserSwitch rd.toControl c = { rd.toControl with
        htmlPart := { rd.htmlPart with nameBeginning := false, slash := false } } := by
      simp [htmlParserSwitch, hstate, hgt, hblank]
    have hnext : (rd.next c).toControl = _ := next_control_name (by simp [hstate]) c
    have hmatched := htmlParserScript_len (s := htmlParserSwitch rd.toControl c)
      (.inl (by rw [hswitch]; exact hstate)) (by rw [hswitch, hlen]) c
    exact h.next_name false
      ⟨by rw [hnext, htmlParserScript_parserState, hswitch, hstate], by rw [hnext, hmatched]⟩
      (by simp [hnext, hswitch, Control.inName, h.routed.name.mpr hstate])
      (by simp [hnext, hswitch, Control.startsName, hstate]) rfl rfl rfl rfl

theorem space (h : Sees s rd) (hspot : s.spot = .space) (c : UInt8) :
    Sees (s.next c) (rd.next c) := by
  obtain ⟨hstate, hscript⟩ : rd.parserState = .tagSpace ∧ KnowsScript s rd := by
    simpa [LastRead.Stands, hspot] using h.stands
  have hin : rd.parserState = .tagName ∨ rd.inTag := by simp [Control.inTag, hstate]
  simp only [LastRead.next, hspot]
  split_ifs with hgt hblank hequals
  · subst hgt
    exact h.next_gt hscript (by simp [hstate])
  · have hsame : { s with spot := .space } = s := by rw [← hspot]
    exact hsame ▸ h.next_blank hscript (by simp [hstate]) hblank
  · have hswitch : (htmlParserSwitch rd.toControl c).parserState = .beforeValue := by
      simp only [htmlParserSwitch, hstate, Bool.eq_false_iff.mpr hblank, Bool.not_false, if_true,
        if_neg hgt, if_pos hequals]
    obtain ⟨hnext, hlen⟩ := next_inTag (c := c) hin (by simp [hswitch])
    have hvalue : (rd.next c).parserState = .beforeValue := by rw [hnext, hswitch]
    refine h.keep (.inr (by rw [hvalue]; rfl)) ⟨hvalue, ?_⟩ rfl
    rwa [hlen]
  · obtain ⟨hswitch, hattr, hbegin⟩ :
        (htmlParserSwitch rd.toControl c).parserState = .attributeName ∧
          (htmlParserSwitch rd.toControl c).htmlPart.attr ∧
          (htmlParserSwitch rd.toControl c).htmlPart.attrBeginning := by
      simp [htmlParserSwitch, hstate, hblank, hgt, hequals]
    obtain ⟨hnext, hlen⟩ := next_inTag (c := c) hin (by simp [hswitch])
    refine h.next_attr true ⟨by rw [hnext, hswitch], ?_⟩ (by rw [hnext, hattr])
      (by rw [hnext, hbegin]) rfl rfl rfl rfl
    rwa [hlen]

theorem attr (h : Sees s rd) (hspot : s.spot = .attr) (c : UInt8) :
    Sees (s.next c) (rd.next c) := by
  obtain ⟨hstate, hscript⟩ : rd.parserState = .attributeName ∧ KnowsScript s rd := by
    simpa [LastRead.Stands, hspot] using h.stands
  have hin : rd.parserState = .tagName ∨ rd.inTag := by simp [Control.inTag, hstate]
  simp only [LastRead.next, hspot]
  split_ifs with hgt hblank hequals
  · subst hgt
    exact h.next_gt hscript (by simp [hstate])
  · exact h.next_blank hscript (by simp [hstate]) hblank
  · have hswitch : (htmlParserSwitch rd.toControl c).parserState = .beforeValue := by
      simp only [htmlParserSwitch, hstate, if_neg hgt, if_pos hequals]
    obtain ⟨hnext, hlen⟩ := next_inTag (c := c) hin (by simp [hswitch])
    have hvalue : (rd.next c).parserState = .beforeValue := by rw [hnext, hswitch]
    refine h.keep (.inr (by rw [hvalue]; rfl)) ⟨hvalue, ?_⟩ rfl
    rwa [hlen]
  · obtain ⟨hswitch, hattr, hbegin⟩ :
        (htmlParserSwitch rd.toControl c).parserState = .attributeName ∧
          (htmlParserSwitch rd.toControl c).htmlPart.attr ∧
          (htmlParserSwitch rd.toControl c).htmlPart.attrBeginning = false := by
      simp [htmlParserSwitch, hstate, hblank, hgt, hequals, h.routed.attr.mpr hstate]
    obtain ⟨hnext, hlen⟩ := next_inTag (c := c) hin (by simp [hswitch])
    refine h.next_attr false ⟨by rw [hnext, hswitch], ?_⟩ (by rw [hnext, hattr])
      (by rw [hnext, hbegin]) rfl rfl rfl rfl
    rwa [hlen]

theorem quote_open (h : Sees s rd) (hstate : rd.parserState = .beforeValue)
    (hscript : KnowsScript s rd) (q : Quote) :
    Sees { s with spot := .quoted q, values := { quote := some q } :: s.values }
      (rd.next q.byte) := by
  have hin : rd.parserState = .tagName ∨ rd.inTag := by simp [Control.inTag, hstate]
  have hswitch := htmlParserSwitch_quote_open hstate q
  have hrouted : (rd.next q.byte).Routed := h.routed.control q.byte
  obtain ⟨hnext, hlen⟩ := next_inTag hin (by rw [hswitch]; cases q <;> simp [Quote.state])
  have hquote : (rd.next q.byte).parserState = q.state := by rw [hnext, hswitch]
  have hvalue : (rd.next q.byte).htmlPart.value = false := by
    obtain ⟨-, -, -, -, hvalue⟩ := h.routed.beforeValue hstate
    rw [hnext, hswitch, hvalue]
  refine ⟨hrouted, ⟨hquote, ?_, [], s.values, rfl, ?_⟩, ?_⟩
  · rwa [hlen]
  · simp [hvalue]
  · rw [Reading.text_quote_open hrouted hquote hvalue, h.text]
    funext r
    cases r <;> simp [LastRead.text, held]

theorem equals (h : Sees s rd) (hspot : s.spot = .equals) (c : UInt8) :
    Sees (s.next c) (rd.next c) := by
  obtain ⟨hstate, hscript⟩ : rd.parserState = .beforeValue ∧ KnowsScript s rd := by
    simpa [LastRead.Stands, hspot] using h.stands
  have hin : rd.parserState = .tagName ∨ rd.inTag := by simp [Control.inTag, hstate]
  simp only [LastRead.next, hspot]
  split_ifs with hgt hblank hdouble hsingle
  · subst hgt
    exact h.next_gt hscript (by simp [hstate])
  · have hswitch : (htmlParserSwitch rd.toControl c).parserState = .beforeValue := by
      simp [htmlParserSwitch, hstate, hblank]
    obtain ⟨hnext, hlen⟩ := next_inTag (c := c) hin (by simp [hswitch])
    have hvalue : (rd.next c).parserState = .beforeValue := by rw [hnext, hswitch]
    refine h.keep (.inr (by rw [hvalue]; rfl)) ?_ rfl
    simpa [LastRead.Stands, hspot, hvalue, hlen] using hscript
  · exact hdouble ▸ h.quote_open hstate hscript .double
  · exact hsingle ▸ h.quote_open hstate hscript .single
  · obtain ⟨hswitch, hvalue, hbegin⟩ :
        (htmlParserSwitch rd.toControl c).parserState = .valueUnquoted ∧
          (htmlParserSwitch rd.toControl c).htmlPart.value ∧
          (htmlParserSwitch rd.toControl c).htmlPart.valueBeginning := by
      simp [htmlParserSwitch, hstate, hblank, hgt, hdouble, hsingle]
    obtain ⟨hnext, hlen⟩ := next_inTag (c := c) hin (by simp [hswitch])
    have hstands : (rd.next c).parserState = .valueUnquoted := by rw [hnext, hswitch]
    have hvalue : (rd.next c).htmlPart.value := by rw [hnext, hvalue]
    refine h.next_value true ⟨hstands, ?_, hvalue, [c], s.values, rfl, by simp⟩ hvalue
      (by rw [hnext, hbegin]) rfl rfl rfl (by simp [held])
    rwa [hlen]

theorem quoted {q : Quote} (h : Sees s rd) (hspot : s.spot = .quoted q) (c : UInt8) :
    Sees (s.next c) (rd.next c) := by
  obtain ⟨hstate, hscript, t, vs, hvalues, hfresh⟩ : rd.parserState = q.state ∧
      KnowsScript s rd ∧ ∃ t vs, s.values = { quote := some q, text := t } :: vs ∧
        (q = .double → (rd.htmlPart.value ↔ t ≠ [])) := by
    simpa only [LastRead.Stands, hspot] using h.stands
  have hin : rd.parserState = .tagName ∨ rd.inTag := by
    cases q <;> simp [Control.inTag, hstate, Quote.state]
  simp only [LastRead.next, hspot]
  split_ifs with hclose
  · subst hclose
    have hswitch := htmlParserSwitch_quote_close hstate
    obtain ⟨hnext, hlen⟩ := next_inTag (c := q.byte) hin (by simp [hswitch])
    have hspace : (rd.next q.byte).parserState = .tagSpace := by rw [hnext, hswitch]
    refine h.keep (.inr (by rw [hspace]; rfl)) ⟨hspace, ?_⟩ rfl
    rwa [hlen]
  · have hswitch := htmlParserSwitch_quoted hstate hclose
    obtain ⟨hnext, hlen⟩ := next_inTag (c := c) hin (by
      rw [hswitch, hstate]
      cases q <;> simp [Quote.state])
    have hquote : (rd.next c).parserState = q.state := by rw [hnext, hswitch, hstate]
    have hvalue : (rd.next c).htmlPart.value := by rw [hnext, hswitch]
    refine h.next_value (q = .double && !rd.htmlPart.value) ?_ hvalue
      (by rw [hnext, hswitch]) rfl rfl rfl ?_
    · simp only [LastRead.Stands, LastRead.extendValue, hspot, hvalues]
      exact ⟨hquote, by rwa [hlen], t ++ [c], vs, rfl, fun _ => by simp [hvalue]⟩
    · rw [LastRead.extendValue, hvalues]
      cases q with
      | double =>
          -- the buffer is emptied at the first byte of the value
          have hfirst : rd.htmlPart.value = false ↔ t = [] := by
            simpa using not_congr (hfresh rfl)
          by_cases ht : t = [] <;> simp [held, hfirst, ht]
      | single => simp [held]

theorem bare (h : Sees s rd) (hspot : s.spot = .bare) (c : UInt8) :
    Sees (s.next c) (rd.next c) := by
  obtain ⟨hstate, hscript, hvalue, t, vs, hvalues, ht⟩ : rd.parserState = .valueUnquoted ∧
      KnowsScript s rd ∧ rd.htmlPart.value ∧
        ∃ t vs, s.values = { quote := none, text := t } :: vs ∧ t ≠ [] := by
    simpa only [LastRead.Stands, hspot] using h.stands
  have hin : rd.parserState = .tagName ∨ rd.inTag := by simp [Control.inTag, hstate]
  simp only [LastRead.next, hspot]
  split_ifs with hgt hblank
  · subst hgt
    exact h.next_gt hscript (by simp [hstate])
  · exact h.next_blank hscript (by simp [hstate]) hblank
  · obtain ⟨hswitch, hgoes, hbegin⟩ :
        (htmlParserSwitch rd.toControl c).parserState = .valueUnquoted ∧
          (htmlParserSwitch rd.toControl c).htmlPart.value ∧
          (htmlParserSwitch rd.toControl c).htmlPart.valueBeginning = false := by
      simp [htmlParserSwitch, hstate, hblank, hgt, hvalue]
    obtain ⟨hnext, hlen⟩ := next_inTag (c := c) hin (by simp [hswitch])
    have hextend : (s.extendValue c).values = { quote := none, text := t ++ [c] } :: vs := by
      simp [LastRead.extendValue, hvalues]
    refine h.next_value false ?_ (by rw [hnext, hgoes]) (by rw [hnext, hbegin])
      rfl rfl rfl (by simp [hextend, hvalues, held, ht])
    simp only [LastRead.Stands, LastRead.extendValue, hspot, hvalues]
    exact ⟨by rw [hnext, hswitch], by rwa [hlen], by rw [hnext, hgoes], t ++ [c], vs, rfl, by simp⟩

theorem script (h : Sees s rd) (hspot : s.spot = .script) (c : UInt8) :
    Sees (s.next c) (rd.next c) := by
  obtain ⟨henter, hin⟩ : (htmlParserEnterScript rd.toControl).parserState = .script ∧
      rd.htmlPart.innerText = false := by simpa [LastRead.Stands, hspot] using h.stands
  simp only [LastRead.next, hspot]
  split_ifs with hless
  · have hless : (rd.next c).parserState = .scriptLess := by
      simp [Reading.next_toControl, htmlParserControl, htmlParserSwitch, henter, hless]
    exact h.keep (.inr (by rw [hless]; rfl)) hless rfl
  · have hscript : (rd.next c).toControl = htmlParserEnterScript rd.toControl := by
      rw [Reading.next_toControl, htmlParserControl,
        htmlParserScript_of_ne (by simp [htmlParserSwitch, henter, hless])
          (by simp [htmlParserSwitch, henter, hless])]
      simp [htmlParserSwitch, henter, hless]
    have hstate : (rd.next c).parserState = .script := by rw [hscript, henter]
    have hrouted : (rd.next c).Routed := h.routed.control c
    refine h.keep (.inr (by rw [hstate]; rfl)) ?_ rfl
    simp only [LastRead.Stands, hspot]
    exact ⟨by rw [htmlParserEnterScript_of_ne (by simp [hstate]), hstate],
      hrouted.not_innerText (by simp [hstate])⟩

theorem scriptOpening (h : Sees s rd) (hspot : s.spot = .scriptOpening) (c : UInt8) :
    Sees (s.next c) (rd.next c) := by
  have hstate : rd.parserState = .scriptLess := by simpa [LastRead.Stands, hspot] using h.stands
  have hrouted : (rd.next c).Routed := h.routed.control c
  have hne : rd.parserState = .innerText → rd.scriptEqualityLen ≠ 6 := by simp [hstate]
  simp only [LastRead.next, hspot]
  split_ifs with hless hslash
  · have hnext := next_control (c := c) hne (k := rd.toControl)
      (by simp [htmlParserSwitch, hstate, hless]) (by simp [hstate]) (by simp [hstate])
    exact h.keep (.inr (by rw [hnext, hstate]; rfl)) (by rw [hnext]; exact h.stands) rfl
  · subst hslash
    have hnext := next_control (c := '/'.toUInt8) hne (k := { rd.toControl with
        parserState := .scriptSlash, scriptEqualityLen := 0 })
      (by simp only [htmlParserSwitch, hstate, ne_eq, hless, not_false_eq_true, if_true])
      (by simp) (by simp)
    exact h.next_name true ⟨[], rfl, by rw [hnext]; rfl, by rw [hnext]; rfl⟩
      (by simp [hnext, Control.inName]) (by simp [hnext, Control.startsName])
      rfl rfl rfl rfl
  · have hnext := next_control (c := c) hne (k := { rd.toControl with parserState := .script })
      (by simp [htmlParserSwitch, hstate, hless, hslash]) (by simp) (by simp)
    have hscript : (rd.next c).parserState = .script := by rw [hnext]
    refine h.keep (.inr (by rw [hscript]; rfl)) ⟨?_, hrouted.not_innerText (by simp [hscript])⟩ rfl
    rw [htmlParserEnterScript_of_ne (by simp [hscript]), hscript]

theorem scriptName (h : Sees s rd) (hspot : s.spot = .scriptName) (c : UInt8) :
    Sees (s.next c) (rd.next c) := by
  obtain ⟨u, hname, hlen, hstate⟩ : ∃ u, s.tagName = '/'.toUInt8 :: u ∧
      rd.scriptEqualityLen = matched u ∧
        rd.parserState = if u = [] then .scriptSlash else .scriptName := by
    simpa only [LastRead.Stands, hspot] using h.stands
  have hne : rd.parserState = .innerText → rd.scriptEqualityLen ≠ 6 := by
    rw [hstate]
    split_ifs <;> simp
  have hsix : s.tagName.map tolower = bytes "/script" ↔ rd.scriptEqualityLen = 6 := by
    rw [hlen, matched_eq_six_iff, hname]
    exact List.cons.injEq .. ▸ and_iff_right (by decide)
  simp only [LastRead.next, hspot, hsix]
  split_ifs with hless hgt hblank
  · have hnext := next_control (c := c) hne (k := { rd.toControl with parserState := .scriptLess })
      (by by_cases hu : u = [] <;>
        simp only [htmlParserSwitch, hstate, hu, if_true, if_false, if_pos hless])
      (by simp) (by simp)
    exact h.keep (.inr (by rw [hnext]; rfl)) (by rw [hnext]; rfl) rfl
  · have hnext := next_control (c := c) hne (k := { rd.toControl with
        parserState := .innerText, scriptEqualityLen := 0
        htmlPart := { rd.htmlPart with
          script := false, tag := true, tagEnd := true, nameEnded := true, closingTag := true } })
      (by by_cases hu : u = [] <;>
        simp only [htmlParserSwitch, hstate, hu, if_true, if_false, if_neg hless, if_pos hgt])
      (by simp) (by simp)
    exact h.next_end (by rw [hnext]) (by rw [hnext]) (by simp [hnext])
  · have hnext := next_control (c := c) hne (k := { rd.toControl with
        parserState := .tagSpace, scriptEqualityLen := 0
        htmlPart := { rd.htmlPart with
          script := false, tag := true, space := true, nameEnded := true, closingTag := true } })
      (by by_cases hu : u = [] <;>
        simp only [htmlParserSwitch, hstate, hu, if_true, if_false, if_neg hless, if_neg hgt,
          if_pos hblank])
      (by simp) (by simp)
    have hspace : (rd.next c).parserState = .tagSpace := by rw [hnext]
    refine h.keep (.inr (by rw [hspace]; rfl)) ⟨hspace, ?_⟩ rfl
    -- the name begins with a slash
    have hslash : tolower '/'.toUInt8 ≠ 's'.toUInt8 := by decide
    simp [hnext, IsScript, hname, bytes, hslash]
  · have hnext : (rd.next c).toControl =
        htmlParserScript { rd.toControl with parserState := .scriptName } c := by
      rw [next_control_name (by rw [hstate]; split_ifs <;> simp)]
      by_cases hu : u = [] <;>
        simp only [htmlParserSwitch, hstate, hu, if_true, if_false, if_neg hless, if_neg hgt,
          if_neg hblank]
    have hlen' : (rd.next c).scriptEqualityLen = matched (u ++ [c]) := by
      rw [hnext]
      exact htmlParserScript_len (s := { rd.toControl with parserState := .scriptName })
        (.inr rfl) hlen c
    have hstate' : (rd.next c).parserState = .scriptName := by
      rw [hnext, htmlParserScript_parserState]
    refine h.next_name false ⟨u ++ [c], ?_, hlen', ?_⟩ ?_ ?_ rfl rfl rfl rfl
    · rw [hname, List.cons_append]
    · rw [hstate', if_neg (by simp)]
    · simp [Control.inName, hstate']
    · have hrouted : (rd.next c).Routed := h.routed.control c
      have hbegin : (rd.next c).htmlPart.nameBeginning = false := by
        by_contra hb
        cases hstate'.symm.trans (hrouted.nameBeginning (by simpa using hb))
      simp [Control.startsName, hbegin, hstate']

/-- **A byte.** -/
theorem next (h : Sees s rd) (c : UInt8) : Sees (s.next c) (rd.next c) := by
  cases hspot : s.spot with
  | between => exact h.between hspot c
  | text => exact h.text_spot hspot c
  | opening => exact h.opening hspot c
  | name => exact h.name hspot c
  | space => exact h.space hspot c
  | attr => exact h.attr hspot c
  | equals => exact h.equals hspot c
  | quoted q => exact h.quoted hspot c
  | bare => exact h.bare hspot c
  | comment => exact h.comment hspot c
  | script => exact h.script hspot c
  | scriptOpening => exact h.scriptOpening hspot c
  | scriptName => exact h.scriptName hspot c

theorem run (h : Sees s rd) (page : List UInt8) :
    Sees (page.foldl LastRead.next s) (page.foldl Reading.next rd) := by
  induction page generalizing s rd with
  | nil => exact h
  | cons c page ih => exact ih (h.next c)

end Sees

/-! ### The buffers -/

/-- A value is held alone if its first byte empties the buffer, or nothing was
held before it. -/
theorem held_cons_eq_iff (v : ReadValue) (vs : List ReadValue) :
    held (v :: vs) = v.text ↔ (v.quote = some .single ∨ v.text = [] → held vs = []) := by
  rw [held]
  split_ifs with hstays
  · rw [List.append_left_eq_self]
    exact ⟨fun h _ => h, fun h => h hstays⟩
  · exact iff_of_true rfl fun h => absurd h hstays

/-- A parser holds what was read last. -/
structure HoldsLast (lower : Buffer → Bool) (room : Buffer → ℕ) (hsp : HtmlStreamParser)
    (s : LastRead) : Prop where
  maxLen : ∀ r, (hsp.textBuf r).maxLen = room r
  realLen : ∀ r, (hsp.textBuf r).realLen = (s.text r).length
  text : ∀ r, (hsp.textBuf r).text = kept lower room r (s.text r)

/-- **Buffers.** However the parser is set up and whatever the page, its buffers
hold the texts last read, cut to their sizes, and `real_len` the length in full.
For an attribute that is what is held of its values: the last one, unless it is
in single quotes or without bytes and something was held before it. -/
theorem holdsLast_page (hsp : HtmlStreamParser) (tag attr val : Bool) (buffer : Buffer → Buf)
    (length : Buffer → ℕ) (page : List UInt8) :
    HoldsLast (lowered tag attr val) length
        (page.foldl htmlParserCharParse (setUp hsp tag attr val buffer length))
        (page.foldl LastRead.next {}) ∧
      ∀ v vs, (page.foldl LastRead.next {}).values = v :: vs →
        ((page.foldl LastRead.next {}).text .attrValue = v.text ↔
          (v.quote = some .single ∨ v.text = [] → held vs = [])) := by
  have hkept := keptIn_page hsp tag attr val buffer length page
  have hsees := Sees.run sees_initial page
  refine ⟨{ maxLen := hkept.maxLen, realLen := fun r => ?_, text := fun r => ?_ }, ?_⟩
  · rw [hkept.realLen, hsees.text]
  · rw [hkept.text, hsees.text]
  · intro v vs hvalues
    rw [LastRead.text, hvalues]
    exact held_cons_eq_iff v vs

/-- The value in single quotes is not held alone. -/
theorem holdsLast_singleQuoted :
    (((bytes "<a b=x ='y'>").foldl htmlParserCharParse
        (setUp {} true true false (fun _ _ => 0) fun _ => 8)).textBuf .attrValue).text =
        bytes "xy" ∧
      ((bytes "<a b=x ='y'>").foldl LastRead.next {}).text .attrValue ≠ bytes "y" := by
  obtain ⟨hholds, hlast⟩ := holdsLast_page {} true true false (fun _ _ => 0) (fun _ => 8)
    (bytes "<a b=x ='y'>")
  constructor
  · rw [hholds.text]
    decide
  · intro h
    have hbefore := (hlast { text := bytes "y", quote := some .single }
      [{ text := bytes "x", quote := none }] (by decide)).mp h
    exact absurd (hbefore (.inl rfl)) (by decide)

/-! ### Questions -/

/-- The states of the parser by the spots. -/
theorem LastRead.Stands.parserState {s : LastRead} {k : Control} (h : s.Stands k) :
    match s.spot with
    | .between | .text => k.parserState = .innerText
    | .opening => k.parserState = .tagBeginning
    | .name => k.parserState = .tagName
    | .space => k.parserState = .tagSpace
    | .attr => k.parserState = .attributeName
    | .equals => k.parserState = .beforeValue
    | .quoted q => k.parserState = q.state
    | .bare => k.parserState = .valueUnquoted
    | .comment => k.parserState = .comment
    | .script => k.parserState = .innerText ∨ k.parserState = .script
    | .scriptOpening => k.parserState = .scriptLess
    | .scriptName => k.parserState = .scriptSlash ∨ k.parserState = .scriptName := by
  cases hspot : s.spot with
  | script =>
      obtain ⟨henter, -⟩ : (htmlParserEnterScript k).parserState = .script ∧
          k.htmlPart.innerText = false := by simpa only [LastRead.Stands, hspot] using h
      by_cases hstate : k.parserState = .innerText
      · exact .inl hstate
      · exact .inr (by rwa [htmlParserEnterScript_of_ne hstate] at henter)
  | scriptName =>
      obtain ⟨u, -, -, hstate⟩ : ∃ u, s.tagName = '/'.toUInt8 :: u ∧
          k.scriptEqualityLen = matched u ∧
            k.parserState = if u = [] then .scriptSlash else .scriptName := by
        simpa only [LastRead.Stands, hspot] using h
      by_cases hu : u = [] <;> simp [hstate, hu]
  | opening | scriptOpening => simpa only [LastRead.Stands, hspot] using h
  | _ =>
      simp only [LastRead.Stands, hspot] at h
      exact h.1

theorem Sees.inName_iff {s : LastRead} {rd : Reading} (h : Sees s rd) :
    rd.inName ↔ s.spot = .name ∨ s.spot = .scriptName := by
  have hstate := h.stands.parserState
  rw [Control.inName, Bool.or_eq_true, Bool.or_eq_true, h.routed.name, decide_eq_true_eq,
    decide_eq_true_eq]
  cases hspot : s.spot with
  | quoted q => cases q <;> simp_all [Quote.state]
  | script => rcases hspot ▸ hstate with hs | hs <;> simp [hs]
  | scriptName => rcases hspot ▸ hstate with hs | hs <;> simp [hs]
  | _ => simp_all

theorem Sees.attr_iff {s : LastRead} {rd : Reading} (h : Sees s rd) :
    rd.htmlPart.attr ↔ s.spot = .attr := by
  have hstate := h.stands.parserState
  rw [h.routed.attr]
  cases hspot : s.spot with
  | quoted q => cases q <;> simp_all [Quote.state]
  | script => rcases hspot ▸ hstate with hs | hs <;> simp [hs]
  | scriptName => rcases hspot ▸ hstate with hs | hs <;> simp [hs]
  | _ => simp_all

/-- **Comparisons.** Whatever the page, `html_parser_cmp_tag` and
`html_parser_cmp_attr` say of a name that it is what is kept of the one last read,
and that this one is not being read any more. -/
theorem cmp_page (hsp : HtmlStreamParser) (tag attr val : Bool) (buffer : Buffer → Buf)
    (length : Buffer → ℕ) (page : List UInt8) {name : List UInt8} (hne : name ≠ [])
    (hnul : 0 ∉ name) :
    (htmlParserCmpTag (page.foldl htmlParserCharParse (setUp hsp tag attr val buffer length))
        name = true ↔
      ¬((page.foldl LastRead.next {}).spot = .name ∨
          (page.foldl LastRead.next {}).spot = .scriptName) ∧
        kept (lowered tag attr val) length .tagName (page.foldl LastRead.next {}).tagName = name) ∧
    (htmlParserCmpAttr (page.foldl htmlParserCharParse (setUp hsp tag attr val buffer length))
        name = true ↔
      (page.foldl LastRead.next {}).spot ≠ .attr ∧
        kept (lowered tag attr val) length .attrName (page.foldl LastRead.next {}).attrName =
          name) := by
  have hkept := keptIn_page hsp tag attr val buffer length page
  have hsees := Sees.run sees_initial page
  constructor
  · rw [hkept.cmpTag_iff hne hnul, hsees.text, ← hsees.inName_iff, Bool.not_eq_true]
    rfl
  · rw [hkept.cmpAttr_iff hne hnul, hsees.text, ne_eq, ← hsees.attr_iff, Bool.not_eq_true]
    rfl

/-- On `<A b` the name of the tag has been read and that of the attribute has not. -/
theorem cmp_openLink :
    htmlParserCmpTag ((bytes "<A b").foldl htmlParserCharParse
        (setUp {} true true false (fun _ _ => 0) fun _ => 8)) (bytes "a") = true ∧
      htmlParserCmpAttr ((bytes "<A b").foldl htmlParserCharParse
        (setUp {} true true false (fun _ _ => 0) fun _ => 8)) (bytes "b") = false := by
  have htag := (cmp_page {} true true false (fun _ _ => 0) (fun _ => 8) (bytes "<A b")
    (by decide : bytes "a" ≠ []) (by decide)).1
  have hattr := (cmp_page {} true true false (fun _ _ => 0) (fun _ => 8) (bytes "<A b")
    (by decide : bytes "b" ≠ []) (by decide)).2
  exact ⟨htag.mpr (by decide), Bool.eq_false_iff.mpr fun h => (hattr.mp h).1 (by decide)⟩

end HtmlBenchmark.StreamParser
