import HtmlBenchmark.StreamParser.Parser

/-!
What one byte does to each part of the parser.

State and flags move by `htmlParserControl` alone; each buffer then moves on its
own, by the flags and the byte. Everything later modules say about a step is
said through these equations, so none of them unfolds `htmlParserStore`.

Two parsers are compared on what the code can see of them. Of a buffer that is
the bytes below its length (`TextBuf.Same`): what lies beyond is left over from
earlier texts.
-/

namespace HtmlBenchmark.StreamParser

/-! ### The flags that route a byte -/

def Control.inName (s : Control) : Bool :=
  s.htmlPart.name || s.parserState = .scriptSlash || s.parserState = .scriptName

/-- The byte is the first of a tag name. -/
def Control.startsName (s : Control) : Bool :=
  s.htmlPart.nameBeginning || s.parserState = .scriptSlash

def TextBuf.clearIf (b : TextBuf) (fresh : Bool) : TextBuf := if fresh then b.clear else b

@[simp] theorem TextBuf.clearIf_false (b : TextBuf) : b.clearIf false = b := rfl

@[simp] theorem TextBuf.clearIf_data (b : TextBuf) (fresh : Bool) :
    (b.clearIf fresh).data = b.data := by
  cases fresh <;> rfl

@[simp] theorem TextBuf.clear_maxLen (b : TextBuf) : b.clear.maxLen = b.maxLen := rfl

@[simp] theorem TextBuf.clearIf_maxLen (b : TextBuf) (fresh : Bool) :
    (b.clearIf fresh).maxLen = b.maxLen := by
  cases fresh <;> rfl

@[simp] theorem TextBuf.put_maxLen (b : TextBuf) (c : UInt8) : (b.put c).maxLen = b.maxLen := by
  simp only [TextBuf.put]
  split <;> rfl

section Step

variable (hsp : HtmlStreamParser) (c : UInt8)

@[simp] theorem charParse_toControl :
    (htmlParserCharParse hsp c).toControl = htmlParserControl hsp.toControl c := by
  simp only [htmlParserCharParse, htmlParserStore]
  split_ifs <;> rfl

@[simp] theorem charParse_tagNameToLower :
    (htmlParserCharParse hsp c).tagNameToLower = hsp.tagNameToLower := by
  simp only [htmlParserCharParse, htmlParserStore]
  split_ifs <;> rfl

@[simp] theorem charParse_attrNameToLower :
    (htmlParserCharParse hsp c).attrNameToLower = hsp.attrNameToLower := by
  simp only [htmlParserCharParse, htmlParserStore]
  split_ifs <;> rfl

@[simp] theorem charParse_attrValToLower :
    (htmlParserCharParse hsp c).attrValToLower = hsp.attrValToLower := by
  simp only [htmlParserCharParse, htmlParserStore]
  split_ifs <;> rfl

theorem charParse_innerText :
    (htmlParserCharParse hsp c).innerText =
      let s := htmlParserControl hsp.toControl c
      if s.htmlPart.innerText then (hsp.innerText.clearIf s.htmlPart.innerTextBeginning).put c
      else hsp.innerText := by
  simp only [htmlParserCharParse, htmlParserStore, TextBuf.clearIf]
  split_ifs <;> rfl

theorem charParse_tagName :
    (htmlParserCharParse hsp c).tagName =
      let s := htmlParserControl hsp.toControl c
      if s.htmlPart.innerText then hsp.tagName
      else if s.inName then
        (hsp.tagName.clearIf s.startsName).put (if hsp.tagNameToLower then tolower c else c)
      else hsp.tagName := by
  simp only [htmlParserCharParse, htmlParserStore, TextBuf.clearIf, Control.inName,
    Control.startsName]
  split_ifs <;> simp_all

theorem charParse_attrName :
    (htmlParserCharParse hsp c).attrName =
      let s := htmlParserControl hsp.toControl c
      if s.htmlPart.innerText then hsp.attrName
      else if s.inName then hsp.attrName.clearIf s.startsName
      else if s.htmlPart.attr then
        (hsp.attrName.clearIf s.htmlPart.attrBeginning).put
          (if hsp.attrNameToLower then tolower c else c)
      else hsp.attrName := by
  simp only [htmlParserCharParse, htmlParserStore, TextBuf.clearIf, Control.inName,
    Control.startsName]
  split_ifs <;> simp_all

theorem charParse_attrValue :
    (htmlParserCharParse hsp c).attrValue =
      let s := htmlParserControl hsp.toControl c
      if s.htmlPart.innerText then hsp.attrValue
      else if s.inName then hsp.attrValue.clearIf s.startsName
      else if s.htmlPart.attr then hsp.attrValue.clearIf s.htmlPart.attrBeginning
      else if s.htmlPart.value then
        (hsp.attrValue.clearIf s.htmlPart.valueBeginning).put
          (if hsp.attrValToLower then tolower c else c)
      else hsp.attrValue := by
  simp only [htmlParserCharParse, htmlParserStore, TextBuf.clearIf, Control.inName,
    Control.startsName]
  split_ifs <;> simp_all

end Step

/-! ### The lengths reported -/

section Lengths

variable (hsp : HtmlStreamParser)

theorem innerTextLength_le : htmlParserInnerTextLength hsp ≤ hsp.innerText.len := by
  simp only [htmlParserInnerTextLength]
  split_ifs <;> omega

theorem valLength_le : htmlParserValLength hsp ≤ hsp.attrValue.len := by
  simp only [htmlParserValLength]
  split_ifs <;> omega

end Lengths

/-! ### Parsers that cannot be told apart -/

/-- Two buffers with the same lengths and the same bytes below them. -/
structure TextBuf.Same (a b : TextBuf) : Prop where
  len : a.len = b.len
  realLen : a.realLen = b.realLen
  maxLen : a.maxLen = b.maxLen
  data : ∀ i < a.len, a.data i = b.data i

namespace TextBuf.Same

variable {a b : TextBuf}

theorem refl (a : TextBuf) : a.Same a := ⟨rfl, rfl, rfl, fun _ _ => rfl⟩

theorem trans {c : TextBuf} (h : a.Same b) (h' : b.Same c) : a.Same c where
  len := h.len.trans h'.len
  realLen := h.realLen.trans h'.realLen
  maxLen := h.maxLen.trans h'.maxLen
  data i hi := (h.data i hi).trans (h'.data i (h.len ▸ hi))

theorem clear (h : a.Same b) : a.clear.Same b.clear :=
  ⟨rfl, rfl, h.maxLen, fun _ hi => absurd hi (Nat.not_lt_zero _)⟩

theorem clearIf (h : a.Same b) (fresh : Bool) : (a.clearIf fresh).Same (b.clearIf fresh) := by
  cases fresh with
  | false => exact h
  | true => exact h.clear

theorem put (h : a.Same b) (c : UInt8) : (a.put c).Same (b.put c) := by
  have hlen := h.len
  simp only [TextBuf.put, ← h.len, ← h.maxLen, ← h.realLen]
  split
  · refine ⟨rfl, rfl, rfl, fun i hi => ?_⟩
    by_cases hie : i = a.len
    · simp [hie]
    · simp only [Function.update_of_ne hie]
      exact h.data i (by simp only at hi; omega)
  · exact ⟨rfl, rfl, rfl, h.data⟩

/-- Comparing no more bytes than the buffer holds gives the same answer. -/
theorem strncmp_eq (h : a.Same b) {n : ℕ} (hn : n ≤ a.len) (s : Buf) :
    strncmp n s a.data = strncmp n s b.data :=
  cmpn_congr fun i hi => h.data i (by omega)

end TextBuf.Same

/-- The parsers agree on the state, the flags, and the tag and attribute names:
all that the counting of links and images looks at. -/
structure HtmlStreamParser.SameTags (p q : HtmlStreamParser) : Prop where
  control : p.toControl = q.toControl
  tagName : p.tagName.Same q.tagName
  attrName : p.attrName.Same q.attrName
  tagNameToLower : p.tagNameToLower = q.tagNameToLower
  attrNameToLower : p.attrNameToLower = q.attrNameToLower

/-- The parsers agree on everything the code can see. -/
structure HtmlStreamParser.Same (p q : HtmlStreamParser) : Prop extends p.SameTags q where
  attrValue : p.attrValue.Same q.attrValue
  innerText : p.innerText.Same q.innerText
  attrValToLower : p.attrValToLower = q.attrValToLower

namespace HtmlStreamParser

variable {p q : HtmlStreamParser}

theorem SameTags.refl (p : HtmlStreamParser) : p.SameTags p :=
  ⟨rfl, .refl _, .refl _, rfl, rfl⟩

theorem SameTags.trans {r : HtmlStreamParser} (h : p.SameTags q) (h' : q.SameTags r) :
    p.SameTags r :=
  ⟨h.control.trans h'.control, h.tagName.trans h'.tagName, h.attrName.trans h'.attrName,
    h.tagNameToLower.trans h'.tagNameToLower, h.attrNameToLower.trans h'.attrNameToLower⟩

theorem SameTags.charParse (h : p.SameTags q) (c : UInt8) :
    (htmlParserCharParse p c).SameTags (htmlParserCharParse q c) where
  control := by simp [h.control]
  tagName := by
    simp only [charParse_tagName, h.control, h.tagNameToLower]
    split_ifs
    · exact h.tagName
    · exact (h.tagName.clearIf _).put _
    · exact (h.tagName.clearIf _).put _
    · exact h.tagName
  attrName := by
    simp only [charParse_attrName, h.control, h.attrNameToLower]
    split_ifs
    · exact h.attrName
    · exact h.attrName.clearIf _
    · exact (h.attrName.clearIf _).put _
    · exact (h.attrName.clearIf _).put _
    · exact h.attrName
  tagNameToLower := by simp [h.tagNameToLower]
  attrNameToLower := by simp [h.attrNameToLower]

theorem SameTags.cmpTag_eq (h : p.SameTags q) (s : List UInt8) :
    htmlParserCmpTag p s = htmlParserCmpTag q s := by
  have hlen : htmlParserTagLength p = htmlParserTagLength q := by
    simp [htmlParserTagLength, h.control, h.tagName.len]
  have hle : htmlParserTagLength p ≤ p.tagName.len := by
    simp only [htmlParserTagLength]
    split_ifs <;> omega
  simp only [htmlParserCmpTag, ← hlen]
  by_cases heq : htmlParserTagLength p = s.length
  · rw [h.tagName.strncmp_eq (by omega)]
  · simp [heq]

theorem SameTags.cmpAttr_eq (h : p.SameTags q) (s : List UInt8) :
    htmlParserCmpAttr p s = htmlParserCmpAttr q s := by
  have hlen : htmlParserAttrLength p = htmlParserAttrLength q := by
    simp [htmlParserAttrLength, h.control, h.attrName.len]
  have hle : htmlParserAttrLength p ≤ p.attrName.len := by
    simp only [htmlParserAttrLength]
    split_ifs <;> omega
  simp only [htmlParserCmpAttr, ← hlen]
  by_cases heq : htmlParserAttrLength p = s.length
  · rw [h.attrName.strncmp_eq (by omega)]
  · simp [heq]

theorem SameTags.htmlPart_eq (h : p.SameTags q) : p.htmlPart = q.htmlPart :=
  congrArg Control.htmlPart h.control

theorem Same.charParse (h : p.Same q) (c : UInt8) :
    (htmlParserCharParse p c).Same (htmlParserCharParse q c) where
  toSameTags := h.toSameTags.charParse c
  attrValue := by
    simp only [charParse_attrValue, h.control, h.attrValToLower]
    split_ifs
    · exact h.attrValue
    · exact h.attrValue.clearIf _
    · exact h.attrValue.clearIf _
    · exact (h.attrValue.clearIf _).put _
    · exact (h.attrValue.clearIf _).put _
    · exact h.attrValue
  innerText := by
    simp only [charParse_innerText, h.control]
    split_ifs
    · exact (h.innerText.clearIf _).put _
    · exact h.innerText
  attrValToLower := by simp [h.attrValToLower]

end HtmlStreamParser

end HtmlBenchmark.StreamParser
