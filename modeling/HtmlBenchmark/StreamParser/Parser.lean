import HtmlBenchmark.CLib
import Mathlib.Data.Int.Notation

/-!
The stream parser of `htmlstreamparser.c`, fed one byte at a time.

A call of `html_parser_char_parse` does two things in a row. The `switch` on
`parser_state`, with the script matcher behind it, moves the state and the
flags of `html_part`; it never looks at a buffer. The second half then looks at
the flags to decide which of the four buffers the byte belongs to. The two
halves are two definitions here, `htmlParserSwitch` with `htmlParserScript`
and `htmlParserStore`, so that what is true of the flags is proved without the
buffers.
-/

namespace HtmlBenchmark.StreamParser

/-- `parser_state`, numbered 0 to 13 in the source. -/
inductive ParserState
  | innerText | tagBeginning | tagName | tagSpace | attributeName | beforeValue
  | valueDoubleQuoted | valueSingleQuoted | valueUnquoted | comment
  | script | scriptLess | scriptSlash | scriptName
  deriving DecidableEq, Repr

/-- The flags of `html_part`, one for each enumerator. -/
structure HtmlPart where
  innerText : Bool := false
  innerTextBeginning : Bool := false
  tag : Bool := false
  tagBeginning : Bool := false
  tagEnd : Bool := false
  name : Bool := false
  nameBeginning : Bool := false
  nameEnded : Bool := false
  attr : Bool := false
  attrBeginning : Bool := false
  attrEnded : Bool := false
  value : Bool := false
  valueBeginning : Bool := false
  valueEnded : Bool := false
  valueQuoted : Bool := false
  valueSingleQuoted : Bool := false
  valueDoubleQuoted : Bool := false
  space : Bool := false
  equality : Bool := false
  slash : Bool := false
  closingTag : Bool := false
  script : Bool := false
  comment : Bool := false
  entity : Bool := false
  deriving DecidableEq, Repr

/-- The fields the `switch` works on. -/
structure Control where
  parserState : ParserState := .innerText
  htmlPart : HtmlPart := {}
  scriptEqualityLen : ℤ := 0
  deriving DecidableEq, Repr

/-- A buffer of the parser with its three lengths: the bytes kept, the bytes
seen, the bytes there is room for. -/
structure TextBuf where
  data : Buf := fun _ => 0
  len : ℕ := 0
  realLen : ℕ := 0
  maxLen : ℕ := 0

structure HtmlStreamParser extends Control where
  tagName : TextBuf := {}
  attrName : TextBuf := {}
  attrValue : TextBuf := {}
  innerText : TextBuf := {}
  tagNameToLower : Bool := false
  attrNameToLower : Bool := false
  attrValToLower : Bool := false

/-! ### Set-up -/

/-- `html_parser_reset`, which names every field. -/
def htmlParserReset (hsp : HtmlStreamParser) : HtmlStreamParser :=
  { hsp with
    htmlPart := {}
    parserState := .innerText
    tagName := { data := fun _ => 0, len := 0, realLen := 0, maxLen := 0 }
    attrName := { data := fun _ => 0, len := 0, realLen := 0, maxLen := 0 }
    attrValue := { data := fun _ => 0, len := 0, realLen := 0, maxLen := 0 }
    innerText := { data := fun _ => 0, len := 0, realLen := 0, maxLen := 0 }
    tagNameToLower := false
    attrNameToLower := false
    attrValToLower := false
    scriptEqualityLen := 0 }

def htmlParserSetTagToLower (hsp : HtmlStreamParser) (c : Bool) : HtmlStreamParser :=
  { hsp with tagNameToLower := c }

def htmlParserSetAttrToLower (hsp : HtmlStreamParser) (c : Bool) : HtmlStreamParser :=
  { hsp with attrNameToLower := c }

def TextBuf.setBuffer (b : TextBuf) (buffer : Buf) (length : ℕ) : TextBuf :=
  { b with data := buffer, maxLen := length }

def htmlParserSetTagBuffer (hsp : HtmlStreamParser) (buffer : Buf) (length : ℕ) :
    HtmlStreamParser :=
  { hsp with tagName := hsp.tagName.setBuffer buffer length }

def htmlParserSetAttrBuffer (hsp : HtmlStreamParser) (buffer : Buf) (length : ℕ) :
    HtmlStreamParser :=
  { hsp with attrName := hsp.attrName.setBuffer buffer length }

def htmlParserSetValBuffer (hsp : HtmlStreamParser) (buffer : Buf) (length : ℕ) :
    HtmlStreamParser :=
  { hsp with attrValue := hsp.attrValue.setBuffer buffer length }

def htmlParserSetInnerTextBuffer (hsp : HtmlStreamParser) (buffer : Buf) (length : ℕ) :
    HtmlStreamParser :=
  { hsp with innerText := hsp.innerText.setBuffer buffer length }

/-! ### The state machine -/

def ishtmlspace (chr : UInt8) : Bool := chr == 32 || chr == 9 || chr == 10 || chr == 13

/-- The entry into a script, tested before the `switch`: the tag just ended
was named `script`. -/
def htmlParserEnterScript (s : Control) : Control :=
  if s.parserState = .innerText ∧ s.scriptEqualityLen = 6 then
    { s with parserState := .script, htmlPart := { script := true } }
  else s

/-- The `switch` on `parser_state`. -/
def htmlParserSwitch (s : Control) (c : UInt8) : Control :=
  let h := s.htmlPart
  match s.parserState with
  | .innerText =>
      if c = '<'.toUInt8 then
        { s with parserState := .tagBeginning, htmlPart := { tag := true, tagBeginning := true } }
      else if !h.innerText then
        { s with htmlPart := { innerText := true, innerTextBeginning := true } }
      else { s with htmlPart := { h with innerTextBeginning := false } }
  | .tagBeginning =>
      let h := { h with tagBeginning := false }
      let s := { s with scriptEqualityLen := 0 }
      if c = '/'.toUInt8 then
        { s with
          parserState := .tagName
          htmlPart := { h with closingTag := true, slash := true, name := true,
                               nameBeginning := true } }
      else if c = '!'.toUInt8 then
        { s with parserState := .comment, htmlPart := { h with comment := true } }
      else if c = '>'.toUInt8 then
        { s with parserState := .innerText, htmlPart := { h with tagEnd := true } }
      else if isalpha c then
        { s with
          parserState := .tagName
          htmlPart := { h with name := true, nameBeginning := true } }
      -- no tag after all: the `<` is dropped, this byte begins a text
      else if c ≠ '<'.toUInt8 then
        { s with
          parserState := .innerText
          htmlPart := { innerText := true, innerTextBeginning := true } }
      else { s with htmlPart := h }
  | .tagName =>
      let h := { h with nameBeginning := false, slash := false }
      if c = '>'.toUInt8 then
        { s with
          parserState := .innerText
          htmlPart := { h with tagEnd := true, nameEnded := true, name := false } }
      else if ishtmlspace c then
        { s with
          parserState := .tagSpace
          htmlPart := { h with space := true, nameEnded := true, name := false } }
      else { s with htmlPart := h }
  | .tagSpace =>
      let h := { h with nameEnded := false, attrEnded := false, valueEnded := false,
                        valueQuoted := false, valueSingleQuoted := false,
                        valueDoubleQuoted := false, equality := false }
      if !ishtmlspace c then
        let h := { h with space := false }
        if c = '>'.toUInt8 then
          { s with parserState := .innerText, htmlPart := { h with tagEnd := true } }
        else if c = '='.toUInt8 then
          { s with parserState := .beforeValue, htmlPart := { h with equality := true } }
        else
          { s with
            parserState := .attributeName
            htmlPart := { h with attr := true, attrBeginning := true } }
      else { s with htmlPart := h }
  | .attributeName =>
      let h := { h with attrBeginning := false }
      if c = '>'.toUInt8 then
        { s with
          parserState := .innerText
          htmlPart := { h with tagEnd := true, attr := false, attrEnded := true } }
      else if c = '='.toUInt8 then
        { s with
          parserState := .beforeValue
          htmlPart := { h with equality := true, attr := false, attrEnded := true } }
      else if ishtmlspace c then
        { s with
          parserState := .tagSpace
          htmlPart := { h with space := true, attr := false, attrEnded := true } }
      else { s with htmlPart := h }
  | .beforeValue =>
      let h := { h with equality := false, attrEnded := false, space := true }
      if !ishtmlspace c then
        let h := { h with space := false }
        if c = '>'.toUInt8 then
          { s with parserState := .innerText, htmlPart := { h with tagEnd := true } }
        else if c = '"'.toUInt8 then
          { s with
            parserState := .valueDoubleQuoted
            htmlPart := { h with valueQuoted := true, valueDoubleQuoted := true } }
        else if c = '\''.toUInt8 then
          { s with
            parserState := .valueSingleQuoted
            htmlPart := { h with valueQuoted := true, valueSingleQuoted := true } }
        else
          { s with
            parserState := .valueUnquoted
            htmlPart := { h with value := true, valueBeginning := true } }
      else { s with htmlPart := h }
  | .valueDoubleQuoted =>
      let h := if !h.value then { h with value := true, valueBeginning := true }
        else { h with valueBeginning := false }
      if c = '"'.toUInt8 then
        { s with
          parserState := .tagSpace
          htmlPart := { h with value := false, valueEnded := true } }
      else { s with htmlPart := h }
  | .valueSingleQuoted =>
      -- unlike behind a double quote, the value never begins, so the buffer is not emptied
      let h := { h with value := true, valueBeginning := false }
      if c = '\''.toUInt8 then
        { s with
          parserState := .tagSpace
          htmlPart := { h with value := false, valueEnded := true } }
      else { s with htmlPart := h }
  | .valueUnquoted =>
      let h := { h with valueBeginning := false }
      if c = '>'.toUInt8 then
        { s with
          parserState := .innerText
          htmlPart := { h with tagEnd := true, value := false, valueEnded := true } }
      else if ishtmlspace c then
        { s with
          parserState := .tagSpace
          htmlPart := { h with space := true, value := false, valueEnded := true } }
      else { s with htmlPart := h }
  | .comment =>
      -- the first `>` ends a comment, and anything else behind `<!`
      if c = '>'.toUInt8 then
        { s with parserState := .innerText, htmlPart := { h with tagEnd := true } }
      else s
  | .script => if c = '<'.toUInt8 then { s with parserState := .scriptLess } else s
  | .scriptLess =>
      if c ≠ '<'.toUInt8 then
        if c = '/'.toUInt8 then { s with parserState := .scriptSlash, scriptEqualityLen := 0 }
        else { s with parserState := .script }
      else s
  | .scriptSlash | .scriptName =>
      if c = '<'.toUInt8 then { s with parserState := .scriptLess }
      else if c = '>'.toUInt8 ∧ s.scriptEqualityLen = 6 then
        { s with
          parserState := .innerText
          scriptEqualityLen := 0
          htmlPart := { h with script := false, tag := true, tagEnd := true, nameEnded := true,
                               closingTag := true } }
      else if ishtmlspace c ∧ s.scriptEqualityLen = 6 then
        { s with
          parserState := .tagSpace
          scriptEqualityLen := 0
          htmlPart := { h with script := false, tag := true, space := true, nameEnded := true,
                               closingTag := true } }
      else { s with parserState := .scriptName }

/-- How much of the word `script` the name read so far has matched; -1 once it
has failed. -/
def htmlParserScript (s : Control) (c : UInt8) : Control :=
  if s.parserState = .tagName ∨ s.parserState = .scriptName then
    if 0 ≤ s.scriptEqualityLen ∧ s.scriptEqualityLen < 6 then
      if cstr (bytes "script") s.scriptEqualityLen.toNat = tolower c then
        { s with scriptEqualityLen := s.scriptEqualityLen + 1 }
      else { s with scriptEqualityLen := -1 }
    else { s with scriptEqualityLen := -1 }
  else s

/-- The whole of the first half: state and flags after one byte. -/
def htmlParserControl (s : Control) (c : UInt8) : Control :=
  htmlParserScript (htmlParserSwitch (htmlParserEnterScript s) c) c

/-! ### The buffers -/

def TextBuf.clear (b : TextBuf) : TextBuf := { b with len := 0, realLen := 0 }

/-- Keeps one more byte if there is room. -/
def TextBuf.put (b : TextBuf) (c : UInt8) : TextBuf :=
  if b.len < b.maxLen then
    { b with data := Function.update b.data b.len c, len := b.len + 1, realLen := b.realLen + 1 }
  else { b with realLen := b.realLen + 1 }

/-- The second half: the byte goes to the buffer the flags name, a buffer being
emptied where its text begins. -/
def htmlParserStore (hsp : HtmlStreamParser) (c : UInt8) : HtmlStreamParser :=
  let h := hsp.htmlPart
  if h.innerText then
    let hsp := if h.innerTextBeginning then { hsp with innerText := hsp.innerText.clear } else hsp
    { hsp with innerText := hsp.innerText.put c }
  else if h.name || hsp.parserState = .scriptSlash || hsp.parserState = .scriptName then
    let hsp := if h.nameBeginning || hsp.parserState = .scriptSlash then
        { hsp with
          tagName := hsp.tagName.clear
          attrName := hsp.attrName.clear
          attrValue := hsp.attrValue.clear }
      else hsp
    { hsp with tagName := hsp.tagName.put (if hsp.tagNameToLower then tolower c else c) }
  else if h.attr then
    let hsp := if h.attrBeginning then
        { hsp with attrName := hsp.attrName.clear, attrValue := hsp.attrValue.clear }
      else hsp
    { hsp with attrName := hsp.attrName.put (if hsp.attrNameToLower then tolower c else c) }
  else if h.value then
    let hsp := if h.valueBeginning then { hsp with attrValue := hsp.attrValue.clear } else hsp
    { hsp with attrValue := hsp.attrValue.put (if hsp.attrValToLower then tolower c else c) }
  else hsp

def htmlParserCharParse (hsp : HtmlStreamParser) (c : UInt8) : HtmlStreamParser :=
  htmlParserStore { hsp with toControl := htmlParserControl hsp.toControl c } c

/-! ### Questions asked of the parser -/

def htmlParserTagLength (hsp : HtmlStreamParser) : ℕ :=
  if !hsp.htmlPart.name && hsp.parserState ≠ .scriptSlash && hsp.parserState ≠ .scriptName then
    hsp.tagName.len
  else 0

def htmlParserCmpTag (hsp : HtmlStreamParser) (p : List UInt8) : Bool :=
  htmlParserTagLength hsp = p.length && strncmp p.length (cstr p) hsp.tagName.data

def htmlParserAttrLength (hsp : HtmlStreamParser) : ℕ :=
  if !hsp.htmlPart.attr then hsp.attrName.len else 0

def htmlParserCmpAttr (hsp : HtmlStreamParser) (p : List UInt8) : Bool :=
  htmlParserAttrLength hsp = p.length && strncmp p.length (cstr p) hsp.attrName.data

def htmlParserValLength (hsp : HtmlStreamParser) : ℕ :=
  if !hsp.htmlPart.value then hsp.attrValue.len else 0

def htmlParserInnerTextLength (hsp : HtmlStreamParser) : ℕ :=
  if !hsp.htmlPart.innerText then hsp.innerText.len else 0

/-! ### Blanks -/

/-- `html_parser_ltrim`: the new start and length of a text of `len` bytes at
`src`. -/
def htmlParserLtrim (b : Buf) : ℕ → ℕ → ℕ × ℕ
  | src, 0 => (src, 0)
  | src, len + 1 => if ishtmlspace (b src) then htmlParserLtrim b (src + 1) len else (src, len + 1)

/-- `html_parser_rtrim`: the new length. The source reads `src[len-1]` before
it tests `len`; for `len = 0` the byte read does not matter. -/
def htmlParserRtrim (b : Buf) (src : ℕ) : ℕ → ℕ
  | 0 => 0
  | len + 1 => if ishtmlspace (b (src + len)) then htmlParserRtrim b src len else len + 1

def htmlParserTrim (b : Buf) (src len : ℕ) : ℕ × ℕ :=
  let (src, len) := htmlParserLtrim b src len
  (src, htmlParserRtrim b src len)

/-- The loop of `html_parser_replace_spaces`, in place: `i` bytes are read, `l`
are written back, `n` remain. -/
def replaceSpacesLoop (src : ℕ) : ℕ → ℕ → ℕ → Bool → Buf → Buf × ℕ
  | 0, _, l, _, b => (b, l)
  | n + 1, i, l, ws, b =>
      if !ishtmlspace (b (src + i)) then
        replaceSpacesLoop src n (i + 1) (l + 1) true
          (Function.update b (src + l) (b (src + i)))
      else if ws then
        replaceSpacesLoop src n (i + 1) (l + 1) false (Function.update b (src + l) 32)
      else replaceSpacesLoop src n (i + 1) l ws b

def htmlParserReplaceSpaces (b : Buf) (src len : ℕ) : Buf × ℕ :=
  replaceSpacesLoop src len 0 0 true b

/-- `html_parser_replace_spaces(html_parser_trim(b, &len), &len)`: the buffer,
the pointer returned and the new length. -/
def trimSpaces (b : Buf) (len : ℕ) : Buf × ℕ × ℕ :=
  let (src, len) := htmlParserTrim b 0 len
  let (b, len) := htmlParserReplaceSpaces b src len
  (b, src, len)

end HtmlBenchmark.StreamParser
