import HtmlBenchmark.StreamParser.Accesses
import HtmlBenchmark.StreamParser.Tags

/-!
The parser without its buffers.

A `Reading` is what the parser would hold if there were room for everything and
no letter were changed: state and flags, and the four texts in full. Which text
a byte belongs to, and which texts it begins, is decided by the flags alone, so
a `Reading` moves without the parser.

`KeptIn` says how the parser stands to it: a buffer holds as much of its text as
it has room for, in lower case where that was asked for, and `real_len` is the
length of the text in full. Every byte keeps the relation, from any set-up of the
parser on.
-/

namespace HtmlBenchmark.StreamParser

/-! ### Where a byte goes -/

/-- The buffer the byte goes to that led to this state. -/
def Control.goesTo (s : Control) : Option Buffer :=
  if s.htmlPart.innerText then some .innerText
  else if s.inName then some .tagName
  else if s.htmlPart.attr then some .attrName
  else if s.htmlPart.value then some .attrValue
  else none

/-- The texts the byte begins. -/
def Control.begins (s : Control) (r : Buffer) : Bool :=
  match s.goesTo with
  | none => false
  | some .innerText => r = .innerText && s.htmlPart.innerTextBeginning
  | some .tagName => r ≠ .innerText && s.startsName
  | some .attrName => (r = .attrName || r = .attrValue) && s.htmlPart.attrBeginning
  | some .attrValue => r = .attrValue && s.htmlPart.valueBeginning

theorem goesTo_eq (hsp : HtmlStreamParser) (c : UInt8) :
    goesTo hsp c = (htmlParserControl hsp.toControl c).goesTo := rfl

theorem begins_eq (hsp : HtmlStreamParser) (c : UInt8) (r : Buffer) :
    begins hsp c r = (htmlParserControl hsp.toControl c).begins r := rfl

/-- State and flags, and the four texts in full. -/
structure Reading extends Control where
  text : Buffer → List UInt8 := fun _ => []

/-- A text one byte later, `s` being the state the byte leads to. -/
def Control.grown (s : Control) (r : Buffer) (t : List UInt8) (c : UInt8) : List UInt8 :=
  (if s.begins r then [] else t) ++ if s.goesTo = some r then [c] else []

def Reading.next (rd : Reading) (c : UInt8) : Reading :=
  let s := htmlParserControl rd.toControl c
  { toControl := s, text := fun r => s.grown r (rd.text r) c }

theorem Reading.next_toControl (rd : Reading) (c : UInt8) :
    (rd.next c).toControl = htmlParserControl rd.toControl c := rfl

theorem Reading.next_text (rd : Reading) (c : UInt8) (r : Buffer) :
    (rd.next c).text r = (htmlParserControl rd.toControl c).grown r (rd.text r) c := rfl

/-! ### What the buffers keep -/

def cased (lower : Bool) (c : UInt8) : UInt8 := if lower then tolower c else c

def kept (lower : Buffer → Bool) (room : Buffer → ℕ) (r : Buffer) (t : List UInt8) :
    List UInt8 :=
  (t.map (cased (lower r))).take (room r)

/-- A buffer holds a text, up to its room. -/
structure TextBuf.Holds (b : TextBuf) (t : List UInt8) : Prop where
  realLen : b.realLen = t.length
  text : b.text = t.take b.maxLen

namespace TextBuf.Holds

variable {b : TextBuf} {t : List UInt8}

theorem len_le (h : b.Holds t) : b.len ≤ b.maxLen := by
  have hlen := congrArg List.length h.text
  rw [length_text, List.length_take] at hlen
  omega

theorem clearIf (h : b.Holds t) (fresh : Bool) :
    (b.clearIf fresh).Holds (if fresh then [] else t) := by
  cases fresh with
  | false => exact h
  | true => exact ⟨rfl, List.take_nil.symm⟩

theorem put (h : b.Holds t) (c : UInt8) : (b.put c).Holds (t ++ [c]) where
  realLen := by
    rw [List.length_append, ← h.realLen, TextBuf.put]
    split_ifs <;> rfl
  text := by
    rw [text_put, put_maxLen, Nat.max_eq_right h.len_le, h.text]
    -- what has been cut off already makes no difference to what is cut off now
    rw [List.take_append, List.take_append, List.take_take, Nat.min_self, List.length_take]
    congr 2
    omega

end TextBuf.Holds

/-- The parser keeps what is read, in buffers of these cases and sizes. -/
structure KeptIn (lower : Buffer → Bool) (room : Buffer → ℕ) (hsp : HtmlStreamParser)
    (rd : Reading) : Prop where
  control : hsp.toControl = rd.toControl
  casing : ∀ r c, keptAs hsp c r = cased (lower r) c
  maxLen : ∀ r, (hsp.textBuf r).maxLen = room r
  realLen : ∀ r, (hsp.textBuf r).realLen = (rd.text r).length
  text : ∀ r, (hsp.textBuf r).text = kept lower room r (rd.text r)

theorem keptAs_charParse (hsp : HtmlStreamParser) (c d : UInt8) (r : Buffer) :
    keptAs (htmlParserCharParse hsp c) d r = keptAs hsp d r := by
  cases r <;> simp [keptAs]

theorem maxLen_charParse (hsp : HtmlStreamParser) (c : UInt8) (r : Buffer) :
    ((htmlParserCharParse hsp c).textBuf r).maxLen = (hsp.textBuf r).maxLen := by
  rw [charParse_textBuf]
  dsimp only
  split_ifs <;> simp

namespace KeptIn

variable {lower : Buffer → Bool} {room : Buffer → ℕ} {hsp : HtmlStreamParser} {rd : Reading}

theorem holds (h : KeptIn lower room hsp rd) (r : Buffer) :
    (hsp.textBuf r).Holds ((rd.text r).map (cased (lower r))) where
  realLen := by rw [h.realLen, List.length_map]
  text := by rw [h.text, h.maxLen, kept]

theorem next (h : KeptIn lower room hsp rd) (c : UInt8) :
    KeptIn lower room (htmlParserCharParse hsp c) (rd.next c) := by
  have hholds : ∀ r, ((htmlParserCharParse hsp c).textBuf r).Holds
      (((rd.next c).text r).map (cased (lower r))) := by
    intro r
    have hclear := (h.holds r).clearIf ((htmlParserControl rd.toControl c).begins r)
    rw [charParse_textBuf, goesTo_eq, begins_eq, h.control, h.casing, Reading.next_text,
      Control.grown]
    dsimp only
    by_cases hgoes : (htmlParserControl rd.toControl c).goesTo = some r
    · have hput := hclear.put (cased (lower r) c)
      rw [if_pos hgoes, if_pos hgoes, List.map_append]
      split_ifs at hput ⊢ <;> exact hput
    · rw [if_neg hgoes, if_neg hgoes, List.append_nil]
      split_ifs at hclear ⊢ <;> exact hclear
  have hroom : ∀ r, ((htmlParserCharParse hsp c).textBuf r).maxLen = room r := fun r => by
    rw [maxLen_charParse, h.maxLen]
  exact
    { control := by rw [charParse_toControl, h.control, Reading.next_toControl]
      casing := fun r d => by rw [keptAs_charParse, h.casing]
      maxLen := hroom
      realLen := fun r => by rw [(hholds r).realLen, List.length_map]
      text := fun r => by rw [(hholds r).text, hroom, kept] }

theorem run (h : KeptIn lower room hsp rd) (page : List UInt8) :
    KeptIn lower room (page.foldl htmlParserCharParse hsp) (page.foldl Reading.next rd) := by
  induction page generalizing hsp rd with
  | nil => exact h
  | cons c page ih => exact ih (h.next c)

end KeptIn

/-! ### Setting the parser up -/

def htmlParserSetValToLower (hsp : HtmlStreamParser) (c : Bool) : HtmlStreamParser :=
  { hsp with attrValToLower := c }

/-- The cases asked for with the three `set_..._to_lower`; a text is never
changed. -/
def lowered (tag attr val : Bool) : Buffer → Bool
  | .tagName => tag
  | .attrName => attr
  | .attrValue => val
  | .innerText => false

/-- A parser as a client sets it up, with whatever it was before. -/
def setUp (hsp : HtmlStreamParser) (tag attr val : Bool) (buffer : Buffer → Buf)
    (length : Buffer → ℕ) : HtmlStreamParser :=
  let hsp := htmlParserReset hsp
  let hsp := htmlParserSetTagToLower hsp tag
  let hsp := htmlParserSetAttrToLower hsp attr
  let hsp := htmlParserSetValToLower hsp val
  let hsp := htmlParserSetTagBuffer hsp (buffer .tagName) (length .tagName)
  let hsp := htmlParserSetAttrBuffer hsp (buffer .attrName) (length .attrName)
  let hsp := htmlParserSetValBuffer hsp (buffer .attrValue) (length .attrValue)
  htmlParserSetInnerTextBuffer hsp (buffer .innerText) (length .innerText)

theorem keptIn_setUp (hsp : HtmlStreamParser) (tag attr val : Bool) (buffer : Buffer → Buf)
    (length : Buffer → ℕ) :
    KeptIn (lowered tag attr val) length (setUp hsp tag attr val buffer length) {} where
  control := rfl
  casing r c := by cases r <;> rfl
  maxLen r := by cases r <;> rfl
  realLen r := by cases r <;> rfl
  text r := by
    rw [kept, List.map_nil, List.take_nil]
    cases r <;> rfl

/-- However the parser is set up and whatever the page, it keeps what the parser
without buffers reads. -/
theorem keptIn_page (hsp : HtmlStreamParser) (tag attr val : Bool) (buffer : Buffer → Buf)
    (length : Buffer → ℕ) (page : List UInt8) :
    KeptIn (lowered tag attr val) length
      (page.foldl htmlParserCharParse (setUp hsp tag attr val buffer length))
      (page.foldl Reading.next {}) :=
  (keptIn_setUp hsp tag attr val buffer length).run page

/-! ### Questions -/

/-- `strncmp` with a name without a 0 compares all of it. -/
theorem strncmp_cstr_iff {name : List UInt8} (hnul : 0 ∉ name) (b : Buf) :
    strncmp name.length (cstr name) b = true ↔ readAt b 0 name.length = name := by
  rw [strncmp]
  induction name generalizing b with
  | nil => simp [cmpn, readAt]
  | cons c name ih =>
      simp only [List.mem_cons, not_or] at hnul
      have htail : (fun i => cstr (c :: name) (i + 1)) = cstr name := rfl
      have hhead : cstr (c :: name) 0 = c := rfl
      rw [List.length_cons, cmpn, htail, readAt, readAt_shift, hhead, List.cons.injEq,
        Bool.and_eq_true, Bool.or_eq_true, ih hnul.2, beq_iff_eq, beq_iff_eq, id, id]
      constructor
      · rintro ⟨heq, hrest⟩
        exact ⟨heq.symm, hrest.resolve_left fun hz => hnul.1 hz.symm⟩
      · rintro ⟨heq, hrest⟩
        exact ⟨heq.symm, .inr hrest⟩

section Questions

variable {lower : Buffer → Bool} {room : Buffer → ℕ} {hsp : HtmlStreamParser} {rd : Reading}
  {name : List UInt8}

/-- What a comparison of a length and that many bytes asks of a buffer. -/
theorem cmp_iff (b : Buf) (len : ℕ) (hnul : 0 ∉ name) :
    (decide (len = name.length) && strncmp name.length (cstr name) b) = true ↔
      readAt b 0 len = name := by
  rw [Bool.and_eq_true, decide_eq_true_eq, strncmp_cstr_iff hnul]
  constructor
  · rintro ⟨hlen, htext⟩
    rw [hlen, htext]
  · intro htext
    have hlen := congrArg List.length htext
    rw [length_readAt] at hlen
    exact ⟨hlen, by rw [← hlen, htext]⟩

/-- **`html_parser_cmp_tag`** says that a name is no longer being read and that
the last one read is this one. -/
theorem KeptIn.cmpTag_iff (h : KeptIn lower room hsp rd) (hne : name ≠ []) (hnul : 0 ∉ name) :
    htmlParserCmpTag hsp name = true ↔
      rd.inName = false ∧ kept lower room .tagName (rd.text .tagName) = name := by
  rw [← h.text .tagName, textBuf_tagName, ← h.control]
  constructor
  · intro hcmp
    have hin := not_inName_of_cmpTag (List.length_pos_iff.mpr hne) hcmp
    rw [htmlParserCmpTag, tagLength_of_not_inName hin] at hcmp
    exact ⟨hin, (cmp_iff _ _ hnul).mp hcmp⟩
  · rintro ⟨hin, htext⟩
    rw [htmlParserCmpTag, tagLength_of_not_inName hin]
    exact (cmp_iff _ _ hnul).mpr htext

/-- `html_parser_cmp_attr` the same. -/
theorem KeptIn.cmpAttr_iff (h : KeptIn lower room hsp rd) (hne : name ≠ []) (hnul : 0 ∉ name) :
    htmlParserCmpAttr hsp name = true ↔
      rd.htmlPart.attr = false ∧ kept lower room .attrName (rd.text .attrName) = name := by
  rw [← h.text .attrName, textBuf_attrName, ← h.control, htmlParserCmpAttr, htmlParserAttrLength]
  cases hattr : hsp.htmlPart.attr with
  | true =>
      have hlen : 0 ≠ name.length := (List.length_pos_iff.mpr hne).ne
      simp [hlen]
  | false =>
      have hcmp := cmp_iff hsp.attrName.data hsp.attrName.len hnul
      simpa [TextBuf.text] using hcmp

end Questions

end HtmlBenchmark.StreamParser
