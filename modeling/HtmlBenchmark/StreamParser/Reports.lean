import HtmlBenchmark.Library.Transducer
import HtmlBenchmark.StreamParser.Texts

/-!
What a client of the parser is told.

After every byte a client asks `html_parser_is_in` which parts have just ended
and reads their buffers. `client` is that client as a transducer: the reports of
a page are what it puts out along it. `reader` is the same client of a `Reading`.
The two tell the same story up to what the buffers have no room for
(`outputs_client`).

That a text read where its end is reported is complete rests on the flags: in a
state that can be reached at most one text is being read, and the state says
which (`Control.Routed`).
-/

namespace HtmlBenchmark.StreamParser

open Library

/-! ### Which text is being read -/

/-- What the flags of the texts mean in every reachable state. -/
structure Control.Routed (s : Control) : Prop extends s.Ok where
  attr : s.htmlPart.attr ↔ s.parserState = .attributeName
  value : s.htmlPart.value → s.inValue
  nameEnded : s.htmlPart.nameEnded →
    s.parserState = .tagSpace ∨ s.parserState = .innerText ∧ s.htmlPart.tagEnd
  attrEnded : s.htmlPart.attrEnded →
    s.parserState = .tagSpace ∨ s.parserState = .beforeValue ∨
      s.parserState = .innerText ∧ s.htmlPart.tagEnd

theorem Control.routed_initial : ({} : Control).Routed where
  toOk := Control.ok_initial
  attr := by simp
  value := by simp
  nameEnded := by simp
  attrEnded := by simp

theorem Control.Routed.enterScript {s : Control} (h : s.Routed) :
    (htmlParserEnterScript s).Routed := by
  refine ⟨h.toOk.enterScript, ?_, ?_, ?_, ?_⟩ <;> simp only [htmlParserEnterScript] <;> split_ifs
  all_goals first
    | simp
    | exact h.attr
    | exact h.value
    | exact h.nameEnded
    | exact h.attrEnded

theorem Control.Routed.switch {s : Control} (h : s.Routed) (c : UInt8) :
    (htmlParserSwitch s c).Routed := by
  refine ⟨h.toOk.switch c, ?_, ?_, ?_, ?_⟩
  all_goals
    obtain ⟨⟨hinner, htagEnd, hname, hbeginning, hvalueEnded⟩, hattr, hvalue, hnameEnded,
      hattrEnded⟩ := h
    obtain ⟨state, part, len⟩ := s
    cases state <;> simp only [htmlParserSwitch] <;> split_ifs <;> simp_all [Control.inValue]

theorem Control.Routed.control {s : Control} (h : s.Routed) (c : UInt8) :
    (htmlParserControl s c).Routed := by
  have hs := h.enterScript.switch c
  refine ⟨h.toOk.control c, ?_, ?_, ?_, ?_⟩ <;>
    simp only [htmlParserControl, Control.inValue, htmlParserScript_parserState,
      htmlParserScript_htmlPart]
  · exact hs.attr
  · exact hs.value
  · exact hs.nameEnded
  · exact hs.attrEnded

/-- The flags by which a text is being read. -/
def Control.reads (s : Control) : Buffer → Bool
  | .tagName => s.inName
  | .attrName => s.htmlPart.attr
  | .attrValue => s.htmlPart.value
  | .innerText => s.htmlPart.innerText

/-- The text a state reads, if it reads one. -/
def ParserState.readsTo : ParserState → Option Buffer
  | .innerText => some .innerText
  | .tagName | .scriptSlash | .scriptName => some .tagName
  | .attributeName => some .attrName
  | .valueDoubleQuoted | .valueSingleQuoted | .valueUnquoted => some .attrValue
  | .tagBeginning | .tagSpace | .beforeValue | .comment | .script | .scriptLess => none

/-- **Routing.** In a state that can be reached no text is being read but the
one that belongs to the state; so there is at most one. -/
theorem Control.Routed.reads {s : Control} (h : s.Routed) {r : Buffer} (hr : s.reads r) :
    s.parserState.readsTo = some r := by
  cases r with
  | tagName =>
      simp only [Control.reads, Control.inName, Bool.or_eq_true, decide_eq_true_eq, h.name] at hr
      rcases hr with (hs | hs) | hs <;> rw [hs] <;> rfl
  | attrName => rw [h.attr.mp hr]; rfl
  | attrValue =>
      have hin := h.value hr
      rw [Control.inValue] at hin
      split at hin
      · rw [‹s.parserState = _›]; rfl
      · rw [‹s.parserState = _›]; rfl
      · rw [‹s.parserState = _›]; rfl
      · cases hin
  | innerText => rw [(h.inner hr).1]; rfl

theorem Control.Routed.foldl {s : Control} (h : s.Routed) (page : List UInt8) :
    (page.foldl htmlParserControl s).Routed := by
  induction page generalizing s with
  | nil => exact h
  | cons c page ih => exact ih (h.control c)

/-- Where the end of a name or a value is reported, nothing is being read. -/
theorem Control.Routed.not_reads {s : Control} (h : s.Routed)
    (hend : s.htmlPart.nameEnded ∨ s.htmlPart.attrEnded ∨ s.htmlPart.valueEnded) (r : Buffer) :
    s.reads r = false := by
  have hstate : s.parserState = .tagSpace ∨ s.parserState = .beforeValue ∨
      s.parserState = .innerText ∧ s.htmlPart.tagEnd := by
    rcases hend with he | he | he
    · exact (h.nameEnded he).imp_right .inr
    · exact h.attrEnded he
    · exact (h.valueEnded he).imp_right .inr
  by_contra hr
  rw [Bool.not_eq_false] at hr
  have hreads := h.reads hr
  rcases hstate with hs | hs | ⟨hs, htag⟩
  · simp [hs, ParserState.readsTo] at hreads
  · simp [hs, ParserState.readsTo] at hreads
  · -- a tag has just ended, so no text has begun
    obtain rfl : r = .innerText := by simpa [hs, ParserState.readsTo, eq_comm] using hreads
    rw [(h.inner hr).2.1] at htag
    cases htag

/-- **Flags.** After any page, the one text that may be in the reading is that of
the state, and none is where the end of a name or a value is reported. -/
theorem reads_page (page : List UInt8) (r : Buffer)
    (hr : (page.foldl htmlParserControl {}).reads r) :
    (page.foldl htmlParserControl {}).parserState.readsTo = some r ∧
      (page.foldl htmlParserControl {}).htmlPart.nameEnded = false ∧
      (page.foldl htmlParserControl {}).htmlPart.attrEnded = false ∧
      (page.foldl htmlParserControl {}).htmlPart.valueEnded = false := by
  have hrouted := Control.routed_initial.foldl page
  have hnone := fun hend => hrouted.not_reads hend r
  simp only [hr, Bool.true_eq_false, imp_false, not_or, Bool.not_eq_true] at hnone
  exact ⟨hrouted.reads hr, hnone⟩

theorem reads_page_value :
    (((bytes "<a b=c").foldl htmlParserControl {}).parserState.readsTo = some .attrValue ∧
      ((bytes "<a b=c").foldl htmlParserControl {}).htmlPart.nameEnded = false ∧
      ((bytes "<a b=c").foldl htmlParserControl {}).htmlPart.attrEnded = false ∧
      ((bytes "<a b=c").foldl htmlParserControl {}).htmlPart.valueEnded = false) :=
  reads_page (bytes "<a b=c") .attrValue (by decide)

/-! ### The reports -/

/-- What a client is told: that a text has ended, or a name, an attribute's
name, its value, a tag or a comment. -/
inductive Report
  | text (t : List UInt8)
  | name (tag : List UInt8)
  | attr (tag key : List UInt8)
  | value (tag key val : List UInt8)
  | tagEnd (closing : Bool)
  | comment
  deriving DecidableEq, Repr

/-- The reports after one byte, by the flags. -/
def reported (wasText : Bool) (h : HtmlPart) (read : Buffer → List UInt8) : List Report :=
  (if wasText && !h.innerText then [.text (read .innerText)] else []) ++
  (if h.nameEnded then [.name (read .tagName)] else []) ++
  (if h.attrEnded then [.attr (read .tagName) (read .attrName)] else []) ++
  (if h.valueEnded then [.value (read .tagName) (read .attrName) (read .attrValue)] else []) ++
  (if h.tagEnd then [if h.comment && !h.closingTag then .comment else .tagEnd h.closingTag] else [])

/-- What the parser hands out of a buffer: the bytes there, as many as the
length it gives. -/
def HtmlStreamParser.read (hsp : HtmlStreamParser) : Buffer → List UInt8
  | .tagName => readAt hsp.tagName.data 0 (htmlParserTagLength hsp)
  | .attrName => readAt hsp.attrName.data 0 (htmlParserAttrLength hsp)
  | .attrValue => readAt hsp.attrValue.data 0 (htmlParserValLength hsp)
  | .innerText => readAt hsp.innerText.data 0 (htmlParserInnerTextLength hsp)

/-- A client of the parser. -/
def client : Transducer HtmlStreamParser UInt8 Report where
  next := htmlParserCharParse
  out hsp c :=
    let hsp' := htmlParserCharParse hsp c
    reported hsp.htmlPart.innerText hsp'.htmlPart hsp'.read

/-- A client of the parser without its buffers. -/
def reader : Transducer Reading UInt8 Report where
  next := Reading.next
  out rd c :=
    let rd' := rd.next c
    reported rd.htmlPart.innerText rd'.htmlPart rd'.text

def Report.map (k : Buffer → List UInt8 → List UInt8) : Report → Report
  | .text t => .text (k .innerText t)
  | .name tag => .name (k .tagName tag)
  | .attr tag key => .attr (k .tagName tag) (k .attrName key)
  | .value tag key val => .value (k .tagName tag) (k .attrName key) (k .attrValue val)
  | .tagEnd closing => .tagEnd closing
  | .comment => .comment

theorem map_reported (k : Buffer → List UInt8 → List UInt8) (wasText : Bool) (h : HtmlPart)
    (read : Buffer → List UInt8) :
    (reported wasText h read).map (Report.map k) = reported wasText h fun r => k r (read r) := by
  simp only [reported, List.map_append]
  congr 1
  · congr 1
    · congr 1
      · congr 1 <;> split_ifs <;> rfl
      · split_ifs <;> rfl
    · split_ifs <;> rfl
  · split_ifs <;> rfl

/-- Nothing is handed out of a text that is being read, and otherwise all of it. -/
theorem HtmlStreamParser.read_eq (hsp : HtmlStreamParser) (r : Buffer) :
    hsp.read r = if hsp.toControl.reads r then [] else (hsp.textBuf r).text := by
  cases r with
  | tagName =>
      cases hin : hsp.inName with
      | false => simp [read, Control.reads, hin, tagLength_of_not_inName hin, TextBuf.text]
      | true =>
          have hzero : htmlParserTagLength hsp = 0 := by
            simp only [Control.inName, Bool.or_eq_true, decide_eq_true_eq] at hin
            rw [htmlParserTagLength, if_neg]
            rcases hin with (hin | hin) | hin <;> simp [hin]
          simp [read, Control.reads, hin, hzero, readAt]
  | attrName =>
      cases hattr : hsp.htmlPart.attr <;>
        simp [read, Control.reads, htmlParserAttrLength, hattr, TextBuf.text, readAt]
  | attrValue =>
      cases hvalue : hsp.htmlPart.value <;>
        simp [read, Control.reads, htmlParserValLength, hvalue, TextBuf.text, readAt]
  | innerText =>
      cases hinner : hsp.htmlPart.innerText <;>
        simp [read, Control.reads, htmlParserInnerTextLength, hinner, TextBuf.text, readAt]

/-- Reports that read the same are the same. -/
theorem reported_congr {wasText : Bool} {h : HtmlPart} {read read' : Buffer → List UInt8}
    (htext : h.innerText = false → read .innerText = read' .innerText)
    (hends : h.nameEnded ∨ h.attrEnded ∨ h.valueEnded → read = read') :
    reported wasText h read = reported wasText h read' := by
  have hname : h.nameEnded = true → read = read' := fun he => hends (.inl he)
  have hattr : h.attrEnded = true → read = read' := fun he => hends (.inr (.inl he))
  have hvalue : h.valueEnded = true → read = read' := fun he => hends (.inr (.inr he))
  simp only [reported, Bool.and_eq_true, Bool.not_eq_true']
  congr 1
  congr 1
  · congr 1
    · congr 1
      · split_ifs with ht
        · rw [htext ht.2]
        · rfl
      · split_ifs with he
        · rw [hname he]
        · rfl
    · split_ifs with he
      · rw [hattr he]
      · rfl
  · split_ifs with he
    · rw [hvalue he]
    · rfl

/-- The parser as it is used: it keeps what is read, in a state that can be
reached. -/
structure Serves (lower : Buffer → Bool) (room : Buffer → ℕ) (hsp : HtmlStreamParser)
    (rd : Reading) : Prop where
  keptIn : KeptIn lower room hsp rd
  routed : rd.Routed

namespace Serves

variable {lower : Buffer → Bool} {room : Buffer → ℕ} {hsp : HtmlStreamParser} {rd : Reading}

theorem next (h : Serves lower room hsp rd) (c : UInt8) :
    Serves lower room (htmlParserCharParse hsp c) (rd.next c) :=
  ⟨h.keptIn.next c, h.routed.control c⟩

theorem read_eq (h : Serves lower room hsp rd) {r : Buffer} (hr : rd.reads r = false) :
    hsp.read r = kept lower room r (rd.text r) := by
  rw [HtmlStreamParser.read_eq, h.keptIn.control, hr, ← h.keptIn.text]
  rfl

theorem out (h : Serves lower room hsp rd) (c : UInt8) :
    client.out hsp c = (reader.out rd c).map (Report.map (kept lower room)) := by
  have hnext := h.next c
  have hpart : (htmlParserCharParse hsp c).htmlPart = (rd.next c).htmlPart :=
    congrArg Control.htmlPart hnext.keptIn.control
  have hwas : hsp.htmlPart.innerText = rd.htmlPart.innerText :=
    congrArg (·.htmlPart.innerText) h.keptIn.control
  simp only [client, reader, map_reported, hpart, hwas]
  refine reported_congr (fun htext => hnext.read_eq htext) fun hend => ?_
  funext r
  exact hnext.read_eq (hnext.routed.not_reads hend r)

end Serves

/-- **Reports.** However the parser is set up and whatever the page, its client
is told what a client of the texts in full is told, each text as its buffer
keeps it. -/
theorem outputs_client (hsp : HtmlStreamParser) (tag attr val : Bool) (buffer : Buffer → Buf)
    (length : Buffer → ℕ) (page : List UInt8) :
    client.outputs (setUp hsp tag attr val buffer length) page =
      (reader.outputs {} page).map (Report.map (kept (lowered tag attr val) length)) :=
  (Transducer.related (R := Serves (lowered tag attr val) length) (fun _ _ c h => h.next c)
    (fun _ _ c h => h.out c) ⟨keptIn_setUp hsp tag attr val buffer length,
      Control.routed_initial⟩ page).2

end HtmlBenchmark.StreamParser
