import HtmlBenchmark.StreamParser.Letters

/-!
The bytes of attributes, comments and scripts.

The name of an attribute empties both buffers, its own and that of the value;
from there on the value grows until a quote, a blank or the `>` ends it. Within a
comment and a script nothing is reported until they close.
-/

namespace HtmlBenchmark.StreamParser

open Library

/-! ### Names of attributes -/

section Names

variable (n : List UInt8) (closing : Bool)

/-- A byte that goes on the name of an attribute, told apart from the others. -/
theorem attrByte_iff {c : UInt8} :
    attrByte c ↔ c ≠ '>'.toUInt8 ∧ ishtmlspace c = false ∧ c ≠ '='.toUInt8 := by
  simp [attrByte, nameByte, and_assoc]

theorem nameByte_iff {c : UInt8} : nameByte c ↔ c ≠ '>'.toUInt8 ∧ ishtmlspace c = false := by
  simp [nameByte]

theorem triple_attr_first {c : UInt8} (hc : attrByte c) :
    reader.Triple (Standing n closing .space) [c] [] (Standing n closing (.attr [c])) := by
  refine triple_letter fun rd h => ?_
  obtain ⟨hgt, hblank, heq⟩ := attrByte_iff.mp hc
  cases h with
  | space h hstate =>
      obtain ⟨hnext, hin⟩ := h.next (.inr (by rw [Control.inTag, hstate])) (c := c) rfl
        (by simp [htmlParserSwitch, hstate, hgt, hblank, heq])
      have hattr : (rd.next c).htmlPart.attr = true ∧ (rd.next c).htmlPart.attrBeginning = true ∧
          (rd.next c).parserState = .attributeName := by
        rw [hnext]
        simp [htmlParserSwitch, hstate, hgt, hblank, heq]
      obtain ⟨hattr, hbegin, hstate'⟩ := hattr
      have htext := Reading.text_of_reads hin.routed (r := .attrName) hattr
      simp only [Control.begins, hin.routed.goesTo_eq (r := .attrName) hattr, hbegin] at htext
      have hkey : (rd.next c).text .attrName = [c] := by simp [htext]
      have hval : (rd.next c).text .attrValue = [] := by simp [htext]
      refine ⟨reported_quiet (hin.routed.quiet (by rw [hstate']; rfl))
        (.inl (h.routed.not_innerText (by simp [hstate]))) _, ?_⟩
      rw [← hkey]
      exact .attr hin hstate' hval

theorem triple_attr {c : UInt8} (hc : attrByte c) (key : List UInt8) :
    reader.Triple (Standing n closing (.attr key)) [c] []
      (Standing n closing (.attr (key ++ [c]))) := by
  refine triple_letter fun rd h => ?_
  obtain ⟨hgt, hblank, heq⟩ := attrByte_iff.mp hc
  cases h with
  | attr h hstate hval =>
      obtain ⟨hnext, hin⟩ := h.next (.inr (by rw [Control.inTag, hstate])) (c := c) rfl
        (by simp [htmlParserSwitch, hstate, hgt, hblank, heq])
      have hstate' : (rd.next c).parserState = .attributeName := by
        rw [hnext]
        simp [htmlParserSwitch, hstate, hgt, hblank, heq]
      have hbegin : (rd.next c).htmlPart.attrBeginning = false := by
        rw [hnext]
        simp [htmlParserSwitch, hstate, hgt, hblank, heq]
      have hattr := hin.routed.attr.mpr hstate'
      have htext := Reading.text_of_reads hin.routed (r := .attrName) hattr
      simp only [Control.begins, hin.routed.goesTo_eq (r := .attrName) hattr, hbegin] at htext
      have hkey : (rd.next c).text .attrName = rd.text .attrName ++ [c] := by simp [htext]
      have hval' : (rd.next c).text .attrValue = [] := by simp [htext, hval]
      refine ⟨reported_quiet (hin.routed.quiet (by rw [hstate']; rfl))
        (.inl (h.routed.not_innerText (by simp [hstate]))) _, ?_⟩
      rw [← hkey]
      exact .attr hin hstate' hval'

/-! ### Up to the value -/

/-- The attribute `key` has been read, and no value yet. -/
structure Keyed (state : ParserState) (key : List UInt8) (rd : Reading) : Prop where
  inTag : InTag n closing rd
  state : rd.parserState = state
  key : rd.text .attrName = key
  val : rd.text .attrValue = []

/-- A byte behind an attribute's name that is part of no text. -/
theorem Keyed.next {n : List UInt8} {closing : Bool} {key : List UInt8} {rd : Reading} {c : UInt8}
    (state : ParserState) (h : InTag n closing rd) (hin : rd.inTag)
    (hkey : rd.text .attrName = key) (hval : rd.text .attrValue = [])
    (hstate : (htmlParserSwitch rd.toControl c).parserState = state)
    (hnone : state.readsTo = none) :
    (rd.next c).toControl = htmlParserSwitch rd.toControl c ∧ (rd.next c).text = rd.text ∧
      Keyed n closing state key (rd.next c) := by
  obtain ⟨hnext, hin'⟩ := h.next (.inr hin) (c := c) rfl (by
    rw [hstate]
    rintro rfl
    cases hnone)
  have htext := Reading.text_of_ended hin'.routed (.inr (by rw [hnext, hstate]; exact hnone))
  exact ⟨hnext, htext, hin', by rw [hnext, hstate], by rw [htext, hkey], by rw [htext, hval]⟩

theorem triple_key_end {c : UInt8} (hc : c = '='.toUInt8 ∨ ishtmlspace c) (key : List UInt8) :
    reader.Triple (Standing n closing (.attr key)) [c] [.attr n key]
      (Keyed n closing (if c = '='.toUInt8 then .beforeValue else .tagSpace) key) := by
  refine triple_letter fun rd h => ?_
  have hgt : c ≠ '>'.toUInt8 := by
    rintro rfl
    rcases hc with hc | hc <;> cases hc
  have hne : '='.toUInt8 ≠ '>'.toUInt8 := by decide
  have hblank : c ≠ '='.toUInt8 → ishtmlspace c := hc.resolve_left
  cases h with
  | attr h hstate hval =>
      have hq := h.routed.quiet (by rw [hstate]; rfl)
      have hwas := h.routed.not_innerText (by simp [hstate])
      have hin : rd.inTag := by rw [Control.inTag, hstate]
      obtain ⟨hnext, htext, hkeyed⟩ := Keyed.next (c := c)
        (if c = '='.toUInt8 then .beforeValue else .tagSpace) h hin rfl hval
        (by by_cases heq : c = '='.toUInt8 <;>
          simp [htmlParserSwitch, hstate, hgt, heq, hne, hblank])
        (by split_ifs <;> rfl)
      refine ⟨?_, hkeyed⟩
      rw [htext, hnext]
      by_cases heq : c = '='.toUInt8 <;>
        simp [reported, htmlParserSwitch, hstate, hgt, heq, hne, hblank, hwas, hq.nameEnded,
          hq.valueEnded, hq.tagEnd, h.name]

theorem Control.Routed.tagEnd_eq_false {s : Control} (h : s.Routed)
    (hs : s.parserState ≠ .innerText) : s.htmlPart.tagEnd = false := by
  by_contra he
  exact hs (h.tagEnd (by simpa using he))

theorem triple_key_blank {c : UInt8} (hc : ishtmlspace c) (key : List UInt8) :
    reader.Triple (Keyed n closing .tagSpace key) [c] [] (Keyed n closing .tagSpace key) := by
  refine triple_letter fun rd h => ?_
  have hwas := h.inTag.routed.not_innerText (by simp [h.state])
  have htag := h.inTag.routed.tagEnd_eq_false (by simp [h.state])
  obtain ⟨hnext, -, hkeyed⟩ := Keyed.next (c := c) .tagSpace h.inTag
    (by rw [Control.inTag, h.state]) h.key h.val (by simp [htmlParserSwitch, h.state, hc]) rfl
  refine ⟨?_, hkeyed⟩
  rw [hnext]
  simp [reported, htmlParserSwitch, h.state, hc, hwas, htag]

theorem triple_equals (key : List UInt8) :
    reader.Triple (Keyed n closing .tagSpace key) ['='.toUInt8] []
      (Keyed n closing .beforeValue key) := by
  refine triple_letter fun rd h => ?_
  have hne : '='.toUInt8 ≠ '>'.toUInt8 := by decide
  have hblank : ishtmlspace '='.toUInt8 = false := by decide
  have hwas := h.inTag.routed.not_innerText (by simp [h.state])
  have htag := h.inTag.routed.tagEnd_eq_false (by simp [h.state])
  obtain ⟨hnext, -, hkeyed⟩ := Keyed.next (c := '='.toUInt8) .beforeValue h.inTag
    (by rw [Control.inTag, h.state]) h.key h.val
    (by simp [htmlParserSwitch, h.state, hne, hblank]) rfl
  refine ⟨?_, hkeyed⟩
  rw [hnext]
  simp [reported, htmlParserSwitch, h.state, hne, hblank, hwas, htag]

/-- The flags in front of a value. -/
theorem Control.Routed.beforeValue {s : Control} (h : s.Routed)
    (hs : s.parserState = .beforeValue) :
    s.htmlPart.innerText = false ∧ s.htmlPart.nameEnded = false ∧
      s.htmlPart.valueEnded = false ∧ s.htmlPart.tagEnd = false ∧ s.htmlPart.value = false := by
  have hname := h.nameEnded
  have hended := h.valueEnded
  have hvalue := h.value
  refine ⟨h.not_innerText (by simp [hs]), ?_, ?_, h.tagEnd_eq_false (by simp [hs]), ?_⟩
  · by_contra he
    simp [he, hs] at hname
  · by_contra he
    simp [he, hs] at hended
  · by_contra he
    simp [he, hs, Control.inValue] at hvalue

theorem triple_value_blank {c : UInt8} (hc : ishtmlspace c) (key : List UInt8) :
    reader.Triple (Keyed n closing .beforeValue key) [c] [] (Keyed n closing .beforeValue key) := by
  refine triple_letter fun rd h => ?_
  obtain ⟨hwas, hname, hended, htag, -⟩ := h.inTag.routed.beforeValue h.state
  obtain ⟨hnext, -, hkeyed⟩ := Keyed.next (c := c) .beforeValue h.inTag
    (by rw [Control.inTag, h.state]) h.key h.val (by simp [htmlParserSwitch, h.state, hc]) rfl
  refine ⟨?_, hkeyed⟩
  rw [hnext]
  simp [reported, htmlParserSwitch, h.state, hc, hwas, hname, hended, htag]

/-! ### Values -/

def Quote.state : Quote → ParserState
  | .double => .valueDoubleQuoted
  | .single => .valueSingleQuoted

/-- Behind an opening quote. The first byte of a value between double quotes
begins it, so nothing can have been read before. -/
structure Quoted (q : Quote) (key v : List UInt8) (rd : Reading) : Prop where
  inTag : InTag n closing rd
  state : rd.parserState = q.state
  key : rd.text .attrName = key
  val : rd.text .attrValue = v
  fresh : rd.htmlPart.value = false → v = []

theorem htmlParserSwitch_quote_open {s : Control} (hstate : s.parserState = .beforeValue)
    (q : Quote) :
    htmlParserSwitch s q.byte = { s with
      parserState := q.state
      htmlPart := { s.htmlPart with
        equality := false, attrEnded := false, space := false, valueQuoted := true
        valueDoubleQuoted := q = .double || s.htmlPart.valueDoubleQuoted
        valueSingleQuoted := q = .single || s.htmlPart.valueSingleQuoted } } := by
  have hbyte : q.byte ≠ '>'.toUInt8 ∧ ishtmlspace q.byte = false := by cases q <;> decide
  have hne : '\''.toUInt8 ≠ '"'.toUInt8 := by decide
  cases q with
  | double => simp_all [htmlParserSwitch, Quote.byte, Quote.state]
  | single => simp_all [htmlParserSwitch, Quote.byte, Quote.state]

/-- The state behind an opening quote reads values, but its flag is not set yet. -/
theorem Reading.text_quote_open {rd : Reading} {q : Quote} (h : (rd.next q.byte).Routed)
    (hstate : (rd.next q.byte).parserState = q.state)
    (hvalue : (rd.next q.byte).htmlPart.value = false) : (rd.next q.byte).text = rd.text := by
  refine Reading.text_of_not_reads fun r => ?_
  by_contra hr
  have hsome := h.reads (by simpa using hr)
  obtain rfl : r = .attrValue := by
    rw [hstate] at hsome
    cases q <;> simpa [Quote.state, ParserState.readsTo, eq_comm] using hsome
  exact hr hvalue

theorem triple_quote_open (q : Quote) (key : List UInt8) :
    reader.Triple (Keyed n closing .beforeValue key) [q.byte] [] (Quoted n closing q key []) := by
  refine triple_letter fun rd h => ?_
  obtain ⟨hwas, hname, hended, htag, hvalue⟩ := h.inTag.routed.beforeValue h.state
  obtain ⟨hnext, hin⟩ := h.inTag.next (.inr (by rw [Control.inTag, h.state]))
    (htmlParserSwitch_quote_open h.state q) (by cases q <;> simp [Quote.state])
  have hvalue' : (rd.next q.byte).htmlPart.value = false := by rw [hnext, hvalue]
  have htext := Reading.text_quote_open hin.routed (by rw [hnext]) hvalue'
  refine ⟨reported_quiet (hin.routed.quiet ?_) (.inl hwas) _, hin, by rw [hnext], ?_, ?_,
    fun _ => rfl⟩
  · rw [hnext]
    cases q <;> rfl
  · rw [htext, h.key]
  · rw [htext, h.val]

/-- Between quotes the value begins at the first byte, but not between single ones. -/
theorem htmlParserSwitch_quoted {s : Control} {q : Quote} (hstate : s.parserState = q.state)
    {c : UInt8} (hc : c ≠ q.byte) :
    htmlParserSwitch s c = { s with
      htmlPart := { s.htmlPart with
        value := true, valueBeginning := q = .double && !s.htmlPart.value } } := by
  cases q with
  | double =>
      have hc' : c ≠ '"'.toUInt8 := hc
      cases hvalue : s.htmlPart.value <;>
        simp [htmlParserSwitch, hstate, Quote.state, hc', hvalue]
  | single =>
      have hc' : c ≠ '\''.toUInt8 := hc
      simp [htmlParserSwitch, hstate, Quote.state, hc']

theorem htmlParserSwitch_quote_close {s : Control} {q : Quote} (hstate : s.parserState = q.state) :
    (htmlParserSwitch s q.byte).parserState = .tagSpace := by
  cases q <;> simp [htmlParserSwitch, hstate, Quote.state, Quote.byte]

theorem triple_quoted {q : Quote} {c : UInt8} (hc : c ≠ q.byte) (key v : List UInt8) :
    reader.Triple (Quoted n closing q key v) [c] [] (Quoted n closing q key (v ++ [c])) := by
  refine triple_letter fun rd h => ?_
  have hwas := h.inTag.routed.not_innerText (by rw [h.state]; cases q <;> simp [Quote.state])
  obtain ⟨hnext, hin⟩ := h.inTag.next
    (.inr (by rw [Control.inTag, h.state]; cases q <;> rfl)) (htmlParserSwitch_quoted h.state hc)
    (by rw [h.state]; cases q <;> simp [Quote.state])
  have hreads : (rd.next c).reads .attrValue := by simp [Control.reads, hnext]
  have htext := Reading.text_of_reads hin.routed hreads
  have hbegin : (rd.next c).htmlPart.valueBeginning = (q = .double && !rd.htmlPart.value) := by
    rw [hnext]
  simp only [Control.begins, hin.routed.goesTo_eq hreads, hbegin] at htext
  have hval : (rd.next c).text .attrValue = v ++ [c] := by
    rw [htext, h.val]
    cases hvalue : rd.htmlPart.value with
    | false => simp [h.fresh hvalue]
    | true => simp
  have hstate : (rd.next c).parserState = q.state := by rw [hnext, h.state]
  refine ⟨reported_quiet (hin.routed.quiet ?_) (.inl hwas) _, hin, hstate, ?_, hval, ?_⟩
  · rw [hstate]
    cases q <;> rfl
  · simp [htext, h.key]
  · have hvalue : (rd.next c).htmlPart.value = true := hreads
    simp [hvalue]

theorem triple_quote_close (q : Quote) (key v : List UInt8) :
    reader.Triple (Quoted n closing q key v) [q.byte] [.value n key v]
      (Standing n closing .space) := by
  refine triple_letter fun rd h => ?_
  have hwas := h.inTag.routed.not_innerText (by rw [h.state]; cases q <;> simp [Quote.state])
  have hq := h.inTag.routed.quiet (by rw [h.state]; cases q <;> rfl)
  have hstate := htmlParserSwitch_quote_close h.state
  obtain ⟨hnext, hin⟩ := h.inTag.next
    (.inr (by rw [Control.inTag, h.state]; cases q <;> rfl)) (c := q.byte) rfl (by simp [hstate])
  have htext := Reading.text_of_ended hin.routed (.inr (by rw [hnext, hstate]; rfl))
  refine ⟨?_, .space hin (by rw [hnext, hstate])⟩
  rw [htext, hnext]
  have hs := h.state
  cases q with
  | double =>
      cases hvalue : rd.htmlPart.value <;>
        simp [reported, htmlParserSwitch, hs, Quote.state, Quote.byte, hwas, hq.nameEnded,
          hq.attrEnded, hq.tagEnd, hvalue, h.inTag.name, h.key, h.val]
  | single =>
      simp [reported, htmlParserSwitch, hs, Quote.state, Quote.byte, hwas, hq.nameEnded,
        hq.attrEnded, hq.tagEnd, h.inTag.name, h.key, h.val]

theorem triple_bare_first {c : UInt8} (hc : nameByte c) (hquote : ∀ q : Quote, c ≠ q.byte)
    (key : List UInt8) :
    reader.Triple (Keyed n closing .beforeValue key) [c] []
      (Standing n closing (.value key [c])) := by
  refine triple_letter fun rd h => ?_
  obtain ⟨hgt, hblank⟩ := nameByte_iff.mp hc
  have hdouble : c ≠ '"'.toUInt8 := hquote .double
  have hsingle : c ≠ '\''.toUInt8 := hquote .single
  obtain ⟨hwas, -⟩ := h.inTag.routed.beforeValue h.state
  obtain ⟨hnext, hin⟩ := h.inTag.next (.inr (by rw [Control.inTag, h.state])) (c := c) rfl
    (by simp [htmlParserSwitch, h.state, hgt, hblank, hdouble, hsingle])
  have hafter : (rd.next c).htmlPart.value = true ∧ (rd.next c).htmlPart.valueBeginning = true ∧
      (rd.next c).parserState = .valueUnquoted := by
    rw [hnext]
    simp [htmlParserSwitch, h.state, hgt, hblank, hdouble, hsingle]
  obtain ⟨hvalue, hbegin, hstate⟩ := hafter
  have htext := Reading.text_of_reads hin.routed (r := .attrValue) hvalue
  simp only [Control.begins, hin.routed.goesTo_eq (r := .attrValue) hvalue, hbegin] at htext
  have hkey : (rd.next c).text .attrName = key := by simp [htext, h.key]
  have hval : (rd.next c).text .attrValue = [c] := by simp [htext]
  refine ⟨reported_quiet (hin.routed.quiet (by rw [hstate]; rfl)) (.inl hwas) _, ?_⟩
  rw [← hkey, ← hval]
  exact .value hin hstate hvalue

theorem triple_bare {c : UInt8} (hc : nameByte c) (key v : List UInt8) :
    reader.Triple (Standing n closing (.value key v)) [c] []
      (Standing n closing (.value key (v ++ [c]))) := by
  refine triple_letter fun rd h => ?_
  obtain ⟨hgt, hblank⟩ := nameByte_iff.mp hc
  cases h with
  | value h hstate hvalue =>
      obtain ⟨hnext, hin⟩ := h.next (.inr (by rw [Control.inTag, hstate])) (c := c) rfl
        (by simp [htmlParserSwitch, hstate, hgt, hblank])
      have hafter : (rd.next c).htmlPart.value = true ∧
          (rd.next c).htmlPart.valueBeginning = false ∧
          (rd.next c).parserState = .valueUnquoted := by
        rw [hnext]
        simp [htmlParserSwitch, hstate, hgt, hblank, hvalue]
      obtain ⟨hvalue', hbegin, hstate'⟩ := hafter
      have htext := Reading.text_of_reads hin.routed (r := .attrValue) hvalue'
      simp only [Control.begins, hin.routed.goesTo_eq (r := .attrValue) hvalue', hbegin] at htext
      have hkey : (rd.next c).text .attrName = rd.text .attrName := by simp [htext]
      have hval : (rd.next c).text .attrValue = rd.text .attrValue ++ [c] := by simp [htext]
      refine ⟨reported_quiet (hin.routed.quiet (by rw [hstate']; rfl))
        (.inl (h.routed.not_innerText (by simp [hstate]))) _, ?_⟩
      rw [← hkey, ← hval]
      exact .value hin hstate' hvalue'

end Names

end HtmlBenchmark.StreamParser
