import HtmlBenchmark.StreamParser.Flags

/-!
The tag the parser reports.

`html_parser_cmp_tag` answers from the name last written, long after the tag it
belongs to has ended. What can be relied on is this: a tag without a slash
starts to be reported only where its name has just been read, and from there
until its end it is reported at every byte.
-/

namespace HtmlBenchmark.StreamParser

theorem tagLength_of_not_inName {hsp : HtmlStreamParser} (h : hsp.inName = false) :
    htmlParserTagLength hsp = hsp.tagName.len := by
  simp only [Control.inName, Bool.or_eq_false_iff, decide_eq_false_iff_not] at h
  simp [htmlParserTagLength, h]

theorem not_inName_of_cmpTag {hsp : HtmlStreamParser} {s : List UInt8} (hs : 0 < s.length)
    (h : htmlParserCmpTag hsp s) : hsp.inName = false := by
  simp only [htmlParserCmpTag, Bool.and_eq_true, decide_eq_true_eq] at h
  by_contra hin
  have hzero : htmlParserTagLength hsp = 0 := by
    simp only [Bool.not_eq_false, Control.inName, Bool.or_eq_true, decide_eq_true_eq] at hin
    simp only [htmlParserTagLength]
    rw [if_neg]
    rcases hin with (hin | hin) | hin <;> simp [hin]
  omega

/-- A comparison that succeeds has compared the first byte. -/
theorem cmpTag_first {hsp : HtmlStreamParser} {s : List UInt8} (hs : 0 < s.length)
    (h : htmlParserCmpTag hsp s) : cstr s 0 = hsp.tagName.data 0 := by
  obtain ⟨n, hn⟩ := Nat.exists_eq_succ_of_ne_zero (Nat.pos_iff_ne_zero.mp hs)
  simp only [htmlParserCmpTag, strncmp, hn, cmpn, Bool.and_eq_true, id_eq, beq_iff_eq] at h
  exact h.2.1

theorem cmpTag_congr {p q : HtmlStreamParser} (hp : p.inName = false) (hq : q.inName = false)
    (htag : p.tagName = q.tagName) (s : List UInt8) :
    htmlParserCmpTag p s = htmlParserCmpTag q s := by
  simp [htmlParserCmpTag, tagLength_of_not_inName hp, tagLength_of_not_inName hq, htag]

theorem charParse_tagName_of_not_inName {p : HtmlStreamParser} {c : UInt8}
    (h : (htmlParserCharParse p c).inName = false) :
    (htmlParserCharParse p c).tagName = p.tagName := by
  rw [charParse_toControl] at h
  simp only [charParse_tagName, h]
  split_ifs <;> simp_all

/-- The parser starts to report a tag without a slash only where its name, read
up to then, ends. -/
theorem HtmlStreamParser.Ok.name_ends {p : HtmlStreamParser} (hp : p.Ok) {c : UInt8}
    {s : List UInt8} (hs : 0 < s.length) (hslash : cstr s 0 ≠ '/'.toUInt8)
    (hbefore : htmlParserCmpTag p s = false)
    (hafter : htmlParserCmpTag (htmlParserCharParse p c) s) :
    p.parserState = .tagName ∧ (htmlParserCharParse p c).BehindName := by
  have hin := not_inName_of_cmpTag hs hafter
  have htag := charParse_tagName_of_not_inName hin
  have hname : p.inName := by
    by_contra hpin
    rw [cmpTag_congr (by simpa using hpin) hin htag.symm, hafter] at hbefore
    contradiction
  have hnot : ¬(p.parserState = .scriptSlash ∨ p.parserState = .scriptName) := by
    intro hscript
    have hfirst := cmpTag_first hs hafter
    rw [htag, (hp.slash hscript).2] at hfirst
    exact hslash hfirst
  have hstate : p.parserState = .tagName := by
    simp only [Control.inName, Bool.or_eq_true, decide_eq_true_eq, or_assoc] at hname
    exact hp.control.name.mp (hname.resolve_right hnot)
  refine ⟨hstate, ?_⟩
  rw [charParse_toControl] at hin ⊢
  rcases hp.control.of_tagName hstate c with hgoes | hends
  · simp [Control.inName, (hp.control.control c).name.mpr hgoes] at hin
  · exact hends

/-- Behind its name, a tag keeps the name until it ends. -/
theorem HtmlStreamParser.Ok.tag_goes_on {p : HtmlStreamParser} (hp : p.Ok) (hb : p.BehindName)
    (hend : p.htmlPart.tagEnd = false) (c : UInt8) :
    (htmlParserCharParse p c).BehindName ∧
      ∀ s, htmlParserCmpTag (htmlParserCharParse p c) s = htmlParserCmpTag p s := by
  have htag : p.inTag := hb.inTag.resolve_right (by simp [hend])
  have hb' : (htmlParserCharParse p c).BehindName := by
    rw [charParse_toControl]
    exact hp.control.behindName_of_inTag htag c
  exact ⟨hb', fun s => cmpTag_congr hb'.inName hb.inName
    (charParse_tagName_of_not_inName hb'.inName) s⟩

end HtmlBenchmark.StreamParser
