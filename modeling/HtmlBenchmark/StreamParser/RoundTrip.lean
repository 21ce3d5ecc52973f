import HtmlBenchmark.StreamParser.Values

/-!
The round trip: a document is written as a page and read by the parser.

The triples of the single bytes are put together along the grammar: the name of a
tag, an attribute, all that stands behind a name, comments and scripts, and at
last the pieces of a document. Where an attribute has no closing quote, the byte
that ends it belongs to what comes next; `EndsLike` carries the reports that are
still due across that border.
-/

namespace HtmlBenchmark.StreamParser

open Library

/-! ### Comments -/

structure Commented (rd : Reading) : Prop where
  routed : rd.Routed
  state : rd.parserState = .comment
  part : rd.htmlPart.comment
  opening : rd.htmlPart.closingTag = false
  len : rd.scriptEqualityLen ≠ 6

theorem triple_comment_open : reader.Triple Opened ['!'.toUInt8] [] Commented := by
  refine triple_letter fun rd h => ?_
  have hrouted : (rd.next '!'.toUInt8).Routed := h.routed.control _
  have hnext : (rd.next '!'.toUInt8).toControl = { rd.toControl with
      parserState := .comment
      scriptEqualityLen := 0
      htmlPart := { tag := true, comment := true } } := by
    have hne : '!'.toUInt8 ≠ '/'.toUInt8 := by decide
    rw [Reading.next_toControl, htmlParserControl_of_ne (by simp [h.state])]
    simp [htmlParserSwitch, htmlParserScript, h.state, h.part, hne]
  exact ⟨reported_quiet (hrouted.quiet (by rw [hnext]; rfl)) (.inl (by rw [h.part])) _, hrouted,
    by rw [hnext], by rw [hnext], by rw [hnext], by rw [hnext]; decide⟩

theorem triple_comment {c : UInt8} (hc : c ≠ '>'.toUInt8) :
    reader.Triple Commented [c] [] Commented := by
  refine triple_letter fun rd h => ?_
  have hrouted : (rd.next c).Routed := h.routed.control c
  have hwas := h.routed.not_innerText (by simp [h.state])
  have hnext : (rd.next c).toControl = rd.toControl := by
    rw [Reading.next_toControl, htmlParserControl_of_ne (by simp [h.state])]
    simp [htmlParserSwitch, htmlParserScript, h.state, hc]
  exact ⟨reported_quiet (hrouted.quiet (by rw [hnext, h.state]; rfl)) (.inl hwas) _, hrouted,
    by rw [hnext, h.state], by rw [hnext, h.part], by rw [hnext, h.opening],
    by rw [hnext]; exact h.len⟩

theorem triple_comment_close : reader.Triple Commented ['>'.toUInt8] [.comment] (Between []) := by
  refine triple_letter fun rd h => ?_
  have hrouted : (rd.next '>'.toUInt8).Routed := h.routed.control _
  have hwas := h.routed.not_innerText (by simp [h.state])
  have hq := h.routed.quiet (by rw [h.state]; rfl)
  have hnext : (rd.next '>'.toUInt8).toControl = { rd.toControl with
      parserState := .innerText, htmlPart := { rd.htmlPart with tagEnd := true } } := by
    rw [Reading.next_toControl, htmlParserControl_of_ne (by simp [h.state])]
    simp [htmlParserSwitch, htmlParserScript, h.state]
  refine ⟨?_, hrouted, by rw [hnext], by rw [hnext]; exact h.len, by simp [hnext, hwas],
    fun hne => absurd rfl hne⟩
  rw [hnext]
  simp [reported, hwas, hq.nameEnded, hq.attrEnded, hq.valueEnded, h.part, h.opening]

/-! ### Scripts -/

/-- In a script, or right behind the tag that starts one. -/
structure Scripting (t : Option (List UInt8)) (rd : Reading) : Prop where
  routed : rd.Routed
  inScript : (htmlParserEnterScript rd.toControl).InScript t
  reading : rd.htmlPart.innerText = false
  name : ∀ u, t = some ('/'.toUInt8 :: u) → rd.text .tagName = '/'.toUInt8 :: u

theorem Scripting.control {t : Option (List UInt8)} {rd : Reading} (h : Scripting t rd) {c : UInt8}
    (hc : ¬ClosesScript t c) :
    (rd.next c).toControl.InScript (behindLastStep '<'.toUInt8 t c) := by
  rw [Reading.next_toControl, ← htmlParserControl_enterScript]
  exact h.inScript.step hc

/-- The closing tag is kept from its slash on. -/
theorem Scripting.text {t : Option (List UInt8)} {rd : Reading} (h : Scripting t rd) {c : UInt8}
    (hc : ¬ClosesScript t c) {u : List UInt8}
    (hu : behindLastStep '<'.toUInt8 t c = some ('/'.toUInt8 :: u)) :
    (rd.next c).text .tagName = '/'.toUInt8 :: u := by
  have hrouted : (rd.next c).Routed := h.routed.control c
  have hin := h.control hc
  have hless : c ≠ '<'.toUInt8 := by
    rintro rfl
    rw [behindLastStep, if_pos rfl] at hu
    cases hu
  rw [behindLastStep, if_neg hless, Option.map_eq_some_iff] at hu
  obtain ⟨x, rfl, hx⟩ := hu
  have hstate : (rd.next c).parserState = if u = [] then .scriptSlash else .scriptName := by
    rw [hin.state, behindLastStep, if_neg hless, Option.map_some, hx, scriptState, if_pos rfl]
  have hreads : (rd.next c).reads .tagName := by
    rw [Control.reads, Control.inName, hstate]
    by_cases hu : u = [] <;> simp [hu]
  rw [Reading.text_of_reads hrouted hreads, Control.begins, hrouted.goesTo_eq hreads]
  rcases x with _ | ⟨d, v⟩
  · -- the slash itself
    obtain ⟨rfl, rfl⟩ : c = '/'.toUInt8 ∧ u = [] := by simpa [eq_comm] using hx
    simp [Control.startsName, hstate]
  · obtain ⟨rfl, rfl⟩ : d = '/'.toUInt8 ∧ v ++ [c] = u := by simpa using hx
    simp [Control.startsName, hstate, hin.part, h.name v rfl]

theorem triple_script {t : Option (List UInt8)} {c : UInt8} (hc : ¬ClosesScript t c) :
    reader.Triple (Scripting t) [c] [] (Scripting (behindLastStep '<'.toUInt8 t c)) := by
  refine triple_letter fun rd h => ?_
  have hin := h.control hc
  have hq : (rd.next c).htmlPart.Quiet := by
    rw [hin.part]
    exact ⟨rfl, rfl, rfl, rfl⟩
  refine ⟨reported_quiet hq (.inl h.reading) _, h.routed.control c, ?_, ?_,
    fun u hu => h.text hc hu⟩
  · rwa [htmlParserEnterScript_of_ne hin.ne_innerText]
  · rw [hin.part]

/-! ### Whatever stands in front of a `>` -/

/-- A place in a tag that a blank or the `>` will end, with the reports `out`
due. -/
structure EndsLike (P : Reading → Prop) (n : List UInt8) (closing : Bool) (out : List Report) :
    Prop where
  blank : ∀ c, ishtmlspace c → reader.Triple P [c] out (Standing n closing .space)
  gt : reader.Triple P ['>'.toUInt8] (out ++ [.tagEnd closing]) (Ended n)

theorem endsLike_standing (n : List UInt8) (closing : Bool) (p : Place) :
    EndsLike (Standing n closing p) n closing (p.reports n) :=
  ⟨fun _ hc => triple_blank hc n closing p, triple_end n closing p⟩

theorem not_isScript_slash (u : List UInt8) : ¬IsScript ('/'.toUInt8 :: u) := by
  intro h
  rw [IsScript, List.map_cons] at h
  have hhead := congrArg List.head? h
  rw [List.head?_cons] at hhead
  exact absurd hhead (by decide)

/-- The closing tag of a script, up to its name. -/
theorem endsLike_script {u : List UInt8} (hu : IsScript u) :
    EndsLike (Scripting (some ('/'.toUInt8 :: u))) ('/'.toUInt8 :: u) true
      [.name ('/'.toUInt8 :: u)] := by
  have hstep : ∀ c, (c = '>'.toUInt8 ∨ ishtmlspace c) → ∀ rd,
      Scripting (some ('/'.toUInt8 :: u)) rd →
        (rd.next c).toControl = behindScript c ∧ (rd.next c).Routed ∧
          (rd.next c).text = rd.text := by
    intro c hc rd h
    have hrouted : (rd.next c).Routed := h.routed.control c
    have hnext : (rd.next c).toControl = behindScript c := by
      rw [Reading.next_toControl, ← htmlParserControl_enterScript]
      exact h.inScript.close ⟨u, rfl, hu, hc⟩
    refine ⟨hnext, hrouted, Reading.text_of_ended hrouted ?_⟩
    rw [hnext]
    by_cases hgt : c = '>'.toUInt8 <;> simp [behindScript, hgt, ParserState.readsTo]
  constructor
  · intro c hc
    refine triple_letter fun rd h => ?_
    obtain ⟨hnext, hrouted, htext⟩ := hstep c (.inr hc) rd h
    have hgt : c ≠ '>'.toUInt8 := by rintro rfl; cases hc
    refine ⟨?_, .space ⟨hrouted, ?_, ?_, ?_, ?_⟩ ?_⟩
    · rw [htext, hnext]
      simp [reported, behindScript, h.reading, h.name u rfl, hgt]
    · rw [htext, h.name u rfl]
    · rw [hnext]
      simp [behindScript, not_isScript_slash]
    · rw [hnext]
      rfl
    · rw [hnext]
      rfl
    · rw [hnext]
      simp [behindScript, hgt]
  · refine triple_letter fun rd h => ?_
    obtain ⟨hnext, hrouted, htext⟩ := hstep _ (.inl rfl) rd h
    refine ⟨?_, hrouted, ?_, ?_, ?_⟩
    · rw [htext, hnext]
      simp [reported, behindScript, h.reading, h.name u rfl]
    · rw [hnext]
      rfl
    · rw [hnext]
      simp [behindScript, not_isScript_slash]
    · rw [hnext]
      rfl

/-! ### Attributes -/

section Attributes

variable {P : Reading → Prop} {n : List UInt8} {closing : Bool} {out : List Report}

/-- Blanks end a place, and more of them add nothing. -/
theorem EndsLike.gap (h : EndsLike P n closing out) (gap : Bytes1 ishtmlspace) :
    reader.Triple P gap.1 out (Standing n closing .space) := by
  obtain ⟨w, hne, hblank⟩ := gap
  obtain ⟨c, w, rfl⟩ := List.exists_cons_of_ne_nil hne
  obtain ⟨hc, hw⟩ := List.forall_mem_cons.mp hblank
  have hrest : reader.Triple (Standing n closing .space) w [] (Standing n closing .space) :=
    Transducer.Triple.span (I := fun _ => Standing n closing .space) (p := fun c => ishtmlspace c)
      (fun _ _ hc => triple_blank hc n closing .space) [] hw
  have htriple := (h.blank c hc).append hrest
  rwa [List.append_nil] at htriple

theorem triple_attr_name (name : Bytes1 attrByte) :
    reader.Triple (Standing n closing .space) name.1 [] (Standing n closing (.attr name.1)) := by
  obtain ⟨w, hne, hbyte⟩ := name
  obtain ⟨c, w, rfl⟩ := List.exists_cons_of_ne_nil hne
  obtain ⟨hc, hw⟩ := List.forall_mem_cons.mp hbyte
  exact (triple_attr_first n closing hc).append
    (Transducer.Triple.span (I := fun u => Standing n closing (.attr u))
      (p := fun c => attrByte c) (fun u _ hc => triple_attr n closing hc u) [c] hw)

/-- From the name of an attribute to its value. -/
theorem triple_to_value (key : List UInt8) (before after : Bytes ishtmlspace) :
    reader.Triple (Standing n closing (.attr key)) (before.1 ++ ['='.toUInt8] ++ after.1)
      [.attr n key] (Keyed n closing .beforeValue key) := by
  have hafter : reader.Triple (Keyed n closing .beforeValue key) after.1 []
      (Keyed n closing .beforeValue key) :=
    Transducer.Triple.span (I := fun _ => Keyed n closing .beforeValue key)
      (p := fun c => ishtmlspace c) (fun _ _ hc => triple_value_blank n closing hc key) [] after.2
  have hbefore : reader.Triple (Standing n closing (.attr key)) (before.1 ++ ['='.toUInt8])
      [.attr n key] (Keyed n closing .beforeValue key) := by
    obtain ⟨w, hblank⟩ := before
    cases w with
    | nil => exact triple_key_end n closing (.inl rfl) key
    | cons c w =>
        obtain ⟨hc, hw⟩ := List.forall_mem_cons.mp hblank
        have hne : c ≠ '='.toUInt8 := by rintro rfl; cases hc
        have hfirst := triple_key_end n closing (.inr hc) key
        rw [if_neg hne] at hfirst
        have hmore : reader.Triple (Keyed n closing .tagSpace key) w []
            (Keyed n closing .tagSpace key) :=
          Transducer.Triple.span (I := fun _ => Keyed n closing .tagSpace key)
            (p := fun c => ishtmlspace c) (fun _ _ hc => triple_key_blank n closing hc key) [] hw
        exact (hfirst.append hmore).append (triple_equals n closing key)
  exact hbefore.append hafter

theorem triple_quoted_value (key : List UInt8) (q : Quote) (v : Bytes (· ≠ q.byte)) :
    reader.Triple (Keyed n closing .beforeValue key) ([q.byte] ++ v.1 ++ [q.byte])
      [.value n key v.1] (Standing n closing .space) :=
  ((triple_quote_open n closing q key).append
    (Transducer.Triple.span (I := fun u => Quoted n closing q key u)
      (p := fun c => decide (c ≠ q.byte) = true)
      (fun u _ hc => triple_quoted n closing (of_decide_eq_true hc) key u) [] v.2)).append
    (triple_quote_close n closing q key v.1)

theorem triple_bare_value (key : List UInt8) (v : Bytes1 nameByte)
    (unquoted : ∀ q : Quote, v.1.head? ≠ some q.byte) :
    reader.Triple (Keyed n closing .beforeValue key) v.1 []
      (Standing n closing (.value key v.1)) := by
  obtain ⟨w, hne, hbyte⟩ := v
  obtain ⟨c, w, rfl⟩ := List.exists_cons_of_ne_nil hne
  obtain ⟨hc, hw⟩ := List.forall_mem_cons.mp hbyte
  have hquote : ∀ q : Quote, c ≠ q.byte := fun q hq => unquoted q (by simp [hq])
  exact (triple_bare_first n closing hc hquote key).append
    (Transducer.Triple.span (I := fun u => Standing n closing (.value key u))
      (p := fun c => nameByte c) (fun u _ hc => triple_bare n closing hc key u) [c] hw)

/-- **An attribute**: its reports, up to those that are due where it ends. -/
theorem EndsLike.attribute (h : EndsLike P n closing out) (a : Attribute) :
    ∃ early p, reader.Triple P a.render (out ++ early) (Standing n closing p) ∧
      early ++ p.reports n = a.reports n := by
  have hname := (h.gap a.gap).append (triple_attr_name a.name)
  rw [List.append_nil] at hname
  cases hvalue : a.value with
  | none =>
      refine ⟨[], .attr a.name.1, ?_, ?_⟩
      · rw [Attribute.render, hvalue, Value.render, List.append_nil, List.append_nil]
        exact hname
      · rw [Attribute.reports, hvalue]
        rfl
  | quoted before after q v =>
      refine ⟨[.attr n a.name.1, .value n a.name.1 v.1], .space, ?_, ?_⟩
      · have htriple := hname.append ((triple_to_value a.name.1 before after).append
          (triple_quoted_value a.name.1 q v))
        rw [Attribute.render, hvalue, Value.render]
        simpa using htriple
      · rw [Attribute.reports, hvalue]
        rfl
  | bare before after v unquoted =>
      refine ⟨[.attr n a.name.1], .value a.name.1 v.1, ?_, ?_⟩
      · have htriple := hname.append ((triple_to_value a.name.1 before after).append
          (triple_bare_value a.name.1 v unquoted))
        rw [Attribute.render, hvalue, Value.render]
        simpa using htriple
      · rw [Attribute.reports, hvalue]
        rfl

/-- **All that stands behind a name.** -/
theorem EndsLike.tail (h : EndsLike P n closing out) (attrs : List Attribute)
    (gap : Bytes ishtmlspace) :
    reader.Triple P (attrs.flatMap Attribute.render ++ (gap.1 ++ ['>'.toUInt8]))
      (out ++ attrs.flatMap (Attribute.reports n) ++ [.tagEnd closing]) (Ended n) := by
  induction attrs generalizing P out with
  | nil =>
      obtain ⟨w, hblank⟩ := gap
      rw [List.flatMap_nil, List.flatMap_nil, List.append_nil, List.nil_append]
      by_cases hw : w = []
      · subst hw
        exact h.gt
      · exact (h.gap ⟨w, hw, hblank⟩).append (triple_end n closing .space)
  | cons a attrs ih =>
      obtain ⟨early, p, hfirst, hearly⟩ := h.attribute a
      have hrest := ih (endsLike_standing n closing p)
      have htriple := hfirst.append hrest
      rw [List.flatMap_cons, List.flatMap_cons, ← hearly]
      simpa using htriple

end Attributes

/-! ### Tags and scripts -/

theorem triple_tagName (name : TagName) :
    reader.Triple Opened name.bytes [] (Named name.bytes name.isClosing) := by
  have hrest : ∀ (c : UInt8) (rest : Bytes nameByte) (closing : Bool),
      reader.Triple (Named [c] closing) rest.1 [] (Named (c :: rest.1) closing) :=
    fun c rest closing => Transducer.Triple.span (I := fun u => Named u closing)
      (p := fun c => nameByte c) (fun u _ hc => triple_name hc u closing) [c] rest.2
  cases name with
  | opening c rest =>
      have hslash : decide (c.1 = '/'.toUInt8) = false := by
        rw [decide_eq_false_iff_not]
        intro hc
        have halpha := c.2
        rw [hc] at halpha
        cases halpha
      have hfirst := triple_name_first (.inr c.2)
      rw [hslash] at hfirst
      exact hfirst.append (hrest c.1 rest false)
  | closing rest => exact (triple_name_first (.inl rfl)).append (hrest _ rest true)

/-- **A tag**, with the text in front of it. -/
theorem triple_tag (t : List UInt8) (tag : Tag) :
    reader.Triple (Between t) tag.render (textReports t ++ tag.reports)
      (Ended tag.name.bytes) := by
  have hname : reader.Triple (Between t) (['<'.toUInt8] ++ tag.name.bytes) (textReports t)
      (Standing tag.name.bytes tag.name.isClosing .name) := by
    have htriple := (triple_open t).append (triple_tagName tag.name)
    rw [List.append_nil] at htriple
    exact htriple.mono (fun _ h => h) fun _ h => .name h
  have htail := (endsLike_standing tag.name.bytes tag.name.isClosing .name).tail tag.attrs tag.gap
  have htriple := hname.append htail
  rwa [← Tag.renderTail, ← Tag.render] at htriple

theorem Ended.between {n : List UInt8} {rd : Reading} (h : Ended n rd) (hn : ¬IsScript n) :
    Between [] rd where
  routed := h.routed
  state := h.state
  len := fun hlen => hn (h.script.mp hlen)
  reading := by simp [h.reading]
  text hne := absurd rfl hne

theorem Ended.scripting {n : List UInt8} {rd : Reading} (h : Ended n rd) (hn : IsScript n) :
    Scripting none rd where
  routed := h.routed
  inScript := Control.inScript_enter h.state (h.script.mpr hn)
  reading := h.reading
  name := by simp

/-- No byte of a closing tag up to its name ends a script. -/
theorem not_ends_of_mem {u : List UInt8} (hu : IsScript u) {c : UInt8}
    (hc : c ∈ '<'.toUInt8 :: '/'.toUInt8 :: u) : c ≠ '>'.toUInt8 ∧ ishtmlspace c = false := by
  have hmem := List.mem_map_of_mem (f := tolower) hc
  rw [List.map_cons, List.map_cons, hu] at hmem
  refine ⟨?_, ?_⟩
  · rintro rfl
    revert hmem
    decide
  · by_contra hblank
    simp only [ishtmlspace, Bool.not_eq_false, Bool.or_eq_true, beq_iff_eq] at hblank
    rcases hblank with ((rfl | rfl) | rfl) | rfl <;> revert hmem <;> decide

/-- **A script**, behind the tag that starts it. -/
theorem triple_script_body (s : Script) :
    reader.Triple (Scripting none) (s.body ++ s.stop.render) s.stop.reports (Between []) := by
  obtain ⟨u, hname, hu⟩ := s.isStop
  have hstep : ∀ w c, ¬EndsScript (w ++ [c]) →
      reader.Triple (Scripting (behindLast '<'.toUInt8 w)) [c] []
        (Scripting (behindLast '<'.toUInt8 (w ++ [c]))) := by
    intro w c hw
    rw [behindLast_append_singleton]
    exact triple_script fun hc => hw ((endsScript_iff w c).mpr hc)
  have hbody :
      reader.Triple (Scripting none) s.body [] (Scripting (behindLast '<'.toUInt8 s.body)) :=
    Transducer.Triple.scan (I := fun w => Scripting (behindLast '<'.toUInt8 w))
      (p := fun w => ¬EndsScript w) hstep [] s.isOpen
  have hstop : reader.Triple (Scripting (behindLast '<'.toUInt8 s.body))
      ('<'.toUInt8 :: '/'.toUInt8 :: u.1) [] (Scripting (some ('/'.toUInt8 :: u.1))) := by
    have hscan := Transducer.Triple.scan (I := fun w => Scripting (behindLast '<'.toUInt8 w))
      (p := fun w => ¬EndsScript w) hstep s.body (w := '<'.toUInt8 :: '/'.toUInt8 :: u.1)
      fun v hv hends => by
        rcases List.eq_nil_or_concat v with rfl | ⟨v, c, rfl⟩
        · exact s.isOpen s.body (List.prefix_refl _) (by simpa using hends)
        · -- the last byte would have to be a `>` or a blank
          obtain ⟨x, t, d, hw, -, hd⟩ := hends
          rw [List.concat_eq_append, ← List.append_assoc] at hw
          obtain rfl : c = d := by simpa using (List.append_inj' hw rfl).2
          have hmem : c ∈ '<'.toUInt8 :: '/'.toUInt8 :: u.1 := hv.subset (by simp)
          obtain ⟨hgt, hblank⟩ := not_ends_of_mem hu hmem
          rcases hd with hd | hd
          · exact hgt hd
          · rw [hblank] at hd
            cases hd
    have hlast : behindLast '<'.toUInt8 (s.body ++ '<'.toUInt8 :: '/'.toUInt8 :: u.1) =
        some ('/'.toUInt8 :: u.1) := by
      refine behindLast_eq_some_iff.mpr ⟨s.body, rfl, fun hmem => ?_⟩
      have hmap := List.mem_map_of_mem (f := tolower) hmem
      rw [List.map_cons, hu] at hmap
      revert hmap
      decide
    rwa [hlast] at hscan
  have htail := (endsLike_script hu).tail s.stop.attrs s.stop.gap
  have htriple := hbody.append (hstop.append htail)
  have hbytes : s.stop.name.bytes = '/'.toUInt8 :: u.1 := by rw [hname]; rfl
  have hclosing : s.stop.name.isClosing = true := by rw [hname]; rfl
  rw [Tag.render, Tag.reports, Tag.renderTail, hbytes, hclosing]
  exact htriple.mono (fun _ h => h) fun _ h => h.between (not_isScript_slash u.1)

/-! ### Documents -/

theorem triple_markup (t : List UInt8) (m : Markup) :
    reader.Triple (Between t) m.render (textReports t ++ m.reports) (Between []) := by
  cases m with
  | tag tag hscript => exact (triple_tag t tag).mono (fun _ h => h) fun _ h => h.between hscript
  | comment body =>
      have hbody : reader.Triple Commented body.1 [] Commented :=
        Transducer.Triple.span (I := fun _ => Commented)
          (p := fun c => decide (c ≠ '>'.toUInt8) = true)
          (fun _ _ hc => triple_comment (of_decide_eq_true hc)) [] body.2
      have htriple := (triple_open t).append (triple_comment_open.append
        (hbody.append triple_comment_close))
      rw [Markup.render, Markup.reports]
      simpa using htriple
  | script s =>
      have hstart := (triple_tag t s.start).mono (fun _ h => h) fun _ h => h.scripting s.isStart
      have htriple := hstart.append (triple_script_body s)
      rw [List.append_assoc] at htriple
      exact htriple

theorem triple_textOf (t : Bytes (· ≠ '<'.toUInt8)) :
    reader.Triple (Between []) t.1 [] (Between t.1) :=
  Transducer.Triple.span (I := Between) (p := fun c => decide (c ≠ '<'.toUInt8) = true)
    (fun u _ hc => triple_text (of_decide_eq_true hc) u) [] t.2

theorem triple_document (d : Document) :
    reader.Triple (Between []) d.render d.reports (Between d.rest.1) := by
  have hpieces : reader.Triple (Between []) (d.pieces.flatMap fun p => p.1.1 ++ p.2.render)
      (d.pieces.flatMap fun p => textReports p.1.1 ++ p.2.reports) (Between []) :=
    Transducer.Triple.flatMap fun p _ => (triple_textOf p.1).append (triple_markup p.1.1 p.2)
  have htriple := hpieces.append (triple_textOf d.rest)
  rw [List.append_nil] at htriple
  exact htriple

theorem outputs_document (hsp : HtmlStreamParser) (tag attr val : Bool) (buffer : Buffer → Buf)
    (length : Buffer → ℕ) (d : Document) :
    client.outputs (setUp hsp tag attr val buffer length) d.render =
      d.reports.map (Report.map (kept (lowered tag attr val) length)) := by
  rw [outputs_client, (triple_document d {} between_initial).1]

/-- **The round trip.** A client of the parser, however it is set up, is told what
the document says, each text as its buffer keeps it; the text behind the last
piece of markup is in the buffer and not reported. -/
theorem client_document (hsp : HtmlStreamParser) (tag attr val : Bool) (buffer : Buffer → Buf)
    (length : Buffer → ℕ) (d : Document) :
    client.outputs (setUp hsp tag attr val buffer length) d.render =
        d.reports.map (Report.map (kept (lowered tag attr val) length)) ∧
      (d.rest.1 ≠ [] →
        (client.run (setUp hsp tag attr val buffer length) d.render).innerText.text =
          kept (lowered tag attr val) length .innerText d.rest.1) := by
  refine ⟨outputs_document hsp tag attr val buffer length d, fun hne => ?_⟩
  have hrest := (triple_document d {} between_initial).2
  have hkept := ((keptIn_setUp hsp tag attr val buffer length).run d.render).text .innerText
  rw [← hrest.text hne]
  exact hkept

end HtmlBenchmark.StreamParser
