import HtmlBenchmark.Libxml2.Adapter

/-!
Character data in one callback or in two.

The handler judges every callback by itself: blanks alone are dropped or become
one space, anything else is copied as it came. So where the parser cuts a text
can matter, and `CutHarmless` says when it does not. What the handlers do later
is the same either way, since a cut changes nothing in the state but the string.
The parser delivers no 0 byte: it reads a space for one.
-/

namespace HtmlBenchmark.Libxml2

def ParserState.collects (state : ParserState) : Bool := state.insideBody && !state.insideScript

/-- Cutting character data into `u` and `v` makes no difference in this state:
nothing is collected; or both parts are blank in front of any text; or one part
is a single space next to the text of the other; or both hold text. -/
def CutHarmless (state : ParserState) (u v : List UInt8) : Prop :=
  state.collects = false ∨
    (if isAllWhitespace u then
      if isAllWhitespace v then state.insideText = false
      else state.insideText = true ∧ u = bytes " "
    else isAllWhitespace v → v = bytes " ")

instance (state : ParserState) (u v : List UInt8) : Decidable (CutHarmless state u v) := by
  unfold CutHarmless
  infer_instance

/-! ### One callback -/

def added (state : ParserState) (ch : List UInt8) : List UInt8 :=
  if state.collects then
    if isAllWhitespace ch then if state.insideText then bytes " " else []
    else copied ch
  else []

theorem noNul_of_isAllWhitespace {u : List UInt8} (h : isAllWhitespace u) : 0 ∉ u := by
  intro hmem
  have hspace := List.all_eq_true.mp h 0 hmem
  exact absurd hspace (by decide)

theorem isAllWhitespace_append (u v : List UInt8) :
    isAllWhitespace (u ++ v) = (isAllWhitespace u && isAllWhitespace v) :=
  List.all_append

theorem characters_eq (state : ParserState) (ch : List UInt8) :
    characters state ch =
      if state.collects then
        if isAllWhitespace ch then
          if state.insideText then
            { state with innertext := stringAppend state.innertext (cstr (bytes " ")) 1 }
          else state
        else
          { state with
            insideText := true
            innertext := stringAppend state.innertext (cstr ch) ch.length }
      else state := rfl

theorem characters_contents {state : ParserState} (h : state.innertext.Valid) (ch : List UInt8) :
    (characters state ch).innertext.contents = state.innertext.contents ++ added state ch := by
  rw [characters_eq, added]
  split_ifs
  · exact stringAppend_contents h _ _
  · exact (List.append_nil _).symm
  · exact stringAppend_contents h _ _
  · exact (List.append_nil _).symm

/-- The states differ at most in the string. -/
structure ParserState.SameFlags (s t : ParserState) : Prop where
  result : s.result = t.result
  insideBody : s.insideBody = t.insideBody
  insideTitle : s.insideTitle = t.insideTitle
  insideScript : s.insideScript = t.insideScript
  insideText : s.insideText = t.insideText

theorem ParserState.SameFlags.collects {s t : ParserState} (h : s.SameFlags t) :
    s.collects = t.collects := by
  rw [ParserState.collects, h.insideBody, h.insideScript, ParserState.collects]

theorem added_congr {s t : ParserState} (h : s.SameFlags t) (ch : List UInt8) :
    added s ch = added t ch := by
  rw [added, h.collects, h.insideText, added]

/-- After a callback text has been collected, or had been before. -/
theorem characters_sameFlags (state : ParserState) (ch : List UInt8) :
    (characters state ch).SameFlags
      { state with
        insideText := state.insideText || state.collects && !isAllWhitespace ch } := by
  rw [characters_eq]
  split_ifs with hc hw ht
  · exact ⟨rfl, rfl, rfl, rfl, by simp [hw]⟩
  · exact ⟨rfl, rfl, rfl, rfl, by simp [hw]⟩
  · exact ⟨rfl, rfl, rfl, rfl, by simp [hc, hw]⟩
  · exact ⟨rfl, rfl, rfl, rfl, by simp [hc]⟩

theorem characters_collects (state : ParserState) (ch : List UInt8) :
    (characters state ch).collects = state.collects :=
  (characters_sameFlags state ch).collects

/-- Cut or not, the callbacks leave the same flags. -/
theorem cut_sameFlags (state : ParserState) (u v : List UInt8) :
    (characters (characters state u) v).SameFlags (characters state (u ++ v)) := by
  have hu := characters_sameFlags state u
  have hv := characters_sameFlags (characters state u) v
  have huv := characters_sameFlags state (u ++ v)
  refine ⟨by simp,
    by simp [hv.insideBody, hu.insideBody, huv.insideBody],
    by simp [hv.insideTitle, hu.insideTitle, huv.insideTitle],
    by simp [hv.insideScript, hu.insideScript, huv.insideScript], ?_⟩
  rw [hv.insideText, huv.insideText]
  simp only [hu.insideText, characters_collects, isAllWhitespace_append]
  cases state.insideText <;> cases state.collects <;> cases isAllWhitespace u <;>
    cases isAllWhitespace v <;> rfl

/-- **One cut.** The two callbacks add what the one would have added exactly
when the cut is harmless. -/
theorem added_cut_iff (state : ParserState) {u v : List UInt8} (hu : u ≠ []) (hnul : 0 ∉ u) :
    added state u ++ added (characters state u) v = added state (u ++ v) ↔
      CutHarmless state u v := by
  have hflags := characters_sameFlags state u
  simp only [added, CutHarmless, isAllWhitespace_append, characters_collects, hflags.insideText]
  cases hc : state.collects with
  | false => simp
  | true =>
      rw [copied_append_of_noNul hnul]
      cases hbu : isAllWhitespace u with
      | true =>
          cases hbv : isAllWhitespace v with
          -- inside a text the two callbacks add a space each, the one adds one
          | true => cases state.insideText <;> simp [show bytes " " ≠ [] by decide]
          | false => cases state.insideText <;> simp [hu, eq_comm]
      | false =>
          rw [copied_of_noNul hnul]
          cases hbv : isAllWhitespace v with
          | true =>
              rw [copied_of_noNul (noNul_of_isAllWhitespace hbv)]
              simp [eq_comm]
          | false => simp

/-! ### The rest of the page -/

theorem call_sameFlags {s t : ParserState} (h : s.SameFlags t) (call : Call) :
    (s.call call).SameFlags (t.call call) := by
  cases call with
  | startElement name atts =>
      simp only [ParserState.call, startElement]
      split_ifs
      · exact ⟨h.result, h.insideBody, rfl, h.insideScript, rfl⟩
      · exact ⟨h.result, rfl, h.insideTitle, h.insideScript, rfl⟩
      · exact ⟨h.result, h.insideBody, h.insideTitle, rfl, rfl⟩
      · cases atts with
        | none => exact ⟨h.result, h.insideBody, h.insideTitle, h.insideScript, rfl⟩
        | some atts =>
            exact ⟨congrArg (attributeLoop name atts) h.result, h.insideBody, h.insideTitle,
              h.insideScript, rfl⟩
  | endElement name =>
      simp only [ParserState.call, endElement]
      split_ifs
      · exact ⟨h.result, h.insideBody, rfl, h.insideScript, rfl⟩
      · exact ⟨h.result, rfl, h.insideTitle, h.insideScript, rfl⟩
      · exact ⟨h.result, h.insideBody, h.insideTitle, rfl, rfl⟩
      · exact ⟨h.result, h.insideBody, h.insideTitle, h.insideScript, rfl⟩
  | characters ch =>
      have hs := characters_sameFlags s ch
      have ht := characters_sameFlags t ch
      refine ⟨hs.result.trans (h.result.trans ht.result.symm),
        hs.insideBody.trans (h.insideBody.trans ht.insideBody.symm),
        hs.insideTitle.trans (h.insideTitle.trans ht.insideTitle.symm),
        hs.insideScript.trans (h.insideScript.trans ht.insideScript.symm), ?_⟩
      simp only [ParserState.call, hs.insideText, ht.insideText, h.insideText, h.collects]

def Call.added (state : ParserState) : Call → List UInt8
  | .characters ch => Libxml2.added state ch
  | .startElement _ _ | .endElement _ => []

theorem call_contents {state : ParserState} (h : state.innertext.Valid) (call : Call) :
    (state.call call).innertext.contents = state.innertext.contents ++ call.added state := by
  cases call with
  | startElement name atts => simp [ParserState.call, Call.added]
  | endElement name => simp [ParserState.call, Call.added]
  | characters ch => exact characters_contents h ch

/-- The same calls add the same to two strings, as long as the flags agree. -/
theorem calls_suffix {s t : ParserState} (hs : s.innertext.Valid) (ht : t.innertext.Valid)
    (h : s.SameFlags t) (calls : List Call) :
    ∃ w, (s.calls calls).innertext.contents = s.innertext.contents ++ w ∧
      (t.calls calls).innertext.contents = t.innertext.contents ++ w := by
  induction calls generalizing s t with
  | nil => exact ⟨[], (List.append_nil _).symm, (List.append_nil _).symm⟩
  | cons call calls ih =>
      obtain ⟨w, hsw, htw⟩ := ih (call_valid hs call) (call_valid ht call) (call_sameFlags h call)
      have hadded : call.added s = call.added t := by
        cases call with
        | startElement name atts => rfl
        | endElement name => rfl
        | characters ch => exact added_congr h ch
      refine ⟨call.added s ++ w, ?_, ?_⟩
      · rw [← List.append_assoc, ← call_contents hs]
        exact hsw
      · rw [← List.append_assoc, hadded, ← call_contents ht]
        exact htw

/-- **Cutting a callback.** In any run of the handlers, handing over the bytes
of one callback in two leaves the collected text as it was exactly when the cut
is harmless in the state the callback finds. -/
theorem contents_cut_iff (result : TestResult) (before after : List Call) {u v : List UInt8}
    (hu : u ≠ []) (hnul : 0 ∉ u ++ v) :
    ((initial result).calls
        (before ++ .characters u :: .characters v :: after)).innertext.contents =
        ((initial result).calls (before ++ .characters (u ++ v) :: after)).innertext.contents ↔
      CutHarmless ((initial result).calls before) u v := by
  rw [calls_append, calls_append]
  have hvalid : ((initial result).calls before).innertext.Valid :=
    calls_valid stringInit_valid before
  generalize (initial result).calls before = state at hvalid
  have hu' := characters_valid hvalid u
  obtain ⟨w, hcut, hwhole⟩ := calls_suffix (characters_valid hu' v)
    (characters_valid hvalid (u ++ v)) (cut_sameFlags state u v) after
  show ((characters (characters state u) v).calls after).innertext.contents =
    ((characters state (u ++ v)).calls after).innertext.contents ↔ _
  rw [hcut, hwhole, List.append_left_inj, characters_contents hu', characters_contents hvalid,
    characters_contents hvalid, List.append_assoc, List.append_right_inj]
  exact added_cut_iff state hu fun h => hnul (List.mem_append_left v h)

/-- Inside a text, a cut between two of its words. -/
theorem contents_cut_words :
    bytes "a b" ≠ [] ∧ 0 ∉ bytes "a b" ++ bytes "c" ∧
      ((initial {}).calls ([.startElement nameBody none] ++
          .characters (bytes "a b") :: .characters (bytes "c") :: [])).innertext.contents =
        ((initial {}).calls ([.startElement nameBody none] ++
          .characters (bytes "a b" ++ bytes "c") :: [])).innertext.contents :=
  ⟨by decide, by decide, (contents_cut_iff {} _ _ (by decide) (by decide)).mpr (by decide +kernel)⟩

/-- A cut in front of two blanks makes them one. -/
theorem not_forall_contents_cut :
    ¬∀ (result : TestResult) (before after : List Call) (u v : List UInt8), u ≠ [] → v ≠ [] →
      (∀ c ∈ u ++ v, c < 128) →
      ((initial result).calls
        (before ++ .characters u :: .characters v :: after)).innertext.contents =
        ((initial result).calls (before ++ .characters (u ++ v) :: after)).innertext.contents := by
  intro h
  have hcut := h {} [.startElement nameBody none] [] (bytes "a") (bytes "  ") (by decide)
    (by decide) (by decide +kernel)
  exact absurd hcut (by decide +kernel)

end HtmlBenchmark.Libxml2
