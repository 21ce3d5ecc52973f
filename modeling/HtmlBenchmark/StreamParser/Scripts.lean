import HtmlBenchmark.Library.Words
import HtmlBenchmark.StreamParser.Flags

/-!
Where a script ends.

Behind a tag named `script` the parser looks for the closing tag with four states
and the length of the match so far. Put together, these know what stands behind
the last `<` of the script, as far as it matters: nothing, a slash, a slash and
the beginning of the word `script`, or anything else. `Control.InScript` says so,
and every byte keeps it but the one that closes the script.

So a script ends with the first `</script`, in any case, that is followed by a
`>` or a blank (`inScript_iff`), and up to there no flag is set but
`HTML_SCRIPT`.
-/

namespace HtmlBenchmark.StreamParser

open Library

/-! ### The word `script` -/

/-- The length of a word that can still become `script`, in any case; -1 if it
cannot. -/
def matched (u : List UInt8) : ℤ := if u.map tolower <+: bytes "script" then u.length else -1

theorem matched_eq_six_iff (u : List UInt8) :
    matched u = 6 ↔ u.map tolower = bytes "script" := by
  rw [matched]
  split_ifs with h
  · constructor
    · intro hlen
      refine h.eq_of_length ?_
      rw [List.length_map]
      exact_mod_cast hlen
    · intro heq
      have hlen := congrArg List.length heq
      rw [List.length_map] at hlen
      exact_mod_cast hlen
  · constructor
    · intro hlen
      cases hlen
    · intro heq
      exact absurd (heq ▸ List.prefix_refl _) h

theorem htmlParserScript_len {s : Control} {u : List UInt8}
    (hstate : s.parserState = .tagName ∨ s.parserState = .scriptName)
    (hlen : s.scriptEqualityLen = matched u) (c : UInt8) :
    (htmlParserScript s c).scriptEqualityLen = matched (u ++ [c]) := by
  have hiff : (u ++ [c]).map tolower <+: bytes "script" ↔
      u.map tolower <+: bytes "script" ∧ (bytes "script")[u.length]? = some (tolower c) := by
    rw [List.map_append, List.map_singleton, append_singleton_prefix_iff, List.length_map]
  have hsix : (bytes "script").length = 6 := rfl
  rw [htmlParserScript, if_pos hstate, hlen, matched, matched]
  by_cases hu : u.map tolower <+: bytes "script"
  · rw [if_pos hu]
    by_cases hlt : u.length < 6
    · have hget : (bytes "script")[u.length]? = some (cstr (bytes "script") u.length) := by
        rw [cstr, List.getD_eq_getElem?_getD, List.getElem?_eq_getElem hlt, Option.getD_some]
      rw [if_pos ⟨by omega, by omega⟩, Int.toNat_natCast]
      by_cases hc : cstr (bytes "script") u.length = tolower c
      · rw [if_pos hc, if_pos (hiff.mpr ⟨hu, by rw [hget, hc]⟩), List.length_append,
          List.length_singleton, Int.natCast_succ]
      · rw [if_neg hc, if_neg fun h => hc (by simpa [hget] using (hiff.mp h).2)]
    · have hout : (bytes "script")[u.length]? = none :=
        List.getElem?_eq_none (by omega)
      rw [if_neg (by omega), if_neg fun h => by simpa [hout] using (hiff.mp h).2]
  · rw [if_neg hu, if_neg (by decide), if_neg fun h => hu (hiff.mp h).1]

/-! ### Inside a script -/

/-- The state of the parser in a script, by what stands behind the last `<`. -/
def scriptState : Option (List UInt8) → ParserState
  | none => .script
  | some [] => .scriptLess
  | some (c :: u) =>
      if c = '/'.toUInt8 then if u = [] then .scriptSlash else .scriptName else .script

/-- Behind the last `<` of the script stands `t`. -/
structure Control.InScript (t : Option (List UInt8)) (s : Control) : Prop where
  state : s.parserState = scriptState t
  part : s.htmlPart = { script := true }
  len : ∀ u, t = some ('/'.toUInt8 :: u) → s.scriptEqualityLen = matched u

/-- The byte that closes a script: the closing tag is complete up to its name. -/
def ClosesScript (t : Option (List UInt8)) (c : UInt8) : Prop :=
  ∃ u, t = some ('/'.toUInt8 :: u) ∧ u.map tolower = bytes "script" ∧
    (c = '>'.toUInt8 ∨ ishtmlspace c)

def behindScript (c : UInt8) : Control where
  parserState := if c = '>'.toUInt8 then .innerText else .tagSpace
  htmlPart :=
    { tag := true, nameEnded := true, closingTag := true
      tagEnd := c = '>'.toUInt8, space := c ≠ '>'.toUInt8 }
  scriptEqualityLen := 0

theorem Control.InScript.ne_innerText {t : Option (List UInt8)} {s : Control}
    (h : s.InScript t) : s.parserState ≠ .innerText := by
  rw [h.state]
  rcases t with _ | _ | ⟨d, u⟩
  · simp [scriptState]
  · simp [scriptState]
  · simp only [scriptState]
    split_ifs <;> simp

/-- In a script, the script matcher is at work in one state only. -/
theorem htmlParserScript_of_ne {s : Control} {c : UInt8} (h : s.parserState ≠ .tagName)
    (h' : s.parserState ≠ .scriptName) : htmlParserScript s c = s := by
  rw [htmlParserScript, if_neg (by simp [h, h'])]

/-- The closing tag goes on, with a byte that neither ends it nor starts another. -/
theorem Control.InScript.name {u : List UInt8} {s : Control}
    (h : s.InScript (some ('/'.toUInt8 :: u))) {c : UInt8} (hless : c ≠ '<'.toUInt8)
    (hc : ¬ClosesScript (some ('/'.toUInt8 :: u)) c) :
    htmlParserSwitch s c = { s with parserState := .scriptName } := by
  have hlen := h.len u rfl
  have hsix : s.scriptEqualityLen = 6 → c ≠ '>'.toUInt8 ∧ ishtmlspace c = false := by
    intro hl
    rw [hlen, matched_eq_six_iff] at hl
    refine ⟨fun he => hc ⟨u, rfl, hl, .inl he⟩, ?_⟩
    by_contra hb
    exact hc ⟨u, rfl, hl, .inr (by simpa using hb)⟩
  have hstate : s.parserState = .scriptSlash ∨ s.parserState = .scriptName := by
    rw [h.state]
    by_cases hu : u = [] <;> simp [scriptState, hu]
  have hend : ¬(c = '>'.toUInt8 ∧ s.scriptEqualityLen = 6) := fun ⟨he, hl⟩ => (hsix hl).1 he
  have hblank : ¬(ishtmlspace c = true ∧ s.scriptEqualityLen = 6) := fun ⟨hb, hl⟩ => by
    simp [(hsix hl).2] at hb
  rcases hstate with hs | hs <;> simp only [htmlParserSwitch, hs, if_neg hless, if_neg hend,
    if_neg hblank]

/-- **A byte inside a script** that does not close it. -/
theorem Control.InScript.step {t : Option (List UInt8)} {s : Control} (h : s.InScript t)
    {c : UInt8} (hc : ¬ClosesScript t c) :
    (htmlParserControl s c).InScript (behindLastStep '<'.toUInt8 t c) := by
  rw [htmlParserControl_of_ne h.ne_innerText, behindLastStep]
  by_cases hless : c = '<'.toUInt8
  · -- whatever stood behind the last `<`, this is a new one
    have hsw : htmlParserSwitch s c = { s with parserState := .scriptLess } := by
      have hstate := h.state
      rcases t with _ | _ | ⟨d, u⟩
      · simp [htmlParserSwitch, hstate, scriptState, hless]
      · simp only [htmlParserSwitch, hstate, scriptState, hless, ne_eq, not_true_eq_false,
          if_false]
        rw [← scriptState, ← hstate]
      · simp only [scriptState] at hstate
        split_ifs at hstate <;> simp [htmlParserSwitch, hstate, hless]
    rw [hsw, htmlParserScript_of_ne (by simp) (by simp), if_pos hless]
    exact ⟨rfl, h.part, by simp⟩
  rw [if_neg hless]
  rcases t with _ | _ | ⟨d, u⟩
  · have hsw : htmlParserSwitch s c = s := by
      simp [htmlParserSwitch, h.state, scriptState, hless]
    rw [hsw, htmlParserScript_of_ne (by simp [h.state, scriptState])
      (by simp [h.state, scriptState])]
    exact h
  · by_cases hslash : c = '/'.toUInt8
    · have hsw : htmlParserSwitch s c =
          { s with parserState := .scriptSlash, scriptEqualityLen := 0 } := by
        simp only [htmlParserSwitch, h.state, scriptState, if_pos hslash, ne_eq, hless,
          not_false_eq_true, if_true]
      rw [hsw, htmlParserScript_of_ne (by simp) (by simp), hslash]
      refine ⟨rfl, h.part, fun u hu => ?_⟩
      obtain rfl : [] = u := by simpa using hu
      rfl
    · have hsw : htmlParserSwitch s c = { s with parserState := .script } := by
        simp only [htmlParserSwitch, h.state, scriptState, if_neg hslash, ne_eq, hless,
          not_false_eq_true, if_true]
      rw [hsw, htmlParserScript_of_ne (by simp) (by simp)]
      exact ⟨by simp [scriptState, hslash], h.part, by simp [hslash]⟩
  · by_cases hd : d = '/'.toUInt8
    · subst hd
      rw [h.name hless hc]
      refine ⟨by simp [scriptState], by simpa using h.part, fun v hv => ?_⟩
      obtain rfl : u ++ [c] = v := by simpa using hv
      have hmatch := htmlParserScript_len (s := { s with parserState := .scriptName }) (.inr rfl)
        (h.len u rfl) c
      exact hmatch
    · have hstate : s.parserState = .script := by rw [h.state, scriptState, if_neg hd]
      have hsw : htmlParserSwitch s c = s := by
        simp [htmlParserSwitch, hstate, hless]
      rw [hsw, htmlParserScript_of_ne (by simp [hstate]) (by simp [hstate])]
      exact ⟨by rw [hstate]; simp [scriptState, hd], h.part, by simp [hd]⟩

/-- **The byte that closes a script.** -/
theorem Control.InScript.close {t : Option (List UInt8)} {s : Control} (h : s.InScript t)
    {c : UInt8} (hc : ClosesScript t c) : htmlParserControl s c = behindScript c := by
  obtain ⟨u, rfl, hu, hend⟩ := hc
  have hlen := h.len u rfl
  rw [(matched_eq_six_iff u).mpr hu] at hlen
  have hstate : s.parserState = .scriptName := by
    rw [h.state, scriptState, if_pos rfl, if_neg]
    rintro rfl
    cases hu
  have hless : c ≠ '<'.toUInt8 := by
    rintro rfl
    rcases hend with he | he <;> cases he
  rw [htmlParserControl_of_ne h.ne_innerText]
  by_cases hgt : c = '>'.toUInt8
  · subst hgt
    simp only [htmlParserSwitch, hstate, hlen, h.part]
    rfl
  · have hblank := hend.resolve_left hgt
    have hsw : htmlParserSwitch s c = behindScript c := by
      simp only [htmlParserSwitch, hstate, hlen, h.part, if_neg hless, hgt, false_and, if_false,
        hblank, and_self, if_true, behindScript]
      simp [hgt]
    rw [hsw, htmlParserScript_of_ne (by simp [behindScript, hgt]) (by simp [behindScript, hgt])]

/-! ### Whole scripts -/

/-- A text that ends a script: its last bytes are a `</script`, in any case, and
a `>` or a blank. -/
def EndsScript (w : List UInt8) : Prop :=
  ∃ v t c, w = v ++ t ++ [c] ∧ t.map tolower = bytes "</script" ∧
    (c = '>'.toUInt8 ∨ ishtmlspace c)

theorem tolower_eq_iff {a x : UInt8} (hx : isalpha x = false) : tolower a = x ↔ a = x := by
  grind [tolower, isalpha, isupper, islower]

/-- A text ends a script where the byte behind it closes one. -/
theorem endsScript_iff (w : List UInt8) (c : UInt8) :
    EndsScript (w ++ [c]) ↔ ClosesScript (behindLast '<'.toUInt8 w) c := by
  constructor
  · rintro ⟨v, t, d, hw, ht, hd⟩
    obtain ⟨rfl, hcd⟩ := List.append_inj' hw rfl
    obtain rfl : c = d := by simpa using hcd
    have hword : bytes "</script" = '<'.toUInt8 :: '/'.toUInt8 :: bytes "script" := rfl
    rw [hword] at ht
    obtain ⟨a, t, rfl, ha, ht⟩ := List.map_eq_cons_iff.mp ht
    obtain ⟨b, u, rfl, hb, hu⟩ := List.map_eq_cons_iff.mp ht
    obtain rfl := (tolower_eq_iff (by decide)).mp ha
    obtain rfl := (tolower_eq_iff (by decide)).mp hb
    refine ⟨u, behindLast_eq_some_iff.mpr ⟨v, rfl, ?_⟩, hu, hd⟩
    -- the word `script` holds no `<`
    rw [List.mem_cons]
    rintro (h | h)
    · cases h
    · have hmem := List.mem_map_of_mem (f := tolower) h
      rw [hu] at hmem
      revert hmem
      decide
  · rintro ⟨u, hlast, hu, hd⟩
    obtain ⟨v, rfl, -⟩ := behindLast_eq_some_iff.mp hlast
    refine ⟨v, '<'.toUInt8 :: '/'.toUInt8 :: u, c, rfl, ?_, hd⟩
    rw [List.map_cons, List.map_cons, hu]
    rfl

section Runs

variable {s : Control}

theorem Control.InScript.run (h : s.InScript none) {w : List UInt8}
    (hw : ∀ u, u <+: w → ¬EndsScript u) :
    (w.foldl htmlParserControl s).InScript (behindLast '<'.toUInt8 w) := by
  induction w using List.reverseRecOn with
  | nil => exact h
  | append_singleton w c ih =>
      have hin := ih fun u hu => hw u (hu.trans (List.prefix_append w [c]))
      rw [List.foldl_append, behindLast_append_singleton]
      exact hin.step fun hc => hw _ (List.prefix_refl _) ((endsScript_iff w c).mpr hc)

/-- A script entered, before its first byte. -/
theorem Control.inScript_enter (hstate : s.parserState = .innerText)
    (hlen : s.scriptEqualityLen = 6) : (htmlParserEnterScript s).InScript none := by
  rw [htmlParserEnterScript, if_pos ⟨hstate, hlen⟩]
  exact ⟨rfl, rfl, by simp⟩

/-- The first byte behind a tag named `script` is read inside the script. -/
theorem htmlParserControl_enterScript (s : Control) (c : UInt8) :
    htmlParserControl (htmlParserEnterScript s) c = htmlParserControl s c := by
  have hidem : htmlParserEnterScript (htmlParserEnterScript s) = htmlParserEnterScript s := by
    rcases htmlParserEnterScript_cases s with h | ⟨h, -⟩
    · rw [h, h]
    · rw [htmlParserEnterScript_of_ne (by simp [h])]
  rw [htmlParserControl, htmlParserControl, hidem]

theorem foldl_enterScript {w : List UInt8} (hw : w ≠ []) :
    w.foldl htmlParserControl (htmlParserEnterScript s) = w.foldl htmlParserControl s := by
  obtain ⟨c, w, rfl⟩ := List.exists_cons_of_ne_nil hw
  rw [List.foldl_cons, List.foldl_cons, htmlParserControl_enterScript]

/-- **Scripts.** Behind a tag named `script`, the parser reports nothing but the
script for as long as the text read has not ended it. -/
theorem inScript_iff (hstate : s.parserState = .innerText) (hlen : s.scriptEqualityLen = 6)
    (w : List UInt8) :
    (∀ u, u <+: w → u ≠ [] → (u.foldl htmlParserControl s).htmlPart = { script := true }) ↔
      ∀ u, u <+: w → ¬EndsScript u := by
  have hin := Control.inScript_enter hstate hlen
  constructor
  · induction w using List.reverseRecOn with
    | nil =>
        rintro - u hu ⟨v, t, c, rfl, -⟩
        simp at hu
    | append_singleton w c ih =>
        intro hpart
        have hbefore := ih fun u hu => hpart u (hu.trans (List.prefix_append w [c]))
        intro u hu hends
        rw [List.prefix_concat_iff] at hu
        rcases hu with rfl | hu
        · -- the script goes on up to the last byte, and there it is closed
          have hlast := hpart (w ++ [c]) (List.prefix_refl _) (by simp)
          rw [← foldl_enterScript (by simp), List.foldl_append, List.foldl_cons, List.foldl_nil,
            (hin.run hbefore).close ((endsScript_iff w c).mp hends)] at hlast
          simp [behindScript] at hlast
        · exact hbefore u hu hends
  · intro hw u hu hne
    rw [← foldl_enterScript hne]
    exact (hin.run fun v hv => hw v (hv.trans hu)).part

theorem inScript_closed :
    ¬∀ u, u <+: bytes "</b></Script >" → u ≠ [] →
      (u.foldl htmlParserControl ((bytes "<script>").foldl htmlParserControl {})).htmlPart =
        { script := true } := by
  have hiff := inScript_iff (s := (bytes "<script>").foldl htmlParserControl {}) (by decide)
    (by decide) (bytes "</b></Script >")
  exact hiff.not.mpr fun h => h (bytes "</b></Script ") (by decide)
    ⟨bytes "</b>", bytes "</Script", ' '.toUInt8, by decide, by decide, .inr (by decide)⟩

end Runs

end HtmlBenchmark.StreamParser
