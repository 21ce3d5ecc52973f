import HtmlBenchmark.Gumbo.Reading

/-!
Looking ahead in a page.

The tokenizer marks a place, reads on, and comes back if what it has read is not
what it looked for. Coming back reads the character at the mark once more; that
it stands there as it stood before rests on an iterator reading again what it
stands on. What is read again is reported again.
-/

namespace HtmlBenchmark.Gumbo

open Library Library.Utf8

theorem exists_readChar (source : List UInt8) (start : ℕ) :
    ∃ symbol : Option Symbol, ∀ iter : Utf8Iterator, iter.source = source → iter.start = start →
      readChar iter = symbol.elim { iter with current := -1, width := 0 } (standOn iter) := by
  obtain ⟨pieces, hpieces⟩ := exists_pieces (source.drop start)
  cases hsyms : symbols pieces with
  | nil =>
      obtain rfl := symbols_eq_nil hsyms
      refine ⟨none, ?_⟩
      rintro iter rfl rfl
      exact readChar_end hpieces
  | cons s rest =>
      refine ⟨some s, ?_⟩
      rintro iter rfl rfl
      exact (readChar_symbols hpieces hsyms).1

/-- It takes nothing from the character the iterator stood on. -/
theorem readChar_current_width (iter : Utf8Iterator) (current : ℤ) (width : ℕ) :
    readChar { iter with current, width } = readChar iter := by
  obtain ⟨symbol, hread⟩ := exists_readChar iter.source iter.start
  rw [hread { iter with current, width } rfl rfl, hread iter rfl rfl]
  cases symbol <;> rfl

theorem readChar_mark (iter : Utf8Iterator) (mark : ℕ) (markPos : GumboSourcePosition) :
    readChar { iter with mark, markPos } = { readChar iter with mark, markPos } := by
  obtain ⟨symbol, hread⟩ := exists_readChar iter.source iter.start
  rw [hread { iter with mark, markPos } rfl rfl, hread iter rfl rfl]
  cases symbol <;> rfl

/-- The error `read_char` reports where the iterator stands: that of the symbol
there, if it has one. -/
def ErrorAt (iter : Utf8Iterator) (error : Option GumboError) : Prop :=
  ∃ pieces, Divides (iter.source.drop iter.start) pieces ∧
    error = (symbols pieces).head?.bind fun s => s.error.map fun type =>
      { type, position := iter.pos, originalText := iter.start
        codepoint := some (rawValue s.bytes) }

/-- The parser has an error, or takes no more. -/
def GumboParser.HasReported (parser : GumboParser) (error : GumboError) : Prop :=
  error ∈ parser.errors ∨ 0 ≤ parser.maxErrors ∧ parser.maxErrors ≤ parser.errors.length

theorem hasReported_gumboAddError (parser : GumboParser) (error : GumboError) :
    (gumboAddError parser error).HasReported error := by
  rw [gumboAddError]
  split_ifs with hfull
  · exact .inr hfull
  · exact .inl (by simp)

/-- Reading the character again reports the error there once more, and changes
nothing else. -/
def Settled (iter : Utf8Iterator) : Prop :=
  ∃ error, ErrorAt iter error ∧ (∀ e ∈ error, iter.parser.HasReported e) ∧
    ∀ parser, readChar { iter with parser } =
      { iter with parser := error.elim parser (gumboAddError parser) }

/-- Behind the bytes left out, what is left begins with the symbol itself. -/
theorem exists_pieces_symbol {text : List UInt8} {pieces : List Piece} {s : Symbol}
    {rest : List Symbol} (h : Divides text pieces) (hs : symbols pieces = s :: rest) :
    ∃ pieces', Divides (text.drop s.skipped) pieces' ∧
      symbols pieces' = { s with skipped := 0 } :: rest := by
  cases pieces with
  | nil => cases hs
  | cons a pieces =>
      rw [symbols] at hs
      split_ifs at hs with hreturn
      · obtain ⟨rfl, hhead⟩ := hreturn
        obtain ⟨pieces', rfl⟩ := List.head?_eq_some_iff.mp hhead
        rw [symbols, if_neg (by simp)] at hs
        obtain ⟨rfl, rfl⟩ := List.cons.inj hs
        exact ⟨_, (divides_cons_iff.mp h).2, by rw [symbols, if_neg (by simp)]; rfl⟩
      · obtain ⟨rfl, rfl⟩ := List.cons.inj hs
        have hskipped : (symbolOf a).skipped = 0 := by cases a <;> rfl
        refine ⟨a :: pieces, by rwa [hskipped], ?_⟩
        rw [symbols, if_neg hreturn]
        cases a <;> rfl

/-- An iterator that has just read is settled. -/
theorem readChar_settled (iter : Utf8Iterator) : Settled (readChar iter) := by
  obtain ⟨pieces, hpieces⟩ := exists_pieces (iter.source.drop iter.start)
  cases hsyms : symbols pieces with
  | nil =>
      obtain rfl := symbols_eq_nil hsyms
      rw [readChar_end hpieces]
      exact ⟨none, ⟨[], hpieces, rfl⟩, by simp, fun parser => readChar_end hpieces⟩
  | cons s rest =>
      obtain ⟨pieces', hdrop, hsyms'⟩ := exists_pieces_symbol hpieces hsyms
      rw [List.drop_drop] at hdrop
      rw [(readChar_symbols hpieces hsyms).1]
      refine ⟨_, ⟨pieces', hdrop, rfl⟩, ?_, fun parser => ?_⟩
      · rw [hsyms']
        intro e he
        cases herror : s.error with
        | none => simp [herror] at he
        | some type =>
            simp only [herror, List.head?_cons, Option.bind_some, Option.map_some,
              Option.mem_def, Option.some.injEq] at he
            subst he
            simpa only [standOn, herror, Option.elim_some] using hasReported_gumboAddError _ _
      · have hread : readChar { standOn iter s with parser } = _ :=
          (readChar_symbols hdrop hsyms').1
        rw [hread, hsyms']
        cases herror : s.error <;> simp [standOn, herror]

theorem Settled.read_again {iter : Utf8Iterator} (h : Settled iter) :
    readChar iter = { iter with parser := (readChar iter).parser } := by
  obtain ⟨error, -, -, hread⟩ := h
  rw [show readChar iter = _ from hread iter.parser]

/-! ### Any calls -/

inductive Call
  | next
  | mark
  | reset
  | maybeConsumeMatch (literal : List UInt8) (caseSensitive : Bool)
  deriving DecidableEq

def Call.call : Call → Utf8Iterator → Utf8Iterator
  | .next, iter => utf8iteratorNext iter
  | .mark, iter => utf8iteratorMark iter
  | .reset, iter => utf8iteratorReset iter
  | .maybeConsumeMatch literal caseSensitive, iter =>
      (utf8iteratorMaybeConsumeMatch iter literal caseSensitive).2

/-- What every `utf8iterator_next` keeps, looking for a literal keeps. -/
theorem maybeConsumeMatch_invariant {P : Utf8Iterator → Prop}
    (hnext : ∀ iter, P iter → P (utf8iteratorNext iter)) {iter : Utf8Iterator} (h : P iter)
    (literal : List UInt8) (caseSensitive : Bool) :
    P (utf8iteratorMaybeConsumeMatch iter literal caseSensitive).2 := by
  have hskip : ∀ n iter, P iter → P (utf8iteratorSkip n iter) := by
    intro n
    induction n with
    | zero => exact fun iter h => h
    | succ n ih => exact fun iter h => ih _ (hnext iter h)
  rw [utf8iteratorMaybeConsumeMatch]
  split_ifs
  · exact hskip _ _ h
  · exact h

theorem Settled.call {iter : Utf8Iterator} (h : Settled iter) (call : Call) :
    Settled (call.call iter) := by
  cases call with
  | next => exact readChar_settled _
  | mark =>
      obtain ⟨error, hat, hreported, hread⟩ := h
      refine ⟨error, hat, hreported, fun parser => ?_⟩
      rw [Call.call, utf8iteratorMark]
      have hmark := readChar_mark { iter with parser } iter.start iter.pos
      rw [hread] at hmark
      exact hmark
  | reset => exact readChar_settled _
  | maybeConsumeMatch literal caseSensitive =>
      exact maybeConsumeMatch_invariant (fun iter _ => readChar_settled _) h literal caseSensitive

/-- The page and the mark, which only `utf8iterator_mark` sets. -/
def pageAndMark (iter : Utf8Iterator) : List UInt8 × ℕ × GumboSourcePosition :=
  (iter.source, iter.mark, iter.markPos)

theorem pageAndMark_readChar (iter : Utf8Iterator) :
    pageAndMark (readChar iter) = pageAndMark iter := by
  obtain ⟨symbol, hread⟩ := exists_readChar iter.source iter.start
  rw [hread iter rfl rfl]
  cases symbol <;> rfl

theorem pageAndMark_next (iter : Utf8Iterator) :
    pageAndMark (utf8iteratorNext iter) = pageAndMark iter := by
  rw [utf8iteratorNext, pageAndMark_readChar, updatePosition]
  split_ifs <;> rfl

theorem pageAndMark_call {call : Call} (h : call ≠ .mark) (iter : Utf8Iterator) :
    pageAndMark (call.call iter) = pageAndMark iter := by
  cases call with
  | next => exact pageAndMark_next iter
  | mark => exact absurd rfl h
  | reset => exact pageAndMark_readChar _
  | maybeConsumeMatch literal caseSensitive =>
      exact maybeConsumeMatch_invariant (P := fun i => pageAndMark i = pageAndMark iter)
        (fun i hi => (pageAndMark_next i).trans hi) rfl literal caseSensitive

def runCalls (calls : List Call) (iter : Utf8Iterator) : Utf8Iterator :=
  calls.foldl (fun i c => c.call i) iter

theorem Settled.runCalls {iter : Utf8Iterator} (h : Settled iter) (calls : List Call) :
    Settled (runCalls calls iter) := by
  induction calls generalizing iter with
  | nil => exact h
  | cons call calls ih => exact ih (h.call call)

theorem pageAndMark_runCalls {calls : List Call} (h : .mark ∉ calls) (iter : Utf8Iterator) :
    pageAndMark (runCalls calls iter) = pageAndMark iter := by
  induction calls generalizing iter with
  | nil => rfl
  | cons call calls ih =>
      rw [List.mem_cons, not_or] at h
      exact (ih h.2 _).trans (pageAndMark_call (Ne.symm h.1) iter)

/-- A reset from anywhere in the page with that mark. -/
theorem Settled.reset {iter later : Utf8Iterator} (h : Settled iter)
    (hmark : pageAndMark later = pageAndMark (utf8iteratorMark iter)) :
    ∃ error, ErrorAt (utf8iteratorMark iter) error ∧
      (∀ e ∈ error, (utf8iteratorMark iter).parser.HasReported e) ∧
      utf8iteratorReset later =
        { utf8iteratorMark iter with
          parser := error.elim later.parser (gumboAddError later.parser) } := by
  simp only [pageAndMark, utf8iteratorMark, Prod.mk.injEq] at hmark
  obtain ⟨hsource, hstart, hpos⟩ := hmark
  obtain ⟨error, hat, hreported, hread⟩ := h.call .mark
  rw [Call.call] at hat hreported hread
  refine ⟨error, hat, hreported, ?_⟩
  have hover := readChar_current_width { utf8iteratorMark iter with parser := later.parser }
    later.current later.width
  rw [← hread, ← hover, utf8iteratorReset, hstart, hpos]
  congr 1
  simp only [utf8iteratorMark, ← hsource, ← hstart, ← hpos]

/-- **Back at the mark.** Whatever calls come before a mark, and whatever calls
but another mark are made after it, a reset brings the iterator back: to the
place, the position and the character it stood on. Only the errors met on the
way remain. An error at the mark was reported when the iterator came there, and
is reported once more; if there is none, nothing is reported. -/
theorem utf8iteratorReset_mark (parser : GumboParser) (source : List UInt8) (iter : Utf8Iterator)
    (before : List Call) {between : List Call} (hbetween : .mark ∉ between) :
    ∃ (iter₁ iter₂ : Utf8Iterator) (error : Option GumboError),
      iter₁ = utf8iteratorMark (runCalls before (utf8iteratorInit parser source iter)) ∧
      iter₂ = runCalls between iter₁ ∧
      ErrorAt iter₁ error ∧ (∀ e ∈ error, iter₁.parser.HasReported e) ∧
      utf8iteratorReset iter₂ =
        { iter₁ with parser := error.elim iter₂.parser (gumboAddError iter₂.parser) } := by
  have hinit : Settled (utf8iteratorInit parser source iter) := readChar_settled _
  obtain ⟨error, hat, hreported, hreset⟩ :=
    (hinit.runCalls before).reset (pageAndMark_runCalls hbetween (utf8iteratorMark _))
  exact ⟨_, _, error, rfl, rfl, hat, hreported, hreset⟩

/-- At an ill-formed byte, which is reported twice. -/
theorem utf8iteratorReset_mark_illFormed :
    ∃ iter₁ iter₂ : Utf8Iterator,
      iter₁ = utf8iteratorMark
        (runCalls [.next] (utf8iteratorInit defaultParser [97, 0xFF, 98] default)) ∧
      iter₂ = runCalls [.next, .next] iter₁ ∧ (utf8iteratorReset iter₂).pos = iter₁.pos ∧
      (utf8iteratorReset iter₂).parser.errors.length = 2 := by
  have hbetween : Call.mark ∉ [Call.next, .next] := by decide
  obtain ⟨iter₁, iter₂, error, h₁, h₂, -, -, hreset⟩ :=
    utf8iteratorReset_mark defaultParser [97, 0xFF, 98] default [.next] hbetween
  refine ⟨iter₁, iter₂, h₁, h₂, by rw [hreset], ?_⟩
  rw [h₂, h₁]
  decide +kernel

/-! ### Literals -/

def Printable (b : UInt8) : Prop := 0x20 ≤ b.toNat ∧ b.toNat ≤ 0x7e

instance (b : UInt8) : Decidable (Printable b) := inferInstanceAs (Decidable (_ ∧ _))

theorem Printable.char {b : UInt8} (h : Printable b) :
    ∃ c : Char, String.utf8EncodeChar c = [b] ∧
      symbolOf (.char c) = { skipped := 0, bytes := [b], char := c, error := none } ∧
      c ≠ '\r' ∧ c ≠ '\n' ∧ c ≠ '\t' := by
  have htable : ∀ b : UInt8, Printable b →
      String.utf8EncodeChar (Char.ofNat b.toNat) = [b] ∧
        symbolOf (.char (Char.ofNat b.toNat)) =
          { skipped := 0, bytes := [b], char := Char.ofNat b.toNat, error := none } ∧
        Char.ofNat b.toNat ≠ '\r' ∧ Char.ofNat b.toNat ≠ '\n' ∧ Char.ofNat b.toNat ≠ '\t' :=
    forall_byte (by decide +kernel)
  exact ⟨_, htable b h⟩

def moved (iter : Utf8Iterator) (n : ℕ) : Utf8Iterator :=
  { iter with
    start := iter.start + n
    pos := { iter.pos with column := iter.pos.column + n, offset := iter.pos.offset + n } }

theorem moved_moved (iter : Utf8Iterator) (m n : ℕ) :
    moved (moved iter m) n = moved iter (m + n) := by
  simp only [moved, Nat.add_assoc]

theorem readChar_printable {iter : Utf8Iterator} {b : UInt8} (hb : Printable b)
    {rest : List UInt8} (hdrop : iter.source.drop iter.start = b :: rest) :
    (readChar iter).parser = iter.parser ∧
      utf8iteratorNext (readChar iter) = readChar (moved iter 1) := by
  obtain ⟨c, hencode, hsymbol, hreturn, hnewline, htab⟩ := hb.char
  have hread : readChar iter = standOn iter (symbolOf (.char c)) := readChar_of_ne
    (.char (by rw [hencode, hdrop]; exact ⟨rest, rfl⟩)) (by simpa using hreturn)
  rw [hsymbol] at hread
  rw [hread]
  refine ⟨rfl, ?_⟩
  rw [utf8iteratorNext_standOn, ← readChar_current_width (moved iter 1) c.toNat 1]
  congr 1
  simp [standOn, behind, moved, hnewline, htab]

/-- As many characters on as there are bytes. -/
theorem skip_printable {bytes : List UInt8} (hbytes : ∀ b ∈ bytes, Printable b)
    {iter : Utf8Iterator} (hhead : bytes <+: iter.source.drop iter.start) :
    utf8iteratorSkip bytes.length (readChar iter) = readChar (moved iter bytes.length) := by
  induction bytes generalizing iter with
  | nil => rfl
  | cons b bytes ih =>
      obtain ⟨hb, hrest⟩ := List.forall_mem_cons.mp hbytes
      obtain ⟨tail, htail⟩ := hhead
      have hdrop : bytes <+: (moved iter 1).source.drop (moved iter 1).start := by
        have hone : iter.source.drop (iter.start + 1) = bytes ++ tail := by
          rw [← List.drop_drop, ← htail]
          rfl
        exact ⟨tail, hone.symm⟩
      rw [List.length_cons, utf8iteratorSkip, (readChar_printable hb htail.symm).2,
        ih hrest hdrop, moved_moved, Nat.add_comm]

def caseOf (caseSensitive : Bool) : UInt8 → UInt8 := if caseSensitive then id else tolower

theorem matched_iff {iter : Utf8Iterator} {literal : List UInt8} (hne : literal ≠ [])
    (hprintable : ∀ b ∈ literal, Printable b) (caseSensitive : Bool) :
    matched iter literal caseSensitive = true ↔
      ((iter.source.drop iter.start).take literal.length).map (caseOf caseSensitive) =
        literal.map (caseOf caseSensitive) := by
  have hnul : 0 ∉ literal := fun h => absurd (hprintable 0 h) (by decide)
  have hnorm : ∀ c, caseOf caseSensitive c = caseOf caseSensitive 0 → c = 0 := by
    intro c hc
    cases caseSensitive with
    | true => exact hc
    | false => exact tolower_eq_zero.mp hc
  have hcompare : matched iter literal caseSensitive = true ↔
      iter.start + literal.length ≤ iter.source.length ∧
        (readAt (cstr (iter.source.drop iter.start)) 0 literal.length).map (caseOf caseSensitive) =
          literal.map (caseOf caseSensitive) := by
    rw [← cmpn_cstr_iff hnorm hnul, matched, Bool.and_eq_true, decide_eq_true_eq]
    cases caseSensitive <;> rfl
  have hpos := List.length_pos_iff.mpr hne
  rw [hcompare]
  constructor
  · rintro ⟨hroom, heq⟩
    have hlength : literal.length ≤ (iter.source.drop iter.start).length := by
      rw [List.length_drop]
      omega
    rwa [← take_readAt hlength, readAt_cstr] at heq
  · intro heq
    have hlength := congrArg List.length heq
    rw [List.length_map, List.length_map, List.length_take, List.length_drop] at hlength
    refine ⟨by omega, ?_⟩
    rwa [← take_readAt (n := (iter.source.drop iter.start).length), readAt_cstr]
    rw [List.length_drop]
    omega

theorem printable_of_caseOf {caseSensitive : Bool} {b c : UInt8}
    (h : caseOf caseSensitive b = caseOf caseSensitive c) (hc : Printable c) : Printable b := by
  have htable : ∀ b : UInt8, Printable (tolower b) ↔ Printable b := forall_byte (by decide +kernel)
  cases caseSensitive with
  | true => exact (show b = c from h) ▸ hc
  | false =>
      have hlower : tolower b = tolower c := h
      exact (htable b).mp (hlower ▸ (htable c).mpr hc)

/-- A settled iterator in front of printable bytes is as if just read. -/
theorem Settled.skip {iter : Utf8Iterator} (h : Settled iter) {bytes : List UInt8}
    (hne : bytes ≠ []) (hbytes : ∀ b ∈ bytes, Printable b)
    (hhead : bytes <+: iter.source.drop iter.start) :
    utf8iteratorSkip bytes.length iter = readChar (moved iter bytes.length) := by
  have hskip := skip_printable hbytes hhead
  obtain ⟨b, bytes, rfl⟩ := List.exists_cons_of_ne_nil hne
  obtain ⟨tail, htail⟩ := hhead
  have hparser := (readChar_printable (List.forall_mem_cons.mp hbytes).1 htail.symm).1
  have hread : readChar iter = iter := by rw [h.read_again, hparser]
  rwa [hread] at hskip

/-- **Literals.** Wherever calls have brought the iterator, it finds a literal
exactly if that is what the page goes on with, in that letter case or in any. It
then stands on the character behind, as if read there, and else it is as it was. -/
theorem maybeConsumeMatch_eq (parser : GumboParser) (source : List UInt8) (iter : Utf8Iterator)
    (calls : List Call) {literal : List UInt8} (hne : literal ≠ [])
    (hprintable : ∀ b ∈ literal, Printable b) (caseSensitive : Bool) :
    ∃ iter₁, iter₁ = runCalls calls (utf8iteratorInit parser source iter) ∧
      utf8iteratorMaybeConsumeMatch iter₁ literal caseSensitive =
        if ((iter₁.source.drop iter₁.start).take literal.length).map (caseOf caseSensitive) =
            literal.map (caseOf caseSensitive) then
          (true, readChar (moved iter₁ literal.length))
        else (false, iter₁) := by
  have hsettled : Settled (runCalls calls (utf8iteratorInit parser source iter)) :=
    Settled.runCalls (readChar_settled _) calls
  generalize runCalls calls (utf8iteratorInit parser source iter) = iter₁ at hsettled
  refine ⟨iter₁, rfl, ?_⟩
  rw [utf8iteratorMaybeConsumeMatch]
  by_cases hmatched : matched iter₁ literal caseSensitive = true
  · have heq := (matched_iff hne hprintable caseSensitive).mp hmatched
    have hlength := congrArg List.length heq
    rw [List.length_map, List.length_map] at hlength
    have hbytes : ∀ b ∈ (iter₁.source.drop iter₁.start).take literal.length, Printable b := by
      intro b hb
      have hmem := heq ▸ List.mem_map_of_mem (f := caseOf caseSensitive) hb
      obtain ⟨c, hc, hcase⟩ := List.mem_map.mp hmem
      exact printable_of_caseOf hcase.symm (hprintable c hc)
    have hsome : (iter₁.source.drop iter₁.start).take literal.length ≠ [] := by
      intro hnil
      rw [hnil] at hlength
      exact hne (List.length_eq_zero_iff.mp hlength.symm)
    have hskip := hsettled.skip hsome hbytes (List.take_prefix _ _)
    rw [hlength] at hskip
    rw [if_pos hmatched, if_pos heq, hskip]
  · rw [if_neg hmatched, if_neg fun h => hmatched ((matched_iff hne hprintable _).mpr h)]

theorem maybeConsumeMatch_doctype :
    ∃ iter₁, iter₁ = runCalls [.next, .next]
        (utf8iteratorInit defaultParser (bytes "<!DocType html>") default) ∧
      utf8iteratorMaybeConsumeMatch iter₁ (bytes "DOCTYPE") false =
        (true, readChar (moved iter₁ 7)) := by
  have hne : bytes "DOCTYPE" ≠ [] := by decide
  obtain ⟨iter₁, h₁, hmatch⟩ := maybeConsumeMatch_eq defaultParser (bytes "<!DocType html>")
    default [.next, .next] hne (by decide +kernel) false
  refine ⟨iter₁, h₁, hmatch.trans (if_pos ?_)⟩
  rw [h₁]
  decide +kernel

end HtmlBenchmark.Gumbo
