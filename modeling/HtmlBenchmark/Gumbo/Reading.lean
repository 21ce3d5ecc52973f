import HtmlBenchmark.Gumbo.Decoding

/-!
What the iterator reads from a page.

The page divides into characters and ill-formed pieces, and of these the
iterator makes what HTML asks for: a carriage return is a newline, or nothing in
front of one, and what is no character, or a forbidden one, is replaced and
reported.
-/

namespace HtmlBenchmark.Gumbo

open Library Library.Utf8

/-- What the iterator stands on: the bytes it has left out in front, the bytes
under the cursor, and what is read for them. -/
structure Symbol where
  skipped : ℕ
  bytes : List UInt8
  char : Char
  error : Option GumboErrorType
  deriving DecidableEq

def symbolOf : Piece → Symbol
  | .char c =>
      { skipped := 0
        bytes := String.utf8EncodeChar c
        char := if c = '\r' then '\n' else if utf8IsInvalidCodePoint c.toNat then '\uFFFD' else c
        error := if c ≠ '\r' ∧ utf8IsInvalidCodePoint c.toNat then some .utf8Invalid else none }
  | .illFormed p => { skipped := 0, bytes := p, char := '\uFFFD', error := some .utf8Invalid }
  | .truncated p => { skipped := 0, bytes := p, char := '\uFFFD', error := some .utf8Truncated }

def Symbol.skip (s : Symbol) : Symbol := { s with skipped := s.skipped + 1 }

/-- A carriage return in front of a newline belongs to it. -/
def symbols : List Piece → List Symbol
  | [] => []
  | a :: pieces =>
      if a = .char '\r' ∧ pieces.head? = some (.char '\n') then
        (symbols pieces).modifyHead Symbol.skip
      else symbolOf a :: symbols pieces

/-- The iterator on a symbol. -/
def standOn (iter : Utf8Iterator) (s : Symbol) : Utf8Iterator :=
  let pos := { iter.pos with offset := iter.pos.offset + s.skipped }
  { iter with
    start := iter.start + s.skipped, width := s.bytes.length, current := s.char.toNat, pos
    parser := s.error.elim iter.parser fun type => gumboAddError iter.parser
      { type, position := pos, originalText := iter.start + s.skipped
        codepoint := some (rawValue s.bytes) } }

theorem take_bytes {a : Piece} {text : List UInt8} (h : Heads a text) :
    text.take a.bytes.length = a.bytes := (List.prefix_iff_eq_take.mp h.isPrefix).symm

theorem start_lt_of_heads {a : Piece} {iter : Utf8Iterator}
    (h : Heads a (iter.source.drop iter.start)) : ¬iter.source.length ≤ iter.start := by
  intro hend
  rw [List.drop_eq_nil_of_le hend] at h
  exact h.bytes_ne_nil (List.prefix_nil.mp h.isPrefix)

/-- `read_char` in front of anything but a carriage return. -/
theorem readChar_of_ne {iter : Utf8Iterator} {a : Piece}
    (h : Heads a (iter.source.drop iter.start)) (ha : a ≠ .char '\r') :
    readChar iter = standOn iter (symbolOf a) := by
  have hbytes := take_bytes h
  have hscan := scan_heads h
  rw [readChar, if_neg (start_lt_of_heads h), hscan]
  cases a with
  | char c =>
      have hc : c ≠ '\r' := fun hc => ha (by rw [hc])
      have hne : c.toNat ≠ 13 := fun h13 => hc (Char.toNat_inj.mp h13)
      simp only [scanOf, if_neg hne]
      rw [Piece.bytes] at hbytes
      split_ifs with hinvalid
      · simp only [standOn, symbolOf, addError, hbytes, hc, hinvalid, if_true, if_false,
          ne_eq, not_false_eq_true, and_self, Option.elim_some, Nat.add_zero]
        rfl
      · simp [standOn, symbolOf, hc, hinvalid]
  | illFormed p =>
      rw [Piece.bytes] at hbytes
      simp only [scanOf, standOn, symbolOf, addError, hbytes, Option.elim_some, Nat.add_zero]
      rfl
  | truncated p =>
      have htext : iter.source.drop iter.start = p := by cases h; rfl
      have hwidth : iter.source.length - iter.start = p.length := by
        rw [← List.length_drop, htext]
      simp only [scanOf, standOn, symbolOf, addError, htext, hwidth, List.take_length,
        Option.elim_some, Nat.add_zero]
      rfl

theorem readChar_return {iter : Utf8Iterator}
    (h : Heads (.char '\r') (iter.source.drop iter.start))
    (hnext : iter.source[iter.start + 1]? ≠ some 10) :
    readChar iter = standOn iter (symbolOf (.char '\r')) := by
  rw [readChar, if_neg (start_lt_of_heads h), scan_heads h]
  simp only [scanOf, skipCarriageReturn, if_neg hnext]
  rfl

/-- `read_char` at a carriage return in front of a newline reads the newline. -/
theorem readChar_return_newline {iter : Utf8Iterator}
    (h : Heads (.char '\r') (iter.source.drop iter.start))
    (hnext : iter.source[iter.start + 1]? = some 10) :
    readChar iter = standOn iter (symbolOf (.char '\n')).skip := by
  rw [readChar, if_neg (start_lt_of_heads h), scan_heads h]
  simp only [scanOf, skipCarriageReturn, if_pos hnext]
  rfl

theorem head?_newline_iff {text : List UInt8} {pieces : List Piece} (h : Divides text pieces) :
    pieces.head? = some (.char '\n') ↔ text.head? = some 10 := by
  have hbytes : String.utf8EncodeChar '\n' = [10] := rfl
  cases h with
  | nil => simp
  | @cons a rest pieces ha _ =>
      rw [List.head?_cons, Option.some.injEq]
      constructor
      · rintro rfl
        rw [Piece.bytes, hbytes]
        rfl
      · intro hhead
        obtain ⟨l, hl⟩ := List.head?_eq_some_iff.mp hhead
        exact heads_unique ha (.char ⟨l, by rw [hl, hbytes]; rfl⟩)

/-- **One character read.** In front of the pieces left, `read_char` comes to
stand on their first symbol, and behind it the others are left. -/
theorem readChar_symbols {iter : Utf8Iterator} {pieces : List Piece} {s : Symbol}
    {rest : List Symbol} (h : Divides (iter.source.drop iter.start) pieces)
    (hs : symbols pieces = s :: rest) :
    readChar iter = standOn iter s ∧
      ∃ pieces', Divides (iter.source.drop (iter.start + s.skipped + s.bytes.length)) pieces' ∧
        symbols pieces' = rest := by
  cases pieces with
  | nil => cases hs
  | cons a pieces =>
      obtain ⟨ha, hrest⟩ := divides_cons_iff.mp h
      rw [List.drop_drop] at hrest
      have hnewline := head?_newline_iff hrest
      rw [List.head?_drop] at hnewline
      rw [symbols] at hs
      split_ifs at hs with hreturn
      · obtain ⟨rfl, hhead⟩ := hreturn
        obtain ⟨pieces', rfl⟩ := List.head?_eq_some_iff.mp hhead
        rw [symbols, if_neg (by simp)] at hs
        obtain ⟨rfl, rfl⟩ := List.cons.inj hs
        have hdrop := (divides_cons_iff.mp hrest).2
        rw [List.drop_drop] at hdrop
        exact ⟨readChar_return_newline ha (hnewline.mp hhead), pieces', hdrop, rfl⟩
      · obtain ⟨rfl, rfl⟩ := List.cons.inj hs
        have hskipped : (symbolOf a).skipped = 0 ∧ (symbolOf a).bytes = a.bytes := by
          cases a <;> exact ⟨rfl, rfl⟩
        rw [hskipped.1, hskipped.2, Nat.add_zero]
        refine ⟨?_, pieces, hrest, rfl⟩
        by_cases hreturn' : a = .char '\r'
        · subst hreturn'
          exact readChar_return ha fun hnext => hreturn ⟨rfl, hnewline.mpr hnext⟩
        · exact readChar_of_ne ha hreturn'

theorem readChar_end {iter : Utf8Iterator} (h : Divides (iter.source.drop iter.start) []) :
    readChar iter = { iter with current := -1, width := 0 } := by
  have hend := List.drop_eq_nil_iff.mp h.flatMap_bytes.symm
  rw [readChar, if_pos hend]

/-! ### A whole page -/

/-- Reads on until the end: the iterators in front of it, and the last one. -/
def readAll : ℕ → Utf8Iterator → List Utf8Iterator × Utf8Iterator
  | 0, iter => ([], iter)
  | n + 1, iter =>
      if iter.current = -1 then ([], iter)
      else
        let later := readAll n (utf8iteratorNext iter)
        (iter :: later.1, later.2)

/-- What a client gets from an iterator. -/
def reading (iter : Utf8Iterator) : GumboSourcePosition × ℤ := (iter.pos, iter.current)

/-- The position behind a symbol that stands at `pos`. -/
def behind (tabStop : ℕ) (pos : GumboSourcePosition) (s : Symbol) : GumboSourcePosition :=
  { line := if s.char = '\n' then pos.line + 1 else pos.line
    column :=
      if s.char = '\n' then 1
      else if s.char = '\t' then (pos.column / tabStop + 1) * tabStop
      else pos.column + 1
    offset := pos.offset + s.bytes.length }

def located (tabStop : ℕ) : GumboSourcePosition → List Symbol → List (GumboSourcePosition × Symbol)
  | _, [] => []
  | pos, s :: rest =>
      let here := { pos with offset := pos.offset + s.skipped }
      (here, s) :: located tabStop (behind tabStop here s) rest

def reportOf (x : GumboSourcePosition × Symbol) : Option GumboError :=
  x.2.error.map fun type =>
    { type, position := x.1, originalText := x.1.offset, codepoint := some (rawValue x.2.bytes) }

@[simp] theorem gumboAddError_tabStop (parser : GumboParser) (error : GumboError) :
    (gumboAddError parser error).tabStop = parser.tabStop := by
  rw [gumboAddError]
  split_ifs <;> rfl

/-- `utf8iterator_next` from a symbol goes on behind it. -/
theorem utf8iteratorNext_standOn (iter : Utf8Iterator) (s : Symbol) :
    utf8iteratorNext (standOn iter s) =
      readChar { standOn iter s with
        start := iter.start + s.skipped + s.bytes.length
        pos := behind iter.parser.tabStop
          { iter.pos with offset := iter.pos.offset + s.skipped } s } := by
  have hten : (s.char.toNat : ℤ) = 10 ↔ s.char = '\n' := by
    rw [← Char.toNat_inj]
    exact Int.ofNat_inj
  have hnine : (s.char.toNat : ℤ) = 9 ↔ s.char = '\t' := by
    rw [← Char.toNat_inj]
    exact Int.ofNat_inj
  have htab : (standOn iter s).parser.tabStop = iter.parser.tabStop := by
    cases herror : s.error <;> simp [standOn, herror]
  have hend : (s.char.toNat : ℤ) ≠ -1 := by omega
  rw [utf8iteratorNext, updatePosition, htab]
  simp only [standOn, behind, hten, hnine, hend, ne_eq, not_false_eq_true, if_true]
  split_ifs <;> rfl

theorem symbols_eq_nil {pieces : List Piece} (h : symbols pieces = []) : pieces = [] := by
  induction pieces with
  | nil => rfl
  | cons a pieces ih =>
      rw [symbols] at h
      split_ifs at h with hreturn
      rw [List.modifyHead_eq_nil_iff] at h
      simp [ih h] at hreturn

theorem length_symbols_le (pieces : List Piece) : (symbols pieces).length ≤ pieces.length := by
  induction pieces with
  | nil => exact Nat.le_refl _
  | cons a pieces ih =>
      rw [symbols, List.length_cons]
      split_ifs
      · rw [List.length_modifyHead]
        exact Nat.le_succ_of_le ih
      · exact Nat.succ_le_succ ih

@[simp] theorem standOn_tabStop (iter : Utf8Iterator) (s : Symbol) :
    (standOn iter s).parser.tabStop = iter.parser.tabStop := by
  cases herror : s.error <;> simp [standOn, herror]

theorem standOn_reports {iter : Utf8Iterator} (hoffset : iter.pos.offset = iter.start)
    (s : Symbol) :
    (standOn iter s).parser =
      (reportOf ({ iter.pos with offset := iter.pos.offset + s.skipped }, s)).elim iter.parser
        (gumboAddError iter.parser) := by
  cases herror : s.error <;> simp [standOn, reportOf, herror, hoffset]

/-- What reading on from in front of the pieces left comes to. -/
theorem readAll_symbols {iter : Utf8Iterator} {pieces : List Piece} {syms : List Symbol}
    (h : Divides (iter.source.drop iter.start) pieces) (hsyms : symbols pieces = syms)
    (hoffset : iter.pos.offset = iter.start) {n : ℕ} (hn : syms.length < n) :
    (readAll n (readChar iter)).1.map reading =
        (located iter.parser.tabStop iter.pos syms).map (fun x => (x.1, (x.2.char.toNat : ℤ))) ∧
      (readAll n (readChar iter)).2.current = -1 ∧
      (readAll n (readChar iter)).2.parser =
        ((located iter.parser.tabStop iter.pos syms).filterMap reportOf).foldl gumboAddError
          iter.parser := by
  obtain ⟨n, rfl⟩ : ∃ m, n = m + 1 := ⟨n - 1, by omega⟩
  induction syms generalizing iter pieces n with
  | nil =>
      obtain rfl := symbols_eq_nil hsyms
      rw [readChar_end h]
      exact ⟨rfl, rfl, rfl⟩
  | cons s rest ih =>
      obtain ⟨hread, pieces', hpieces', hrest⟩ := readChar_symbols h hsyms
      obtain ⟨n, rfl⟩ : ∃ m, n = m + 1 := ⟨n - 1, by simp at hn; omega⟩
      have hcurrent : (readChar iter).current ≠ -1 := by
        rw [hread]
        exact ne_of_gt (Int.lt_of_lt_of_le (by decide) (Int.natCast_nonneg s.char.toNat))
      rw [readAll, if_neg hcurrent, hread, utf8iteratorNext_standOn]
      have hlater := @ih { standOn iter s with
        start := iter.start + s.skipped + s.bytes.length
        pos := behind iter.parser.tabStop
          { iter.pos with offset := iter.pos.offset + s.skipped } s }
        pieces' hpieces' hrest (by simp [behind, hoffset]) n (by simpa using hn)
      obtain ⟨hreadings, hend, herrors⟩ := hlater
      rw [standOn_tabStop] at hreadings herrors
      refine ⟨?_, hend, ?_⟩
      · rw [List.map_cons, hreadings]
        rfl
      · rw [herrors, standOn_reports hoffset, located, List.filterMap_cons]
        cases hreport : reportOf ({ iter.pos with offset := iter.pos.offset + s.skipped }, s) <;>
          rfl

/-- The errors there is still room for. -/
def admitted (parser : GumboParser) (errors : List GumboError) : List GumboError :=
  if parser.maxErrors < 0 then errors
  else errors.take (parser.maxErrors.toNat - parser.errors.length)

theorem foldl_gumboAddError (errors : List GumboError) (parser : GumboParser) :
    errors.foldl gumboAddError parser =
      { parser with errors := parser.errors ++ admitted parser errors } := by
  induction errors generalizing parser with
  | nil => simp [admitted]
  | cons error errors ih =>
      rw [List.foldl_cons, ih, gumboAddError]
      by_cases hunlimited : parser.maxErrors < 0
      · rw [if_neg (by omega)]
        simp [admitted, hunlimited]
      · by_cases hfull : parser.maxErrors ≤ parser.errors.length
        · rw [if_pos ⟨by omega, hfull⟩]
          have hroom : parser.maxErrors.toNat - parser.errors.length = 0 := by omega
          simp [admitted, hunlimited, hroom]
        · rw [if_neg (by omega)]
          obtain ⟨room, hroom⟩ : ∃ m, parser.maxErrors.toNat - parser.errors.length = m + 1 :=
            ⟨parser.maxErrors.toNat - parser.errors.length - 1, by omega⟩
          have hroom' : parser.maxErrors.toNat - (parser.errors.length + 1) = room := by omega
          simp [admitted, hunlimited, hroom, hroom']

def pageStart : GumboSourcePosition := { line := 1, column := 1, offset := 0 }

theorem readAll_utf8iteratorInit (parser : GumboParser) {source : List UInt8} (iter : Utf8Iterator)
    {pieces : List Piece} (h : Divides source pieces) (n : ℕ) :
    (readAll (source.length + 1 + n) (utf8iteratorInit parser source iter)).1.map reading =
        (located parser.tabStop pageStart (symbols pieces)).map
          (fun x => (x.1, (x.2.char.toNat : ℤ))) ∧
      (readAll (source.length + 1 + n) (utf8iteratorInit parser source iter)).2.current = -1 ∧
      (readAll (source.length + 1 + n) (utf8iteratorInit parser source iter)).2.parser =
        { parser with
          errors := parser.errors ++ admitted parser
            ((located parser.tabStop pageStart (symbols pieces)).filterMap reportOf) } := by
  have hlength := Nat.le_trans (length_symbols_le pieces) h.length_le
  rw [← foldl_gumboAddError]
  exact @readAll_symbols { iter with source, start := 0, pos := pageStart, parser }
    pieces _ h rfl rfl _ (by omega)

/-- **Reading a page.** The page divides into characters and ill-formed pieces,
and the iterator comes to stand on each of their symbols and then at the end. It
tells their positions and reports the ones that are replaced, as far as errors
are still taken. -/
theorem iterates_page (parser : GumboParser) (source : List UInt8) (iter : Utf8Iterator) (n : ℕ) :
    ∃ pieces, Divides source pieces ∧
      (readAll (source.length + 1 + n) (utf8iteratorInit parser source iter)).1.map reading =
        (located parser.tabStop pageStart (symbols pieces)).map
          (fun x => (x.1, (x.2.char.toNat : ℤ))) ∧
      (readAll (source.length + 1 + n) (utf8iteratorInit parser source iter)).2.current = -1 ∧
      (readAll (source.length + 1 + n) (utf8iteratorInit parser source iter)).2.parser =
        { parser with
          errors := parser.errors ++ admitted parser
            ((located parser.tabStop pageStart (symbols pieces)).filterMap reportOf) } := by
  obtain ⟨pieces, hpieces⟩ := exists_pieces source
  exact ⟨pieces, hpieces, readAll_utf8iteratorInit parser iter hpieces n⟩

end HtmlBenchmark.Gumbo
