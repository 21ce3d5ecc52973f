import HtmlBenchmark.Gumbo.Reading
import HtmlBenchmark.Gumbo.StringBuffer

/-!
Text that is read from a page and appended to a buffer.

The tokenizer hands the tree builder one character after the other, and these
are appended to the buffer of a text node as they come. What arrives there is
well-formed UTF-8 without carriage returns and forbidden characters, whatever
stood in the page, and nothing more is changed.
-/

namespace HtmlBenchmark.Gumbo

open Library Library.Utf8

/-- A character that is read as it is. -/
def CleanChar (c : Char) : Prop := c ≠ '\r' ∧ ¬utf8IsInvalidCodePoint c.toNat

instance (c : Char) : Decidable (CleanChar c) := inferInstanceAs (Decidable (_ ∧ _))

def charsRead (source : List UInt8) (iter : Utf8Iterator) : List Utf8Iterator × Utf8Iterator :=
  readAll (source.length + 1) (utf8iteratorInit defaultParser source iter)

/-- The buffer a text node gets its characters in. -/
def copyPage (source : List UInt8) (iter : Utf8Iterator) : GumboStringBuffer :=
  (((charsRead source iter).1.map fun i =>
    GumboStringBuffer.Op.appendCodepoint i.current.toNat).foldl GumboStringBuffer.Op.step
      GumboStringBuffer.init).1

theorem symbolOf_cleanChar (a : Piece) : CleanChar (symbolOf a).char := by
  cases a with
  | char c =>
      simp only [symbolOf]
      split_ifs with hreturn hinvalid
      · decide
      · decide
      · exact ⟨hreturn, hinvalid⟩
  | illFormed p => exact (by decide : CleanChar '\uFFFD')
  | truncated p => exact (by decide : CleanChar '\uFFFD')

theorem chars_clean (pieces : List Piece) :
    ∀ c ∈ (symbols pieces).map Symbol.char, CleanChar c := by
  induction pieces with
  | nil => simp [symbols]
  | cons a pieces ih =>
      rw [symbols]
      split_ifs
      · have hskip : ((symbols pieces).modifyHead Symbol.skip).map Symbol.char =
            (symbols pieces).map Symbol.char := by
          cases symbols pieces <;> rfl
        rwa [hskip]
      · exact List.forall_mem_cons.mpr ⟨symbolOf_cleanChar a, ih⟩

theorem map_located {α : Type*} (f : Symbol → α) (tabStop : ℕ) (pos : GumboSourcePosition)
    (syms : List Symbol) : (located tabStop pos syms).map (fun x => f x.2) = syms.map f := by
  induction syms generalizing pos with
  | nil => rfl
  | cons s rest ih => rw [located, List.map_cons, List.map_cons, ih]

theorem map_current_charsRead {source : List UInt8} {pieces : List Piece}
    (h : Divides source pieces) (iter : Utf8Iterator) :
    (charsRead source iter).1.map (·.current) =
      (symbols pieces).map fun s => (s.char.toNat : ℤ) := by
  have hreadings := (readAll_utf8iteratorInit defaultParser iter h 0).1
  rw [← map_located _ defaultParser.tabStop pageStart]
  simpa [reading, charsRead, List.map_map, Function.comp_def] using
    congrArg (List.map Prod.snd) hreadings

theorem copyPage_data {source : List UInt8} {pieces : List Piece} (h : Divides source pieces)
    (iter : Utf8Iterator) :
    (copyPage source iter).data =
      ((symbols pieces).map Symbol.char).flatMap String.utf8EncodeChar := by
  have hcurrent := congrArg (List.map fun c : ℤ => GumboStringBuffer.Op.appendCodepoint c.toNat)
    (map_current_charsRead h iter)
  simp only [List.map_map, Function.comp_def, Int.toNat_natCast] at hcurrent
  rw [copyPage, hcurrent, GumboStringBuffer.foldl_step_data, List.foldl_map,
    List.flatMap_eq_foldl, List.foldl_map]
  simp only [GumboStringBuffer.Op.apply, GumboStringBuffer.codepointBytes_char]
  rfl

/-! ### Clean text -/

/-- What a character is read as that is read as it is. -/
def plain (c : Char) : Symbol :=
  { skipped := 0, bytes := String.utf8EncodeChar c, char := c, error := none }

theorem symbols_chars {cs : List Char} (h : ∀ c ∈ cs, CleanChar c) :
    symbols (cs.map .char) = cs.map plain := by
  induction cs with
  | nil => rfl
  | cons c cs ih =>
      obtain ⟨⟨hreturn, hvalid⟩, hcs⟩ := List.forall_mem_cons.mp h
      rw [List.map_cons, symbols, if_neg (by simp [hreturn]), ih hcs, List.map_cons]
      simp [symbolOf, plain, hreturn, hvalid]

theorem filterMap_reportOf_eq_nil_iff (tabStop : ℕ) (pos : GumboSourcePosition)
    {syms : List Symbol} :
    (located tabStop pos syms).filterMap reportOf = [] ↔ ∀ s ∈ syms, s.error = none := by
  have hmap : (located tabStop pos syms).map Prod.snd = syms := by
    simpa using map_located id tabStop pos syms
  rw [List.filterMap_eq_nil_iff]
  simp only [reportOf, Option.map_eq_none_iff]
  conv_rhs => rw [← hmap]
  exact (List.forall_mem_map (P := fun s : Symbol => s.error = none)).symm

theorem charsRead_reports_iff {source : List UInt8} {pieces : List Piece}
    (h : Divides source pieces) (iter : Utf8Iterator) :
    (charsRead source iter).2.parser = defaultParser ↔ ∀ s ∈ symbols pieces, s.error = none := by
  rw [charsRead, (readAll_utf8iteratorInit defaultParser iter h 0).2.2,
    ← filterMap_reportOf_eq_nil_iff defaultParser.tabStop pageStart]
  simp [defaultParser, admitted]

theorem flatMap_clean {cs : List Char} (h : ∀ c ∈ cs, CleanChar c) (iter : Utf8Iterator) :
    (charsRead (cs.flatMap String.utf8EncodeChar) iter).1.map (·.current) =
        cs.map (fun c => (c.toNat : ℤ)) ∧
      (charsRead (cs.flatMap String.utf8EncodeChar) iter).2.parser = defaultParser ∧
      (copyPage (cs.flatMap String.utf8EncodeChar) iter).data =
        cs.flatMap String.utf8EncodeChar := by
  have hdivides := divides_chars cs
  have hchars : (cs.map plain).map Symbol.char = cs := by simp [Function.comp_def, plain]
  rw [map_current_charsRead hdivides, charsRead_reports_iff hdivides, copyPage_data hdivides,
    symbols_chars h, hchars]
  simp [plain]

/-- **Once is enough.** The copy of a page, whatever the page is, is read without
an error, as the page was, and copied as it is. -/
theorem copyPage_copyPage (source : List UInt8) (iter iter' : Utf8Iterator) :
    (charsRead (copyPage source iter).data iter').1.map (·.current) =
        (charsRead source iter).1.map (·.current) ∧
      (charsRead (copyPage source iter).data iter').2.parser = defaultParser ∧
      (copyPage (copyPage source iter).data iter').data = (copyPage source iter).data := by
  obtain ⟨pieces, hpieces⟩ := exists_pieces source
  have hcopy := flatMap_clean (chars_clean pieces) iter'
  rw [copyPage_data hpieces, map_current_charsRead hpieces]
  simpa [List.map_map, Function.comp_def] using hcopy

theorem return_not_mem {cs : List Char} (h : ∀ c ∈ cs, CleanChar c) :
    13 ∉ cs.flatMap String.utf8EncodeChar := by
  intro hmem
  obtain ⟨c, hc, hbyte⟩ := List.mem_flatMap.mp hmem
  exact (h c hc).1 (Char.toNat_inj.mp (toNat_eq_of_mem hbyte (by decide)).symm)

theorem exists_chars {pieces : List Piece} (hreturn : .char '\r' ∉ pieces)
    (herror : ∀ s ∈ symbols pieces, s.error = none) :
    ∃ cs : List Char, pieces = cs.map .char ∧ ∀ c ∈ cs, CleanChar c := by
  induction pieces with
  | nil => exact ⟨[], rfl, by simp⟩
  | cons a pieces ih =>
      obtain ⟨ha, hrest⟩ := not_or.mp fun h => hreturn (List.mem_cons.mpr h)
      rw [symbols, if_neg (fun h => ha h.1.symm), List.forall_mem_cons] at herror
      obtain ⟨cs, rfl, hcs⟩ := ih hrest herror.2
      cases a with
      | char c =>
          have hc : c ≠ '\r' := fun hc => ha (by rw [hc])
          refine ⟨c :: cs, rfl, List.forall_mem_cons.mpr ⟨⟨hc, fun hinvalid => ?_⟩, hcs⟩⟩
          simp [symbolOf, hc, hinvalid] at herror
      | illFormed p => cases herror.1
      | truncated p => cases herror.1

/-- **Nothing else is changed.** The pages that are copied as they are are those
without a carriage return that are read without an error. -/
theorem copyPage_eq_self_iff (source : List UInt8) (iter : Utf8Iterator) :
    (copyPage source iter).data = source ↔
      13 ∉ source ∧ (charsRead source iter).2.parser = defaultParser := by
  obtain ⟨pieces, hpieces⟩ := exists_pieces source
  have hclean := chars_clean pieces
  constructor
  · intro hcopy
    rw [copyPage_data hpieces iter] at hcopy
    rw [← hcopy]
    exact ⟨return_not_mem hclean, (flatMap_clean hclean iter).2.1⟩
  · rintro ⟨hreturn, hparser⟩
    rw [charsRead_reports_iff hpieces iter] at hparser
    have hbytes := hpieces.flatMap_bytes
    have hpiece : .char '\r' ∉ pieces := fun h =>
      hreturn (hbytes ▸ List.mem_flatMap.mpr ⟨_, h, by decide⟩)
    obtain ⟨cs, rfl, hcs⟩ := exists_chars hpiece hparser
    rw [List.flatMap_map] at hbytes
    rw [← hbytes]
    exact (flatMap_clean hcs iter).2.2

end HtmlBenchmark.Gumbo
