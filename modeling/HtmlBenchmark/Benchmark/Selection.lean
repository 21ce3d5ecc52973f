import HtmlBenchmark.Benchmark.Entries
import HtmlBenchmark.Benchmark.Main
import HtmlBenchmark.Library.Bits
import HtmlBenchmark.Loader.Loading

/-!
From the arguments to the report.

The array is sized by a population count and filled by a scan, two computations
that know nothing of each other. They agree because both are about the set bits
of the mask, and the terminator stands where the scan ends. What an entry holds
is known from `benchmarkPerformTest_results`: it is the same in every run that
has the parser in its mask, on its own or with others.
-/

namespace HtmlBenchmark.Benchmark

open Library

/-! ### The arguments -/

theorem parserOption_ne_none {arg : CString} {p : ParserT} (h : parserOption arg = some p) :
    p ≠ PARSER_NONE := by
  simp only [parserOption] at h
  split_ifs at h <;> cases h <;> decide

/-- The mask collects the bits of the arguments. -/
theorem parseOptions_ok {args : List CString} (h : ∀ arg ∈ args, parserOption arg ≠ none)
    (parsers : ParserT) : ∃ mask, parseOptions args parsers = .ok mask ∧
      ∀ i, mask.getLsbD i ↔ parsers.getLsbD i ∨
        ∃ arg ∈ args, ∃ p, parserOption arg = some p ∧ p.getLsbD i := by
  induction args generalizing parsers with
  | nil => exact ⟨parsers, rfl, fun i => by simp⟩
  | cons arg args ih =>
      obtain ⟨harg, hargs⟩ := List.forall_mem_cons.mp h
      obtain ⟨p, hp⟩ := Option.ne_none_iff_exists'.mp harg
      obtain ⟨mask, hmask, hbits⟩ := ih hargs (parsers ||| p)
      refine ⟨mask, by rw [parseOptions, hp]; exact hmask, fun i => ?_⟩
      rw [hbits, BitVec.getLsbD_or, Bool.or_eq_true, or_assoc]
      simp [hp]

theorem parseOptions_error {args : List CString} (h : ∃ arg ∈ args, parserOption arg = none)
    (parsers : ParserT) : ∃ arg ∈ args, parserOption arg = none ∧
      parseOptions args parsers = .error arg := by
  induction args generalizing parsers with
  | nil => simp at h
  | cons arg args ih =>
      cases hp : parserOption arg with
      | none => exact ⟨arg, List.mem_cons_self .., hp, by rw [parseOptions, hp]⟩
      | some p =>
          obtain ⟨bad, hmem, hbad⟩ := h
          have htail : bad ∈ args := by
            rcases List.mem_cons.mp hmem with rfl | htail
            · rw [hp] at hbad
              cases hbad
            · exact htail
          obtain ⟨first, hfirst, hnone, herror⟩ := ih ⟨bad, htail, hbad⟩ (parsers ||| p)
          refine ⟨first, List.mem_cons_of_mem _ hfirst, hnone, ?_⟩
          rw [parseOptions, hp]
          exact herror

/-- The mask is the one asked for: every parser without an argument, otherwise
the bits of the arguments. -/
structure Selects (args : List CString) (mask : ParserT) : Prop where
  all : args = [] → mask = PARSER_ALL
  bits : args ≠ [] → ∀ i, mask.getLsbD i ↔
    ∃ arg ∈ args, ∃ p, parserOption arg = some p ∧ p.getLsbD i

theorem selectParsers_ok {args : List CString} (h : ∀ arg ∈ args, parserOption arg ≠ none) :
    ∃ mask, selectParsers args = .ok mask ∧ mask ≠ PARSER_NONE ∧ Selects args mask := by
  cases args with
  | nil => exact ⟨PARSER_ALL, rfl, by decide, fun _ => rfl, fun hne => absurd rfl hne⟩
  | cons arg args =>
      obtain ⟨mask, hmask, hbits⟩ := parseOptions_ok h PARSER_NONE
      have hbits' : ∀ i, mask.getLsbD i ↔
          ∃ a ∈ arg :: args, ∃ p, parserOption a = some p ∧ p.getLsbD i := by
        intro i
        rw [hbits]
        simp [PARSER_NONE]
      refine ⟨mask, hmask, ?_, fun hnil => absurd hnil (List.cons_ne_nil _ _), fun _ => hbits'⟩
      -- The first argument has a bit, and the mask has it too.
      obtain ⟨p, hp⟩ := Option.ne_none_iff_exists'.mp (h arg (List.mem_cons_self ..))
      obtain ⟨i, hi⟩ := exists_getLsbD (parserOption_ne_none hp)
      intro hzero
      have hbit := (hbits' i).mpr ⟨arg, List.mem_cons_self .., p, hp, hi⟩
      rw [hzero] at hbit
      simp [PARSER_NONE] at hbit

/-! ### The scan -/

def parserAt (i : ℕ) : ParserT := 1 <<< i

/-- What a stretch of the scan does: the set bits among the ones scanned get an
entry each, in the order of the scan. -/
structure Scanned (v : Vendored) (pages : List (List UInt8)) (bits : List ℕ) (s s' : Scan) :
    Prop where
  index : s'.index = s.index + bits.length
  tests : s'.tests = s.tests ++ bits.mapIdx fun k i => (s.index + k, parserAt i)
  entries : ∀ k i, bits[k]? = some i →
    s'.memory.results (s.index + k) = entryOf v pages (parserAt i)
  others : ∀ j, j < s.index ∨ s.index + bits.length ≤ j →
    s'.memory.results j = s.memory.results j

section Scan

variable {v : Vendored} {pages : List (List UInt8)}

theorem Scanned.refl (s : Scan) : Scanned v pages [] s s where
  index := rfl
  tests := (List.append_nil _).symm
  entries := fun k i h => by simp at h
  others := fun _ _ => rfl

theorem Scanned.trans {bits bits' : List ℕ} {s s' s'' : Scan} (h : Scanned v pages bits s s')
    (h' : Scanned v pages bits' s' s'') : Scanned v pages (bits ++ bits') s s'' where
  index := by rw [h'.index, h.index, List.length_append, Nat.add_assoc]
  tests := by
    have hshift : (fun k i => (s'.index + k, parserAt i)) =
        fun k i => (s.index + (k + bits.length), parserAt i) := by
      funext k i
      rw [h.index, Nat.add_assoc, Nat.add_comm k]
    rw [h'.tests, h.tests, List.mapIdx_append, List.append_assoc, hshift]
  entries := by
    intro k i hk
    rcases Nat.lt_or_ge k bits.length with hlt | hge
    · rw [List.getElem?_append_left hlt] at hk
      -- the later bits leave the entries of the earlier ones alone
      rw [h'.others _ (Or.inl (by rw [h.index]; omega)), h.entries k i hk]
    · rw [List.getElem?_append_right hge] at hk
      rw [← h'.entries _ i hk, h.index]
      congr 1
      omega
  others := by
    intro j hj
    rw [List.length_append] at hj
    rw [h'.others j (by rw [h.index]; omega), h.others j (by omega)]

theorem scanned_bit (fresh : StreamParser.HtmlStreamParser) (parsers : ParserT) (s : Scan)
    (i : ℕ) :
    Scanned v pages (if parsers &&& parserAt i ≠ 0 then [i] else []) s
      (s.bit v fresh pages parsers i) := by
  by_cases hbit : parsers &&& parserAt i ≠ 0
  · have hstep : s.bit v fresh pages parsers i =
        { index := s.index + 1
          memory := benchmarkPerformTest v fresh s.index pages (parserAt i) s.memory
          tests := s.tests ++ [(s.index, parserAt i)] } := if_pos hbit
    rw [if_pos hbit, hstep]
    refine ⟨rfl, rfl, ?_, ?_⟩
    · intro k j hk
      obtain ⟨rfl, rfl⟩ : k = 0 ∧ i = j := by
        cases k with
        | zero => exact ⟨rfl, Option.some.inj hk⟩
        | succ k => cases hk
      rw [benchmarkPerformTest_results, Nat.add_zero, Function.update_self]
    · intro j hj
      rw [List.length_singleton] at hj
      rw [benchmarkPerformTest_results, Function.update_of_ne (by omega)]
  · have hstep : s.bit v fresh pages parsers i = s := if_neg hbit
    rw [if_neg hbit, hstep]
    exact Scanned.refl s

theorem scanned_foldl (fresh : StreamParser.HtmlStreamParser) (parsers : ParserT)
    (is : List ℕ) (s : Scan) :
    Scanned v pages (is.filter fun i => parsers &&& parserAt i ≠ 0) s
      (is.foldl (Scan.bit v fresh pages parsers) s) := by
  induction is generalizing s with
  | nil => exact Scanned.refl s
  | cons i is ih =>
      have hstep := (scanned_bit fresh parsers s i).trans (ih (s.bit v fresh pages parsers i))
      have hbits : (i :: is).filter (fun i => parsers &&& parserAt i ≠ 0) =
          (if parsers &&& parserAt i ≠ 0 then [i] else []) ++
            is.filter fun i => parsers &&& parserAt i ≠ 0 := by
        rw [List.filter_cons]
        split_ifs <;> simp_all
      rw [hbits]
      exact hstep

theorem filter_range_eq_setBits (parsers : ParserT) :
    (List.range 32).filter (fun i => parsers &&& parserAt i ≠ 0) = setBits parsers := by
  refine List.filter_congr fun i hi => ?_
  have hbit := and_shiftLeft_ne_zero_iff parsers (List.mem_range.mp hi)
  rw [Bool.eq_iff_iff, decide_eq_true_eq]
  exact hbit

/-- **The scan.** For a mask with a bit there is an array, and each set bit has
its entry, lowest first; the terminator is behind them, the rest of the memory as
it was. -/
theorem benchmarkPerformTests_scanned (v : Vendored) (pages : List (List UInt8))
    (fresh : StreamParser.HtmlStreamParser) {parsers : ParserT} (hmask : parsers ≠ PARSER_NONE)
    (m : Memory) :
    ∃ scan, benchmarkPerformTests v fresh pages parsers m = some scan ∧
      Scanned v pages (setBits parsers) (Scan.start parsers m) scan := by
  have hcount : builtinPopcount parsers = (setBits parsers).length := (length_setBits parsers).symm
  obtain ⟨i, hi⟩ := exists_getLsbD hmask
  have hmem : i ∈ setBits parsers := (mem_setBits parsers).mpr ⟨BitVec.lt_of_getLsbD hi, hi⟩
  have hpos : ¬builtinPopcount parsers < 1 := by
    have := List.length_pos_of_mem hmem
    omega
  refine ⟨_, if_neg hpos, ?_⟩
  rw [← filter_range_eq_setBits]
  exact scanned_foldl fresh parsers (List.range 32) _

end Scan

/-! ### The report -/

/-- The loop stops at the terminator, and has printed every entry before it. -/
theorem printLoop_run {results : ℕ → TestResult} {n : ℕ}
    (hentry : ∀ k < n, (results k).parser ≠ PARSER_NONE)
    (hend : (results n).parser = PARSER_NONE) (rounds k : ℕ) (hk : k ≤ n)
    (hrounds : n ≤ k + rounds) :
    (printLoop results).run rounds (k, (List.range k).map fun j => blockOf (results j)) =
      (n, (List.range n).map fun j => blockOf (results j)) := by
  have hhalt : (printLoop results).Halted
      (n, (List.range n).map fun j => blockOf (results j)) := if_pos hend
  induction rounds generalizing k with
  | zero =>
      obtain rfl : k = n := by omega
      rfl
  | succ rounds ih =>
      rcases Nat.eq_or_lt_of_le hk with rfl | hlt
      · exact Machine.run_of_halted hhalt _
      · have hstep : (printLoop results).step
            (k, (List.range k).map fun j => blockOf (results j)) =
            some (k + 1, (List.range (k + 1)).map fun j => blockOf (results j)) := by
          rw [List.range_succ, List.map_append]
          exact if_neg (hentry k hlt)
        rw [Machine.run_succ_of_step hstep]
        exact ih (k + 1) hlt (by omega)

def parserNames : List String :=
  ["dummy", "htmlstreamparser", "libxml2", "gumbo-parser", "MyHTML", "haut", "hubbub"]

theorem strParser_parserAt {i : ℕ} (hi : i < 32) :
    strParser (parserAt i) = parserNames.getD i "" := by
  have hall : ∀ i < 32, strParser (parserAt i) = parserNames.getD i "" := by decide
  exact hall i hi

/-- The blocks due for a mask: for each of its bits the name of the parser, the
number of pages, and what its adapter counts in them. -/
def reportOf (v : Vendored) (pages : List (List UInt8)) (parsers : ParserT) : List Block :=
  (setBits parsers).map fun i =>
    let r := entryOf v pages (parserAt i)
    { parser := parserNames.getD i ""
      totalTests := pages.length
      totalBytes := r.totalBytes
      totalInnertextBytes := r.totalInnertextBytes
      totalHref := r.totalHref
      totalSrc := r.totalSrc
      totalAlt := r.totalAlt }

/-- What the array is for a mask, and what is printed of it. -/
structure Reported (v : Vendored) (pages : List (List UInt8)) (parsers : ParserT)
    (before : Memory) (scan : Scan) : Prop where
  /-- every entry is handed to one test, in order -/
  once : scan.tests.map Prod.fst = List.range (builtinPopcount parsers)
  tested : scan.tests.map Prod.snd =
    (List.range (builtinPopcount parsers)).map fun k => (scan.memory.results k).parser
  ascending : ∀ j k, j < k → k < builtinPopcount parsers →
    (scan.memory.results j).parser.toNat < (scan.memory.results k).parser.toNat
  selected : ∀ p, (∃ k < builtinPopcount parsers, (scan.memory.results k).parser = p) ↔
    ∃ i < 32, p = parserAt i ∧ parsers &&& p ≠ 0
  /-- an entry holds what the adapter of its parser counts -/
  counted : ∀ k i, (setBits parsers)[k]? = some i →
    scan.memory.results k = entryOf v pages (parserAt i)
  terminator : (scan.memory.results (builtinPopcount parsers)).parser = PARSER_NONE
  beyond : ∀ k, builtinPopcount parsers < k → scan.memory.results k = before.results k
  /-- an entry is what it would be if its parser were the only one -/
  alone : ∀ k < builtinPopcount parsers, ∀ (fresh : StreamParser.HtmlStreamParser) (m : Memory),
    ∃ single, benchmarkPerformTests v fresh pages (scan.memory.results k).parser m = some single ∧
      single.memory.results 0 = scan.memory.results k
  printed : ∀ rounds ≥ builtinPopcount parsers,
    (printLoop scan.memory.results).run rounds (0, []) =
      (builtinPopcount parsers, reportOf v pages parsers)

section Reported

variable {v : Vendored} {pages : List (List UInt8)} {parsers : ParserT} {m : Memory} {scan : Scan}

theorem parserAt_toNat {i : ℕ} (hi : i < 32) : (parserAt i).toNat = 2 ^ i :=
  toNat_shiftLeft_one hi

theorem parserAt_ne_none {i : ℕ} (hi : i < 32) : parserAt i ≠ PARSER_NONE := by
  intro h
  have hnat := congrArg BitVec.toNat h
  rw [parserAt_toNat hi] at hnat
  exact absurd hnat (Nat.ne_of_gt (Nat.two_pow_pos i))

theorem builtinPopcount_eq (parsers : ParserT) :
    builtinPopcount parsers = (setBits parsers).length :=
  (length_setBits parsers).symm

theorem setBits_lt {k : ℕ} (hk : k < (setBits parsers).length) : (setBits parsers)[k] < 32 :=
  ((mem_setBits parsers).mp (List.getElem_mem hk)).1

/-- A parser on its own has the first entry, and the same one. -/
theorem benchmarkPerformTests_single (v : Vendored) (pages : List (List UInt8)) {i : ℕ}
    (hi : i < 32) (fresh : StreamParser.HtmlStreamParser) (m : Memory) :
    ∃ single, benchmarkPerformTests v fresh pages (parserAt i) m = some single ∧
      single.memory.results 0 = entryOf v pages (parserAt i) := by
  obtain ⟨single, heq, hscanned⟩ := benchmarkPerformTests_scanned v pages fresh
    (parserAt_ne_none hi) m
  refine ⟨single, heq, ?_⟩
  have hbits : setBits (parserAt i) = [i] := setBits_shiftLeft_one hi
  rw [hbits] at hscanned
  exact hscanned.entries 0 i rfl

namespace Scanned

variable (h : Scanned v pages (setBits parsers) (Scan.start parsers m) scan)

include h

/-- An entry before the terminator, and the bit it stands for. -/
theorem entry {k : ℕ} (hk : k < (setBits parsers).length) :
    scan.memory.results k = entryOf v pages (parserAt (setBits parsers)[k]) := by
  have hentry := h.entries k _ (List.getElem?_eq_getElem hk)
  rwa [show (Scan.start parsers m).index = 0 from rfl, Nat.zero_add] at hentry

theorem parser_eq {k : ℕ} (hk : k < (setBits parsers).length) :
    (scan.memory.results k).parser = parserAt (setBits parsers)[k] := by
  rw [h.entry hk, parser_entryOf]

theorem tests_eq : scan.tests = (setBits parsers).mapIdx fun k i => (k, parserAt i) := by
  have htests := h.tests
  simp only [Scan.start, List.nil_append, Nat.zero_add] at htests
  exact htests

theorem terminator : (scan.memory.results (builtinPopcount parsers)).parser = PARSER_NONE := by
  rw [h.others _ (Or.inr (by simp [Scan.start, builtinPopcount_eq]))]
  simp [Scan.start, Memory.onResult, MyHtml.Memory.update]

theorem beyond {k : ℕ} (hk : builtinPopcount parsers < k) :
    scan.memory.results k = m.results k := by
  rw [builtinPopcount_eq] at hk
  rw [h.others k (Or.inr (by simp only [Scan.start]; omega))]
  apply Function.update_of_ne
  rw [builtinPopcount_eq]
  omega

theorem ascending {j k : ℕ} (hjk : j < k) (hk : k < (setBits parsers).length) :
    (scan.memory.results j).parser.toNat < (scan.memory.results k).parser.toNat := by
  have hbits : (setBits parsers)[j] < (setBits parsers)[k] :=
    List.pairwise_iff_getElem.mp (setBits_sorted parsers) j k (by omega) hk hjk
  rw [h.parser_eq (by omega), h.parser_eq hk, parserAt_toNat (setBits_lt _),
    parserAt_toNat (setBits_lt _)]
  exact Nat.pow_lt_pow_right (by omega) hbits

theorem selected (p : ParserT) :
    (∃ k < (setBits parsers).length, (scan.memory.results k).parser = p) ↔
      ∃ i < 32, p = parserAt i ∧ parsers &&& p ≠ 0 := by
  constructor
  · rintro ⟨k, hk, rfl⟩
    obtain ⟨hlt, hbit⟩ := (mem_setBits parsers).mp (List.getElem_mem hk)
    rw [h.parser_eq hk]
    exact ⟨_, hlt, rfl, (and_shiftLeft_ne_zero_iff parsers hlt).mpr hbit⟩
  · rintro ⟨i, hi, rfl, hbit⟩
    have hmem := (mem_setBits parsers).mpr ⟨hi, (and_shiftLeft_ne_zero_iff parsers hi).mp hbit⟩
    obtain ⟨k, hk, hget⟩ := List.getElem_of_mem hmem
    exact ⟨k, hk, by rw [h.parser_eq hk, hget]⟩

theorem blocks_eq : (List.range (builtinPopcount parsers)).map
    (fun k => blockOf (scan.memory.results k)) = reportOf v pages parsers := by
  rw [builtinPopcount_eq]
  apply List.ext_getElem (by simp [reportOf])
  intro k h₁ h₂
  have hk : k < (setBits parsers).length := by simpa using h₁
  simp only [reportOf, List.getElem_map, List.getElem_range, h.entry hk, blockOf, parser_entryOf,
    totalTests_entryOf, strParser_parserAt (setBits_lt hk)]

theorem reported : Reported v pages parsers m scan := by
  have hcount := builtinPopcount_eq parsers
  have hentry : ∀ k < builtinPopcount parsers,
      (scan.memory.results k).parser ≠ PARSER_NONE := by
    intro k hk
    rw [h.parser_eq (by omega)]
    exact parserAt_ne_none (setBits_lt _)
  refine ⟨?_, ?_, fun j k hjk hk => h.ascending hjk (by omega), ?_, ?_, h.terminator,
    fun k hk => h.beyond hk, ?_, ?_⟩
  · rw [h.tests_eq, hcount]
    apply List.ext_getElem (by simp)
    intro k h₁ h₂
    simp
  · rw [h.tests_eq, hcount]
    apply List.ext_getElem (by simp)
    intro k h₁ h₂
    simp only [List.getElem_map, List.getElem_mapIdx, List.getElem_range]
    exact (h.parser_eq (by simpa using h₁)).symm
  · intro p
    rw [hcount]
    exact h.selected p
  · intro k i hi
    obtain ⟨hk, rfl⟩ := List.getElem?_eq_some_iff.mp hi
    exact h.entry hk
  · intro k hk fresh m'
    have hlt : k < (setBits parsers).length := by omega
    rw [h.parser_eq hlt, h.entry hlt]
    exact benchmarkPerformTests_single v pages (setBits_lt hlt) fresh m'
  · intro rounds hrounds
    rw [← h.blocks_eq]
    exact printLoop_run hentry h.terminator rounds 0 (Nat.zero_le _) (by omega)

end Scanned

end Reported

/-! ### The program -/

/-- What the loader has loaded is what the parsers are given. -/
theorem pagesOf_loaded {array : ℕ → Loader.TestsetBuffer} {n : ℕ} {files : List Loader.File}
    {s : Loader.State} (h : Loader.Loaded array n files s) :
    pagesOf s = (files.take n).map fun f => f.bytes.getD [] ++ [0] := by
  obtain ⟨slots, hdata, hholds, -⟩ := h.data
  have hcount := h.count
  apply List.ext_getElem (by simp [pagesOf, hcount])
  intro j h₁ h₂
  have hj : j < s.testset.count := by simpa [pagesOf] using h₁
  have hlt : j < files.length := by omega
  obtain ⟨pointer, bytes, hbytes, _, _, hslot, hblock⟩ :=
    hholds j _ hj (List.getElem?_eq_getElem hlt)
  simp [pagesOf, hdata, hslot, hblock, hbytes, List.take_of_length_le]

theorem builtinPopcount_le (parsers : ParserT) : builtinPopcount parsers ≤ 32 :=
  BitVec.toNat_cpop_le parsers

theorem Reported.printResults {v : Vendored} {pages : List (List UInt8)} {parsers : ParserT}
    {m : Memory} {scan : Scan} (h : Reported v pages parsers m scan) :
    printResults scan.memory.results = reportOf v pages parsers :=
  congrArg Prod.snd (h.printed 32 (builtinPopcount_le parsers))

/-- **The report.** Over a directory that can be loaded the program prints, for
each bit of the mask, what its parser counts in the files loaded, each of them
with a 0 behind it; nothing else about the directory or the memory shows. -/
theorem main_report (e : Setting) (name testDir : CString) {args : List CString}
    (hargs : ∀ arg ∈ args, parserOption arg ≠ none) (hdir : e.isDir testDir)
    (hopens : e.answers.opensDir) (hallocates : e.answers.allocates)
    (hregular : 1 ≤ (Loader.regular e.answers.counting).length) :
    ∃ parsers, selectParsers args = .ok parsers ∧
      main e (name :: testDir :: args) =
        { exit := 0
          calls := [.loadTestSet testDir, .performTests parsers,
            .printResults (reportOf e.vendored (((Loader.loadable e.answers.loading).take
              (Loader.regular e.answers.counting).length).map fun f =>
                f.bytes.getD [] ++ [0]) parsers), .freeTestSet]
          message := none } := by
  obtain ⟨parsers, hselect, hmask, -⟩ := selectParsers_ok hargs
  obtain ⟨s, hload, hloaded⟩ := Loader.benchmarkLoadTestSet_succeeds e.answers e.resources testDir
    hopens hallocates hregular
  obtain ⟨scan, hscan, hscanned⟩ :=
    benchmarkPerformTests_scanned e.vendored (pagesOf s) e.fresh hmask e.memory
  refine ⟨parsers, hselect, ?_⟩
  rw [← pagesOf_loaded hloaded, ← hscanned.reported.printResults]
  simp [main, hdir, hselect, runSelected, hload, hscan]

/-- A setting in which loading succeeds. -/
def changingSetting : Setting where
  isDir := fun _ => true
  answers := Loader.changing
  resources := {}
  vendored := silent
  fresh := {}
  memory := blank

end HtmlBenchmark.Benchmark
