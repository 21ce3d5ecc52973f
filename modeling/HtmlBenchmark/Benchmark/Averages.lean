import HtmlBenchmark.Benchmark.Selection
import HtmlBenchmark.Loader.Passes

/-!
The divisor of the average time.

`print_results` divides by the number of tests, which is the number of files
loaded. The loader refuses a directory without a regular file, but it counts the
files in its first pass and loads them in its second, where each of them can
fail. So the count a successful call leaves is the smaller of two numbers, and
only one of them is known not to be 0.
-/

namespace HtmlBenchmark.Benchmark

open Library Loader

theorem length_pagesOf (s : Loader.State) : (pagesOf s).length = s.testset.count := by
  simp [pagesOf]

theorem totalTests_printResults (v : Vendored) (fresh : StreamParser.HtmlStreamParser)
    (pages : List (List UInt8)) (parsers : ParserT) (m : Memory) {scan : Scan}
    (hscan : benchmarkPerformTests v fresh pages parsers m = some scan) :
    ∀ block ∈ printResults scan.memory.results, block.totalTests = pages.length := by
  have hmask : parsers ≠ PARSER_NONE := by
    rintro rfl
    rw [benchmarkPerformTests, if_pos (by decide)] at hscan
    cases hscan
  obtain ⟨scan', heq, hscanned⟩ := benchmarkPerformTests_scanned v pages fresh hmask m
  obtain rfl : scan' = scan := Option.some.inj (heq.symm.trans hscan)
  rw [hscanned.reported.printResults]
  intro block hblock
  obtain ⟨i, -, rfl⟩ := List.mem_map.mp hblock
  rfl

/-- Blocks are printed of a test set that has been loaded. -/
theorem totalTests_main {e : Setting} {args : List CString} {blocks : List Block}
    (h : Call.printResults blocks ∈ (main e args).calls) :
    ∃ testDir s, benchmarkLoadTestSet e.answers e.resources testDir = (s, 0) ∧
      ∀ block ∈ blocks, block.totalTests = s.testset.count := by
  match args with
  | [] | [_] => simp [main] at h
  | _ :: testDir :: args =>
      simp only [main] at h
      split at h
      · simp at h
      · split at h
        · simp at h
        · rename_i parsers _
          refine ⟨testDir, (benchmarkLoadTestSet e.answers e.resources testDir).1, ?_⟩
          simp only [runSelected] at h
          split_ifs at h with hfailed
          · simp at h
          · refine ⟨Prod.ext rfl (not_not.mp hfailed), ?_⟩
            simp only [List.mem_cons, reduceCtorEq, Call.printResults.injEq, List.not_mem_nil,
              or_false, false_or] at h
            rw [h, ← length_pagesOf]
            cases hscan : benchmarkPerformTests e.vendored e.fresh
                (pagesOf (benchmarkLoadTestSet e.answers e.resources testDir).1) parsers
                e.memory with
            | none => simp
            | some scan => exact totalTests_printResults _ _ _ _ _ hscan

/-- A call that succeeds has loaded the smaller number. -/
theorem count_of_succeeds {a : Answers} {r : Resources} {path : CString} {s : Loader.State}
    (h : benchmarkLoadTestSet a r path = (s, 0)) :
    a.opensDir ∧ regular a.counting ≠ [] ∧ a.allocates ∧
      s.testset.count = min (regular a.counting).length (loadable a.loading).length := by
  cases hopens : a.opensDir with
  | false => simp [benchmarkLoadTestSet, hopens] at h
  | true =>
      by_cases hgives : regular a.counting = [] ∨ a.allocates = false
      · rw [benchmarkLoadTestSet_gives_up a r path hopens hgives] at h
        simp at h
      · obtain ⟨hregular, hallocates⟩ := not_or.mp hgives
        rw [Bool.not_eq_false] at hallocates
        obtain ⟨s', heq, hloaded⟩ := benchmarkLoadTestSet_succeeds a r path hopens hallocates
          (List.length_pos_iff.mpr hregular)
        obtain rfl : s' = s := congrArg Prod.fst (heq.symm.trans h)
        exact ⟨rfl, hregular, hallocates, hloaded.count⟩

/-- No test set is empty, and no average is over no file. -/
structure NeverEmpty (e : Setting) : Prop where
  loaded : ∀ path, (benchmarkLoadTestSet e.answers e.resources path).2 = 0 →
    1 ≤ (benchmarkLoadTestSet e.answers e.resources path).1.testset.count
  averaged : ∀ args blocks, Call.printResults blocks ∈ (main e args).calls →
    ∀ block ∈ blocks, block.totalTests ≠ 0

/-- **The divisor** is never 0 exactly if a directory that can be opened and has
a regular file in the first pass has one in the second that can be loaded. -/
theorem neverEmpty_iff (e : Setting) :
    NeverEmpty e ↔ (e.answers.opensDir → regular e.answers.counting ≠ [] → e.answers.allocates →
      loadable e.answers.loading ≠ []) := by
  constructor
  · intro h hopens hregular hallocates hnone
    obtain ⟨s, heq, hloaded⟩ := benchmarkLoadTestSet_succeeds e.answers e.resources CString.empty
      hopens hallocates (List.length_pos_iff.mpr hregular)
    have hcount := h.loaded CString.empty (congrArg Prod.snd heq)
    rw [heq, hloaded.count, hnone, List.length_nil, Nat.min_zero] at hcount
    omega
  · intro h
    have hcount : ∀ path s, benchmarkLoadTestSet e.answers e.resources path = (s, 0) →
        1 ≤ s.testset.count := by
      intro path s heq
      obtain ⟨hopens, hregular, hallocates, hmin⟩ := count_of_succeeds heq
      have h₁ := List.length_pos_iff.mpr hregular
      have h₂ := List.length_pos_iff.mpr (h hopens hregular hallocates)
      omega
    refine ⟨fun path hcode => hcount path _ (Prod.ext rfl hcode), ?_⟩
    intro args blocks hprinted block hblock
    obtain ⟨testDir, s, heq, htotal⟩ := totalTests_main hprinted
    have := hcount testDir s heq
    rw [htotal block hblock]
    omega

def emptyFile : Answers :=
  let page : DirEntry := { dName := nameA, isReg := true, file := fileOf [] }
  { emptyDir with counting := [dot, page], loading := [dot, page] }

/-- The call succeeds, and has loaded nothing. -/
theorem not_forall_neverEmpty : ¬∀ e : Setting, NeverEmpty e := by
  intro h
  have hcount := (h { changingSetting with answers := emptyFile }).loaded ⟨bytes "d", by decide⟩ rfl
  exact absurd hcount (by decide)

end HtmlBenchmark.Benchmark
