import HtmlBenchmark.Benchmark.Entries

/-!
The order of the pages does not matter to `test_hsp`.

A page adds the same to the counters wherever it stands in the test set, namely
what it adds on an instance of its own. The counters are then sums over the
pages, and a sum does not depend on the order.
-/

namespace HtmlBenchmark.Benchmark

open StreamParser TestHsp

def processed (s : Statics × TestResult) (pages : List (List UInt8)) : Statics × TestResult :=
  pages.foldl (fun s page => testHsp s.1 s.2 page) s

/-- By how much the four counters have grown. -/
def increments (before after : TestResult) : ℤ × ℤ × ℤ × ℤ :=
  ((after.totalHref : ℤ) - before.totalHref, (after.totalSrc : ℤ) - before.totalSrc,
    (after.totalAlt : ℤ) - before.totalAlt,
    (after.totalInnertextBytes : ℤ) - before.totalInnertextBytes)

/-- A page makes the same increments on every instance. -/
theorem increments_testHsp (g : Statics) (result : TestResult) (page : List UInt8) :
    increments result (testHsp g result page).2 =
      (((gainOf page).href : ℤ), ((gainOf page).src : ℤ), ((gainOf page).alt : ℤ),
        ((gainOf page).innertextBytes : ℤ)) := by
  rw [testHsp_result, increments]
  simp [TestResult.add]

theorem pageResult_hsp (v : Vendored) (r : TestResult) (page : List UInt8) :
    pageResult v PARSER_HSP r page = { r with totalBytes := hspBytes }.add (gainOf page) := rfl

/-- Two pages can change places. -/
instance (v : Vendored) : RightCommutative (pageResult v PARSER_HSP) where
  right_comm r page page' := by
    rw [pageResult_hsp, pageResult_hsp, pageResult_hsp, pageResult_hsp]
    simp only [TestResult.add, TestResult.mk.injEq, true_and, and_true]
    omega

theorem entryOf_perm (v : Vendored) {pages pages' : List (List UInt8)} (h : pages.Perm pages') :
    entryOf v pages PARSER_HSP = entryOf v pages' PARSER_HSP := by
  rw [entryOf, entryOf, h.length_eq]
  exact h.foldl_eq _

/-- **The order of the pages.** After any pages on an instance, a page makes the
increments it makes on a new instance, whatever is in the buffers of either; and
the pages of the test set in another order leave the same entry. -/
theorem increments_processed :
    (∀ (g g' : Statics) (fresh fresh' : HtmlStreamParser) (result result' : TestResult)
      (before : List (List UInt8)) (page : List UInt8),
      increments (processed (testHspInit g fresh, result) before).2
          (processed (testHspInit g fresh, result) (before ++ [page])).2 =
        increments result' (processed (testHspInit g' fresh', result') [page]).2) ∧
    ∀ (v : Vendored) (fresh fresh' : HtmlStreamParser) (k k' : ℕ) (m m' : Memory)
      (pages pages' : List (List UInt8)), pages.Perm pages' →
      (benchmarkPerformTest v fresh k pages PARSER_HSP m).results k =
        (benchmarkPerformTest v fresh' k' pages' PARSER_HSP m').results k' := by
  refine ⟨?_, ?_⟩
  · intro g g' fresh fresh' result result' before page
    have hlast : processed (testHspInit g fresh, result) (before ++ [page]) =
        testHsp (processed (testHspInit g fresh, result) before).1
          (processed (testHspInit g fresh, result) before).2 page := by
      rw [processed, List.foldl_append]
      rfl
    rw [hlast, increments_testHsp]
    exact (increments_testHsp _ _ _).symm
  · intro v fresh fresh' k k' m m' pages pages' hperm
    rw [benchmarkPerformTest_results, benchmarkPerformTest_results, Function.update_self,
      Function.update_self]
    exact entryOf_perm v hperm

/-- A link and a paragraph, in either order. -/
theorem increments_processed_swap :
    [bytes "<a href=x>", bytes "<p>a</p>"].Perm [bytes "<p>a</p>", bytes "<a href=x>"] ∧
      (benchmarkPerformTest silent {} 0 [bytes "<a href=x>", bytes "<p>a</p>"] PARSER_HSP
          blank).results 0 =
        (benchmarkPerformTest silent {} 1 [bytes "<p>a</p>", bytes "<a href=x>"] PARSER_HSP
          blank).results 1 :=
  ⟨List.Perm.swap _ _ _,
    increments_processed.2 silent {} {} 0 1 blank blank _ _ (List.Perm.swap _ _ _)⟩

end HtmlBenchmark.Benchmark
