import HtmlBenchmark.Benchmark.Perform
import HtmlBenchmark.Library.Lists
import HtmlBenchmark.TestHsp.Isolation
import Mathlib.Data.List.Perm.Basic

/-!
What a test leaves in its entry.

The adapters keep globals, but none of them reads what another one, or an
earlier page, has left there: `test_hsp` sets its parser up anew, and
`test_myhtml` assigns `k_result` before it allocates. So a page is a function on
the entry, `pageResult`, and a test is the fold of that function over the pages,
whatever memory it starts from; nothing but the entry changes.
-/

namespace HtmlBenchmark.Benchmark

open Library

/-! ### One page -/

/-- What the `switch` does to the entry. -/
def pageResult (v : Vendored) (parser : ParserT) (r : TestResult) (page : List UInt8) :
    TestResult :=
  if parser = PARSER_DUMMY then r
  else if parser = PARSER_HSP then
    { r with totalBytes := TestHsp.hspBytes }.add (TestHsp.gainOf page)
  else if parser = PARSER_LIBXML2 then
    Libxml2.testLibxml2 v.libxml2Sizes (v.libxml2 page) r
  else if parser = PARSER_GUMBO then
    Gumbo.testGumbo (v.gumbo page) (v.gumboMallocs page) r
  else if parser = PARSER_MYHTML then MyHtml.pageResult (v.myHtml page) r
  else if parser = PARSER_HAUT then Haut.testHaut v.hautSize (v.haut page) r
  else r

/-- A page changes its entry, by the same function on every memory. -/
theorem testPage_results (v : Vendored) (k : ℕ) (parser : ParserT) (m : Memory)
    (page : List UInt8) :
    (testPage v k parser m page).results =
      Function.update m.results k (pageResult v parser (m.results k) page) := by
  simp only [testPage, pageResult]
  split_ifs
  · exact (Function.update_eq_self k m.results).symm
  · simp only [Memory.testHsp, TestHsp.testHsp_result]
  · rfl
  · rfl
  · rw [MyHtml.testMyHtml_eq]
    rfl
  · rfl
  · exact (Function.update_eq_self k m.results).symm

/-! ### The heading of an entry

Every step of an adapter keeps it. -/

theorem mallocs_keep (sizes : List ℕ) (r : TestResult) :
    (sizes.foldl (fun r s => { r with totalBytes := r.totalBytes + s }) r).heading = r.heading := by
  apply foldl_preserves
  exact fun _ _ => rfl

theorem attributeLoop_keeps (name : CString) (atts : List (Option CString)) (r : TestResult) :
    (Libxml2.attributeLoop name atts r).heading = r.heading := by
  fun_induction Libxml2.attributeLoop name atts r with
  | case1 att val atts r ih =>
      rw [ih]
      simp only [Libxml2.countAttribute]
      split_ifs <;> rfl
  | case2 => rfl

theorem call_keeps (s : Libxml2.ParserState) (call : Libxml2.Call) :
    (s.call call).result.heading = s.result.heading := by
  cases call with
  | startElement name atts =>
      simp only [Libxml2.ParserState.call, Libxml2.startElement]
      split_ifs
      · rfl
      · rfl
      · rfl
      · cases atts with
        | none => rfl
        | some atts => exact attributeLoop_keeps name atts s.result
  | endElement name => rw [Libxml2.ParserState.call, Libxml2.endElement_result]
  | characters ch => rw [Libxml2.ParserState.call, Libxml2.characters_result]

theorem countLinks_keeps (e : Gumbo.GumboElement) (r : TestResult) :
    (Gumbo.countLinks e r).heading = r.heading := by
  simp only [Gumbo.countLinks]
  split_ifs <;> rfl

mutual

theorem searchForLinks_keeps : ∀ (node : Gumbo.GumboNode) (r : TestResult),
    (Gumbo.searchForLinks node r).heading = r.heading
  | .leaf _, _ => rfl
  | .inner e children, r => by
      rw [Gumbo.searchForLinks]
      split_ifs
      · rfl
      · rw [searchChildren_keeps children, countLinks_keeps]

theorem searchChildren_keeps : ∀ (nodes : List Gumbo.GumboNode) (r : TestResult),
    (Gumbo.searchChildren nodes r).heading = r.heading
  | [], _ => rfl
  | node :: nodes, r => by
      rw [Gumbo.searchChildren, searchChildren_keeps nodes, searchForLinks_keeps node]

end

theorem myHtml_pageResult_keeps (parsed : MyHtml.Parsed) (r : TestResult) :
    (MyHtml.pageResult parsed r).heading = r.heading := by
  have hbody : ∀ r, (MyHtml.addInnertext parsed.body r).heading = r.heading := by
    intro r
    cases parsed.body <;> rfl
  have hlink : ∀ r a, (MyHtml.countLink r a).heading = r.heading := by
    intro r a
    simp only [MyHtml.countLink]
    split_ifs <;> rfl
  have himage : ∀ r a, (MyHtml.countImage r a).heading = r.heading := by
    intro r a
    simp only [MyHtml.countImage]
    split_ifs <;> rfl
  rw [MyHtml.pageResult, hbody, foldl_preserves himage, foldl_preserves hlink, mallocs_keep]

theorem event_keeps (d : Haut.HautData) (event : Haut.HautEvent) :
    (d.event event).result.heading = d.result.heading := by
  cases event with
  | elementOpen tag =>
      simp only [Haut.HautData.event, Haut.elementOpen]
      split_ifs <;> rfl
  | attr tag key =>
      simp only [Haut.HautData.event, Haut.attr]
      split_ifs <;> rfl
  | innertext tag text =>
      simp only [Haut.HautData.event, Haut.innertext]
      split
      · split_ifs <;> rfl
      · rfl

/-- No page changes whose entry it is, or how many pages it is for. -/
theorem pageResult_keeps (v : Vendored) (parser : ParserT) (r : TestResult)
    (page : List UInt8) : (pageResult v parser r page).heading = r.heading := by
  simp only [pageResult]
  split_ifs
  · rfl
  · rfl
  · exact foldl_preserves (g := fun s => s.result.heading) call_keeps _ (Libxml2.initial r)
  · simp only [Gumbo.testGumbo]
    exact (searchForLinks_keeps _ _).trans (mallocs_keep _ r)
  · exact myHtml_pageResult_keeps _ r
  · exact foldl_preserves (g := fun d => d.result.heading) event_keeps _ (Haut.initial r)
  · rfl

/-! ### One test -/

def entryOf (v : Vendored) (pages : List (List UInt8)) (parser : ParserT) : TestResult :=
  pages.foldl (pageResult v parser) { totalTests := pages.length, parser := parser }

theorem foldl_testPage_results (v : Vendored) (k : ℕ) (parser : ParserT)
    (pages : List (List UInt8)) (m : Memory) :
    (pages.foldl (testPage v k parser) m).results =
      Function.update m.results k (pages.foldl (pageResult v parser) (m.results k)) := by
  induction pages generalizing m with
  | nil => exact (Function.update_eq_self k m.results).symm
  | cons page pages ih =>
      rw [List.foldl_cons, ih, testPage_results, Function.update_self, Function.update_idem,
        List.foldl_cons]

/-- **A test.** Whatever was in memory, its entry depends on the pages and the
parser only, and the other entries are not touched. -/
theorem benchmarkPerformTest_results (v : Vendored) (fresh : StreamParser.HtmlStreamParser)
    (k : ℕ) (pages : List (List UInt8)) (parser : ParserT) (m : Memory) :
    (benchmarkPerformTest v fresh k pages parser m).results =
      Function.update m.results k (entryOf v pages parser) := by
  have hreset : resetResult pages.length parser (m.results k) =
      { totalTests := pages.length, parser := parser } := rfl
  simp only [benchmarkPerformTest]
  rw [foldl_testPage_results]
  split_ifs <;>
    simp only [Memory.onResult, MyHtml.Memory.update, Function.update_self, Function.update_idem,
      hreset] <;> rfl

theorem heading_entryOf (v : Vendored) (pages : List (List UInt8)) (parser : ParserT) :
    (entryOf v pages parser).heading = (pages.length, parser) :=
  foldl_preserves (pageResult_keeps v parser) pages _

@[simp] theorem parser_entryOf (v : Vendored) (pages : List (List UInt8)) (parser : ParserT) :
    (entryOf v pages parser).parser = parser :=
  congrArg Prod.snd (heading_entryOf v pages parser)

@[simp] theorem totalTests_entryOf (v : Vendored) (pages : List (List UInt8)) (parser : ParserT) :
    (entryOf v pages parser).totalTests = pages.length :=
  congrArg Prod.fst (heading_entryOf v pages parser)

end HtmlBenchmark.Benchmark
