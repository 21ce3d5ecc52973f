import HtmlBenchmark.Benchmark.Order
import HtmlBenchmark.Benchmark.Selection
import HtmlBenchmark.Loader.Passes

/-!
The counters of every parser are sums over the pages.

No adapter reads a counter: run on top of other counts, it counts the same. So
an entry is the sum of what the pages give one by one, and the order in which
the directory lists its files shows in none of the figures printed.
-/

namespace HtmlBenchmark

/-- The counters of the second result on top of the first, whose heading is
kept. -/
def TestResult.plus (a r : TestResult) : TestResult :=
  { a with
    totalBytes := a.totalBytes + r.totalBytes
    totalHref := a.totalHref + r.totalHref
    totalSrc := a.totalSrc + r.totalSrc
    totalAlt := a.totalAlt + r.totalAlt
    totalInnertextBytes := a.totalInnertextBytes + r.totalInnertextBytes }

def TestResult.counters (r : TestResult) : Gain where
  href := r.totalHref
  src := r.totalSrc
  alt := r.totalAlt
  innertextBytes := r.totalInnertextBytes

section Plus

variable (a r s : TestResult)

theorem TestResult.plus_zero : a.plus {} = a := rfl

theorem TestResult.plus_right_comm : (a.plus r).plus s = (a.plus s).plus r := by
  simp only [plus, Nat.add_right_comm]

@[simp] theorem TestResult.counters_plus : (a.plus r).counters = a.counters.add r.counters := rfl

@[simp] theorem TestResult.counters_add (gain : Gain) :
    (a.add gain).counters = a.counters.add gain := rfl

/-- What a round counts on top of other counts, a loop does. -/
theorem foldl_plus {α : Type*} {f : TestResult → α → TestResult}
    (hf : ∀ r x, f (a.plus r) x = a.plus (f r x)) (l : List α) :
    l.foldl f (a.plus r) = a.plus (l.foldl f r) :=
  List.foldl_hom a.plus hf

theorem mallocs_plus (sizes : List ℕ) :
    sizes.foldl (fun r s => { r with totalBytes := r.totalBytes + s }) (a.plus r) =
      a.plus (sizes.foldl (fun r s => { r with totalBytes := r.totalBytes + s }) r) :=
  foldl_plus a r (fun r s => by simp only [TestResult.plus, Nat.add_assoc]) sizes

end Plus

/-! ### The adapters -/

namespace Libxml2

variable (a : TestResult)

theorem countAttribute_plus (name att : CString) (r : TestResult) :
    countAttribute name att (a.plus r) = a.plus (countAttribute name att r) := by
  simp only [countAttribute]
  split_ifs <;> rfl

theorem attributeLoop_plus (name : CString) (atts : List (Option CString)) (r : TestResult) :
    attributeLoop name atts (a.plus r) = a.plus (attributeLoop name atts r) := by
  fun_induction attributeLoop name atts r with
  | case1 att val atts r ih => rw [attributeLoop, countAttribute_plus, ih]
  | case2 atts r hend =>
      rw [attributeLoop]
      exact hend

def ParserState.onTop (s : ParserState) : ParserState := { s with result := a.plus s.result }

theorem call_onTop (s : ParserState) (call : Call) :
    (s.onTop a).call call = (s.call call).onTop a := by
  cases call with
  | startElement name atts =>
      simp only [ParserState.call, startElement, ParserState.onTop]
      split_ifs
      · rfl
      · rfl
      · rfl
      · cases atts with
        | none => rfl
        | some atts => simp only [attributeLoop_plus]
  | endElement name =>
      simp only [ParserState.call, endElement, ParserState.onTop]
      split_ifs <;> rfl
  | characters ch =>
      simp only [ParserState.call, characters, apply_ite (ParserState.onTop a)]
      rfl

theorem testLibxml2_plus (sizes : ℕ) (calls : List Call) (r : TestResult) :
    testLibxml2 sizes calls (a.plus r) = a.plus (testLibxml2 sizes calls r) := by
  have hcalls : (initial (a.plus r)).calls calls = ((initial r).calls calls).onTop a := by
    have hinitial : initial (a.plus r) = (initial r).onTop a := rfl
    rw [hinitial, ParserState.calls, ParserState.calls]
    exact List.foldl_hom (ParserState.onTop a) (call_onTop a)
  simp only [testLibxml2, hcalls]
  simp only [ParserState.onTop, TestResult.plus, Nat.add_assoc]

end Libxml2

namespace Gumbo

variable (a : TestResult)

theorem countLinks_plus (e : GumboElement) (r : TestResult) :
    countLinks e (a.plus r) = a.plus (countLinks e r) := by
  simp only [countLinks]
  split_ifs <;> rfl

mutual

theorem searchForLinks_plus : ∀ (node : GumboNode) (r : TestResult),
    searchForLinks node (a.plus r) = a.plus (searchForLinks node r)
  | .leaf _, _ => rfl
  | .inner e children, r => by
      rw [searchForLinks, searchForLinks]
      split_ifs
      · rfl
      · rw [countLinks_plus, searchChildren_plus children]

theorem searchChildren_plus : ∀ (nodes : List GumboNode) (r : TestResult),
    searchChildren nodes (a.plus r) = a.plus (searchChildren nodes r)
  | [], _ => rfl
  | node :: nodes, r => by
      rw [searchChildren, searchForLinks_plus node, searchChildren_plus nodes, searchChildren]

end

theorem testGumbo_plus (root : GumboNode) (mallocs : List ℕ) (r : TestResult) :
    testGumbo root mallocs (a.plus r) = a.plus (testGumbo root mallocs r) := by
  simp only [testGumbo, mallocs_plus, searchForLinks_plus]
  simp only [TestResult.plus, Nat.add_assoc]

end Gumbo

namespace MyHtml

variable (a : TestResult)

theorem pageResult_plus (parsed : Parsed) (r : TestResult) :
    pageResult parsed (a.plus r) = a.plus (pageResult parsed r) := by
  have hlink : ∀ r x, countLink (a.plus r) x = a.plus (countLink r x) := by
    intro r x
    simp only [countLink]
    split_ifs <;> rfl
  have himage : ∀ r x, countImage (a.plus r) x = a.plus (countImage r x) := by
    intro r x
    simp only [countImage]
    split_ifs <;> rfl
  have hbody : ∀ r, addInnertext parsed.body (a.plus r) = a.plus (addInnertext parsed.body r) := by
    intro r
    cases parsed.body with
    | null => rfl
    | node => simp only [addInnertext, TestResult.plus, Nat.add_assoc]
  simp only [MyHtml.pageResult, mallocs_plus, foldl_plus a _ hlink, foldl_plus a _ himage, hbody]

end MyHtml

namespace Haut

variable (a : TestResult)

def HautData.onTop (d : HautData) : HautData := { d with result := a.plus d.result }

theorem event_onTop (d : HautData) (event : HautEvent) :
    (d.onTop a).event event = (d.event event).onTop a := by
  cases event with
  | elementOpen tag =>
      simp only [HautData.event, elementOpen, apply_ite (HautData.onTop a)]
      rfl
  | attr tag key =>
      simp only [HautData.event, attr, apply_ite (HautData.onTop a)]
      rfl
  | innertext tag text =>
      cases text with
      | none => rfl
      | some text =>
          simp only [HautData.event, innertext, apply_ite (HautData.onTop a)]
          rfl

theorem testHaut_plus (size : ℕ) (events : List HautEvent) (r : TestResult) :
    testHaut size events (a.plus r) = a.plus (testHaut size events r) := by
  have hevents : (initial (a.plus r)).events events = ((initial r).events events).onTop a := by
    have hinitial : initial (a.plus r) = (initial r).onTop a := rfl
    rw [hinitial, HautData.events, HautData.events]
    exact List.foldl_hom (HautData.onTop a) (event_onTop a)
  simp only [testHaut, hevents]
  simp only [HautData.onTop, TestResult.plus, Nat.add_assoc]

end Haut

namespace Benchmark

open Library

/-! ### The entries -/

/-- `test_hsp` alone assigns to `total_bytes`; the others only add. -/
theorem pageResult_plus (v : Vendored) {parser : ParserT} (hparser : parser ≠ PARSER_HSP)
    (a r : TestResult) (page : List UInt8) :
    pageResult v parser (a.plus r) page = a.plus (pageResult v parser r page) := by
  simp only [pageResult, if_neg hparser]
  split_ifs
  · rfl
  · exact Libxml2.testLibxml2_plus a _ _ r
  · exact Gumbo.testGumbo_plus a _ _ r
  · exact MyHtml.pageResult_plus a _ r
  · exact Haut.testHaut_plus a _ _ r
  · rfl

/-- What a page gives on its own, it adds. -/
theorem pageResult_eq_plus (v : Vendored) {parser : ParserT} (hparser : parser ≠ PARSER_HSP)
    (r : TestResult) (page : List UInt8) :
    pageResult v parser r page = r.plus (pageResult v parser {} page) := by
  rw [← pageResult_plus v hparser, TestResult.plus_zero]

theorem counters_pageResult (v : Vendored) (parser : ParserT) (r : TestResult)
    (page : List UInt8) : (pageResult v parser r page).counters =
      r.counters.add (pageResult v parser {} page).counters := by
  by_cases hparser : parser = PARSER_HSP
  · subst hparser
    rw [pageResult_hsp, pageResult_hsp, TestResult.counters_add, TestResult.counters_add]
    exact congrArg _ (Gain.zero_add _).symm
  · rw [pageResult_eq_plus v hparser, TestResult.counters_plus]

theorem pageResult_right_comm (v : Vendored) (parser : ParserT) (r : TestResult)
    (page page' : List UInt8) :
    pageResult v parser (pageResult v parser r page) page' =
      pageResult v parser (pageResult v parser r page') page := by
  by_cases hparser : parser = PARSER_HSP
  · subst hparser
    exact RightCommutative.right_comm r page page'
  · rw [pageResult_eq_plus v hparser _ page', pageResult_eq_plus v hparser r page,
      TestResult.plus_right_comm, ← pageResult_eq_plus v hparser r page',
      ← pageResult_eq_plus v hparser]

theorem counters_foldl_pageResult (v : Vendored) (parser : ParserT) (pages : List (List UInt8))
    (r : TestResult) : (pages.foldl (pageResult v parser) r).counters =
      r.counters.add (Gain.sum (pages.map fun page => (pageResult v parser {} page).counters)) := by
  induction pages generalizing r with
  | nil => rfl
  | cons page pages ih =>
      rw [List.foldl_cons, ih, counters_pageResult, Gain.add_assoc, List.map_cons, Gain.sum_cons]

theorem counters_entryOf (v : Vendored) (parser : ParserT) (pages : List (List UInt8)) :
    (entryOf v pages parser).counters =
      Gain.sum (pages.map fun page => (pageResult v parser {} page).counters) := by
  rw [entryOf, counters_foldl_pageResult]
  exact Gain.zero_add _

/-- **Sums.** Every parser counts over a test set what it counts over its pages
one by one, whatever is in memory each time. -/
theorem counters_performTest (v : Vendored) (fresh : StreamParser.HtmlStreamParser) (k : ℕ)
    (pages : List (List UInt8)) (parser : ParserT) (m : Memory) :
    ((benchmarkPerformTest v fresh k pages parser m).results k).counters =
      Gain.sum (pages.map fun page =>
        ((benchmarkPerformTest v {} 0 [page] parser blank).results 0).counters) := by
  rw [benchmarkPerformTest_results, Function.update_self, counters_entryOf]
  refine congrArg Gain.sum (List.map_congr_left fun page _ => ?_)
  rw [benchmarkPerformTest_results, Function.update_self, counters_entryOf]
  rfl

theorem entryOf_perm_pages (v : Vendored) (parser : ParserT) {pages pages' : List (List UInt8)}
    (h : pages.Perm pages') : entryOf v pages parser = entryOf v pages' parser := by
  rw [entryOf, entryOf, h.length_eq]
  exact h.foldl_eq' (fun page _ page' _ r => pageResult_right_comm v parser r page page') _

theorem reportOf_perm_pages (v : Vendored) (parsers : ParserT) {pages pages' : List (List UInt8)}
    (h : pages.Perm pages') : reportOf v pages parsers = reportOf v pages' parsers := by
  simp only [reportOf, h.length_eq, entryOf_perm_pages v _ h]

/-! ### The order of the directory -/

/-- The settings have the same files in the directory, listed in any order by
either pass; memory may be anything in either of them. -/
structure SameFiles (e e' : Setting) : Prop where
  isDir : e.isDir = e'.isDir
  opensDir : e.answers.opensDir = e'.answers.opensDir
  allocates : e.answers.allocates = e'.answers.allocates
  vendored : e.vendored = e'.vendored
  counting : e.answers.counting.Perm e'.answers.counting
  loading : e.answers.loading.Perm e'.answers.loading

theorem regular_perm {entries entries' : List Loader.DirEntry} (h : entries.Perm entries') :
    (Loader.regular entries).Perm (Loader.regular entries') :=
  (h.filter _).map _

theorem load_fails {a : Loader.Answers} (r : Loader.Resources) (path : CString)
    (h : ¬(a.opensDir ∧ a.allocates ∧ 1 ≤ (Loader.regular a.counting).length)) :
    (Loader.benchmarkLoadTestSet a r path).2 = -1 := by
  cases hopens : a.opensDir with
  | false => simp [Loader.benchmarkLoadTestSet, hopens]
  | true =>
      rw [Loader.benchmarkLoadTestSet_gives_up a r path hopens]
      cases hallocates : a.allocates with
      | false => exact .inr rfl
      | true =>
          refine .inl (List.eq_nil_of_length_eq_zero ?_)
          simp only [hopens, hallocates, true_and] at h
          omega

/-- Where nothing is loaded, the program ends the same for all settings. -/
theorem main_not_loaded (e : Setting) (name testDir : CString) {args : List CString}
    (hargs : ∀ arg ∈ args, parserOption arg ≠ none) (hdir : e.isDir testDir)
    (h : ¬(e.answers.opensDir ∧ e.answers.allocates ∧
      1 ≤ (Loader.regular e.answers.counting).length)) :
    main e (name :: testDir :: args) =
      { exit := -1, calls := [.loadTestSet testDir], message := some (.unableToLoad testDir) } := by
  obtain ⟨parsers, hselect, -⟩ := selectParsers_ok hargs
  simp [main, hdir, hselect, runSelected, load_fails e.resources testDir h]

/-- **The order of the directory.** The program prints the same for the files of
a directory in whatever order it lists them, and whatever `malloc` finds, as long
as no file has been added between the passes. -/
theorem main_order {e e' : Setting} (h : SameFiles e e')
    (hfit : (Loader.loadable e.answers.loading).length ≤
      (Loader.regular e.answers.counting).length) (args : List CString) :
    main e args = main e' args := by
  match args with
  | [] | [_] => rfl
  | name :: testDir :: args =>
      by_cases hargs : ∀ arg ∈ args, parserOption arg ≠ none
      · cases hdir : e.isDir testDir with
        | false => simp [main, ← h.isDir, hdir]
        | true =>
            by_cases hload : e.answers.opensDir ∧ e.answers.allocates ∧
                1 ≤ (Loader.regular e.answers.counting).length
            · obtain ⟨hopens, hallocates, hregular⟩ := hload
              have hlength := (regular_perm h.counting).length_eq
              have hloadable : (Loader.loadable e.answers.loading).Perm
                  (Loader.loadable e'.answers.loading) := (regular_perm h.loading).filter _
              obtain ⟨parsers, hselect, hmain⟩ :=
                main_report e name testDir hargs hdir hopens hallocates hregular
              obtain ⟨parsers', hselect', hmain'⟩ :=
                main_report e' name testDir hargs (h.isDir ▸ hdir) (h.opensDir ▸ hopens)
                  (h.allocates ▸ hallocates) (hlength ▸ hregular)
              obtain rfl : parsers = parsers' := Except.ok.inj (hselect.symm.trans hselect')
              rw [hmain, hmain', ← h.vendored, List.take_of_length_le hfit,
                List.take_of_length_le (by rw [← hloadable.length_eq, ← hlength]; exact hfit)]
              rw [reportOf_perm_pages _ _ (hloadable.map _)]
            · rw [main_not_loaded e name testDir hargs hdir hload, main_not_loaded e' name testDir
                hargs (h.isDir ▸ hdir)]
              rw [← h.opensDir, ← h.allocates, ← (regular_perm h.counting).length_eq]
              exact hload
      · push Not at hargs
        obtain ⟨_, _, _, hselect⟩ :=
          parseOptions_error hargs (if args = [] then PARSER_ALL else PARSER_NONE)
        simp [main, selectParsers, hselect, h.isDir]

def listing (entries : List Loader.DirEntry) : Setting :=
  { changingSetting with
    answers := { Loader.changing with counting := entries, loading := entries } }

def linkPage : Loader.DirEntry where
  dName := ⟨bytes "l", by decide⟩
  isReg := true
  file := Loader.fileOf (bytes "<a href=x>")

def textPage : Loader.DirEntry where
  dName := ⟨bytes "t", by decide⟩
  isReg := true
  file := Loader.fileOf (bytes "<p>a</p>")

theorem main_order_swap :
    main (listing [linkPage, textPage]) [⟨bytes "b", by decide⟩, ⟨bytes "d", by decide⟩] =
      main (listing [textPage, linkPage]) [⟨bytes "b", by decide⟩, ⟨bytes "d", by decide⟩] := by
  have hsame : SameFiles (listing [linkPage, textPage]) (listing [textPage, linkPage]) :=
    ⟨rfl, rfl, rfl, rfl, List.Perm.swap _ _ _, List.Perm.swap _ _ _⟩
  have hfit : (Loader.loadable [linkPage, textPage]).length ≤
      (Loader.regular [linkPage, textPage]).length := by decide
  exact main_order hsame hfit _

end Benchmark

end HtmlBenchmark
