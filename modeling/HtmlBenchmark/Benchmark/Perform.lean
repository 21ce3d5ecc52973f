import HtmlBenchmark.Gumbo.Adapter
import HtmlBenchmark.Haut.Adapter
import HtmlBenchmark.Libxml2.Adapter
import HtmlBenchmark.MyHtml.Adapter
import HtmlBenchmark.TestHsp.Driver

/-!
The runs of `benchmark.c`.

`benchmark_performTest` runs one parser over the pages of the test set and
leaves its counters in one entry of an array; `benchmark_performTests` sizes
that array by the number of parsers in the mask and fills it by a scan of the
bits. The array is memory, an entry is its index, and what `malloc` left in it
is arbitrary.

The adapters keep two things from one page to the next: the static parser and
buffers of `test_hsp`, and the pointer `k_result` of `test_myhtml`. They are
part of the memory. The parsers behind the other adapters are taken as functions
of the page. `total_time` and what is printed to `stderr` are left out.
-/

namespace HtmlBenchmark.Benchmark

/-- What the vendored parsers make of a page, and the sizes two of the adapters
report. -/
structure Vendored where
  libxml2 : List UInt8 → List Libxml2.Call
  libxml2Sizes : ℕ
  gumbo : List UInt8 → Gumbo.GumboNode
  gumboMallocs : List UInt8 → List ℕ
  myHtml : List UInt8 → MyHtml.Parsed
  haut : List UInt8 → List Haut.HautEvent
  hautSize : ℕ

/-- Vendored parsers that make nothing of a page. -/
def silent : Vendored where
  libxml2 := fun _ => []
  libxml2Sizes := 0
  gumbo := fun _ => .leaf { type := .text, text := CString.empty }
  gumboMallocs := fun _ => []
  myHtml := fun _ => { mallocs := [], links := [], images := [], body := .null }
  haut := fun _ => []
  hautSize := 0

/-- The globals of the adapters, and the array of results. -/
structure Memory extends MyHtml.Memory where
  hsp : TestHsp.Statics

/-- A memory nothing has been written to. -/
def blank : Memory := { kResult := none, results := fun _ => {}, hsp := {} }

/-- `test_dummy`: the sum of the characters. -/
def testDummy (page : List UInt8) : UInt8 := page.foldl (· + ·) 0

/-- `test_hsp` on the result at an index. -/
def Memory.testHsp (m : Memory) (result : ℕ) (page : List UInt8) : Memory :=
  let (hsp, r) := TestHsp.testHsp m.hsp (m.results result) page
  { m with hsp := hsp, results := Function.update m.results result r }

/-- An adapter that touches nothing but its result. -/
def Memory.onResult (m : Memory) (result : ℕ) (f : TestResult → TestResult) : Memory :=
  { m with toMemory := m.toMemory.update result f }

/-- The `switch` on the parser in the loop over the pages. -/
def testPage (v : Vendored) (result : ℕ) (parser : ParserT) (m : Memory) (page : List UInt8) :
    Memory :=
  if parser = PARSER_DUMMY then
    -- the sum is dropped
    let _ := testDummy page
    m
  else if parser = PARSER_HSP then m.testHsp result page
  else if parser = PARSER_LIBXML2 then
    m.onResult result (Libxml2.testLibxml2 v.libxml2Sizes (v.libxml2 page))
  else if parser = PARSER_GUMBO then
    m.onResult result (Gumbo.testGumbo (v.gumbo page) (v.gumboMallocs page))
  else if parser = PARSER_MYHTML then
    { m with toMemory := MyHtml.testMyHtml (v.myHtml page) result m.toMemory }
  else if parser = PARSER_HAUT then
    m.onResult result (Haut.testHaut v.hautSize (v.haut page))
  else m

def resetResult (totalTests : ℕ) (parser : ParserT) (r : TestResult) : TestResult :=
  { r with
    totalTests := totalTests
    totalHref := 0
    totalSrc := 0
    totalAlt := 0
    totalBytes := 0
    totalInnertextBytes := 0
    parser := parser }

/-- `benchmark_performTest`; `fresh` is what `malloc` leaves in a new parser of
`test_hsp`. Its clean-up frees that parser, which is not used again before the
next initialisation. -/
def benchmarkPerformTest (v : Vendored) (fresh : StreamParser.HtmlStreamParser) (result : ℕ)
    (pages : List (List UInt8)) (parser : ParserT) (m : Memory) : Memory :=
  let m := m.onResult result (resetResult pages.length parser)
  let m := if parser = PARSER_HSP then { m with hsp := TestHsp.testHspInit m.hsp fresh } else m
  pages.foldl (testPage v result parser) m

def builtinPopcount (x : ParserT) : ℕ := x.cpop.toNat

/-- The scan of the mask under way, with a record of the tests performed: the
entry each was given, and its parser. -/
structure Scan where
  index : ℕ
  memory : Memory
  tests : List (ℕ × ParserT)

def Scan.bit (v : Vendored) (fresh : StreamParser.HtmlStreamParser) (pages : List (List UInt8))
    (parsers : ParserT) (s : Scan) (i : ℕ) : Scan :=
  let p : ParserT := 1 <<< i
  if parsers &&& p ≠ 0 then
    { index := s.index + 1
      memory := benchmarkPerformTest v fresh s.index pages p s.memory
      tests := s.tests ++ [(s.index, p)] }
  else s

/-- The scan at its beginning, with the terminator in the array. -/
def Scan.start (parsers : ParserT) (m : Memory) : Scan where
  index := 0
  memory := m.onResult (builtinPopcount parsers) fun r => { r with parser := PARSER_NONE }
  tests := []

/-- `benchmark_performTests`; the array is allocated with the contents the
memory has. It returns NULL, here `none`, for an empty mask. -/
def benchmarkPerformTests (v : Vendored) (fresh : StreamParser.HtmlStreamParser)
    (pages : List (List UInt8)) (parsers : ParserT) (m : Memory) : Option Scan :=
  if builtinPopcount parsers < 1 then none
  else some ((List.range 32).foldl (Scan.bit v fresh pages parsers) (Scan.start parsers m))

end HtmlBenchmark.Benchmark
