import HtmlBenchmark.Benchmark.Perform
import HtmlBenchmark.Library.Machine
import HtmlBenchmark.Loader.TestSet

/-!
The program of `main.c`.

`main` reads a mask off its arguments, loads the test set, runs the parsers in
the mask and prints their results. A run is recorded as the exit code together
with the functions called on the way and the message it ends with; of a printed
block the record has the values, sizes in bytes and without the times.
-/

namespace HtmlBenchmark.Benchmark

open Library

/-! ### The arguments -/

/-- The comparisons of one argument with the names of the parsers. -/
def parserOption (arg : CString) : Option ParserT :=
  if arg.bytes = bytes "all" then some PARSER_ALL
  else if arg.bytes = bytes "hsp" then some PARSER_HSP
  else if arg.bytes = bytes "libxml2" then some PARSER_LIBXML2
  else if arg.bytes = bytes "gumbo" then some PARSER_GUMBO
  else if arg.bytes = bytes "myhtml" then some PARSER_MYHTML
  else if arg.bytes = bytes "hubbub" then some PARSER_HUBBUB
  else if arg.bytes = bytes "dummy" then some PARSER_DUMMY
  else if arg.bytes = bytes "haut" then some PARSER_HAUT
  else none

/-- The loop over the arguments; it stops at the first one that is no name of a
parser. -/
def parseOptions : List CString → ParserT → Except CString ParserT
  | [], parsers => .ok parsers
  | arg :: args, parsers =>
      match parserOption arg with
      | some p => parseOptions args (parsers ||| p)
      | none => .error arg

/-- The mask for the arguments behind the directory. -/
def selectParsers (args : List CString) : Except CString ParserT :=
  parseOptions args (if args = [] then PARSER_ALL else PARSER_NONE)

/-! ### The report -/

def strParser (p : ParserT) : String :=
  if p = PARSER_DUMMY then "dummy"
  else if p = PARSER_HSP then "htmlstreamparser"
  else if p = PARSER_LIBXML2 then "libxml2"
  else if p = PARSER_GUMBO then "gumbo-parser"
  else if p = PARSER_MYHTML then "MyHTML"
  else if p = PARSER_HUBBUB then "hubbub"
  else if p = PARSER_HAUT then "haut"
  else ""

/-- The values printed for one result. -/
structure Block where
  parser : String
  totalTests : ℕ
  totalBytes : ℕ
  totalInnertextBytes : ℕ
  totalHref : ℕ
  totalSrc : ℕ
  totalAlt : ℕ
  deriving DecidableEq, Repr

def blockOf (r : TestResult) : Block where
  parser := strParser r.parser
  totalTests := r.totalTests
  totalBytes := r.totalBytes
  totalInnertextBytes := r.totalInnertextBytes
  totalHref := r.totalHref
  totalSrc := r.totalSrc
  totalAlt := r.totalAlt

/-- The loop of `print_results`: the index, and the blocks printed so far. -/
def printLoop (results : ℕ → TestResult) : Machine (ℕ × List Block) where
  step := fun (i, blocks) =>
    if (results i).parser = PARSER_NONE then none
    else some (i + 1, blocks ++ [blockOf (results i)])

/-- `print_results`, followed for as many rounds as a mask has bits. -/
def printResults (results : ℕ → TestResult) : List Block :=
  ((printLoop results).run 32 (0, [])).2

/-! ### The program -/

/-- The buffers of a test set with their sizes, as they are handed to the
parsers. -/
def pagesOf (s : Loader.State) : List (List UInt8) :=
  (List.range s.testset.count).map fun i =>
    let block := do
      let slots ← s.testset.data
      let pointer ← (slots i).buffer
      let block ← s.resources.block pointer
      return block.take (slots i).size
    block.getD []

/-- A function that `main` calls. -/
inductive Call
  | loadTestSet (path : CString)
  | performTests (parsers : ParserT)
  | printResults (blocks : List Block)
  | freeTestSet

/-- What `main` prints before it stops early. -/
inductive Message
  | help
  | notADirectory (path : CString)
  | unrecognizedOption (arg : CString)
  | unableToLoad (path : CString)

/-- An exit code, the functions called before, and why it came to nothing more. -/
structure MainRun where
  exit : ℤ
  calls : List Call
  message : Option Message

/-- What a run of `main` depends on besides its arguments: the answer of `stat`
for the directory, those the loader gets, the vendored parsers, and the memory
at the start, which `malloc` makes the array of results out of. -/
structure Setting where
  isDir : CString → Bool
  answers : Loader.Answers
  resources : Loader.Resources
  vendored : Vendored
  fresh : StreamParser.HtmlStreamParser
  memory : Memory

/-- `main`, once the mask is read. -/
def runSelected (e : Setting) (testDir : CString) (parsers : ParserT) : MainRun :=
  let (s, failed) := Loader.benchmarkLoadTestSet e.answers e.resources testDir
  if failed ≠ 0 then
    { exit := -1, calls := [.loadTestSet testDir], message := some (.unableToLoad testDir) }
  else
    -- there is an array: the mask is never empty
    let results := benchmarkPerformTests e.vendored e.fresh (pagesOf s) parsers e.memory
    let blocks := (results.map fun scan => printResults scan.memory.results).getD []
    { exit := 0
      calls := [.loadTestSet testDir, .performTests parsers, .printResults blocks, .freeTestSet]
      message := none }

def main (e : Setting) : List CString → MainRun
  | _ :: testDir :: args =>
      if !e.isDir testDir then
        { exit := -1, calls := [], message := some (.notADirectory testDir) }
      else
        match selectParsers args with
        | .error arg => { exit := -1, calls := [], message := some (.unrecognizedOption arg) }
        | .ok parsers => runSelected e testDir parsers
  | _ => { exit := 0, calls := [], message := some .help }

end HtmlBenchmark.Benchmark
