import Mathlib.Data.Nat.Notation

/-!
The result record of `benchmark.h` and the parsers it can belong to.

`total_time` is left out: it is a clock reading. The counters are `uint64_t`
and `size_t` and grow by at most one for each byte of a page, so they are
natural numbers here.
-/

namespace HtmlBenchmark

/-- `parser_t`; a mask of parsers is an `int`, and one bit of it is cast to
this type whether or not it has an enumerator. -/
abbrev ParserT := BitVec 32

def PARSER_NONE : ParserT := 0
def PARSER_DUMMY : ParserT := 1
def PARSER_HSP : ParserT := 1 <<< 1
def PARSER_LIBXML2 : ParserT := 1 <<< 2
def PARSER_GUMBO : ParserT := 1 <<< 3
def PARSER_MYHTML : ParserT := 1 <<< 4
def PARSER_HAUT : ParserT := 1 <<< 5
def PARSER_HUBBUB : ParserT := 1 <<< 6
def PARSER_ALL : ParserT := (1 <<< 6) - 1

structure TestResult where
  totalBytes : ℕ := 0
  totalTests : ℕ := 0
  totalHref : ℕ := 0
  totalSrc : ℕ := 0
  totalAlt : ℕ := 0
  totalInnertextBytes : ℕ := 0
  parser : ParserT := PARSER_NONE
  deriving DecidableEq, Repr

/-- What is set when a test begins, and not counted. -/
def TestResult.heading (r : TestResult) : ℕ × ParserT := (r.totalTests, r.parser)

/-- What a page adds to the counters of a result. -/
structure Gain where
  href : ℕ := 0
  src : ℕ := 0
  alt : ℕ := 0
  innertextBytes : ℕ := 0
  deriving DecidableEq, Repr

def TestResult.add (r : TestResult) (gain : Gain) : TestResult :=
  { r with
    totalHref := r.totalHref + gain.href
    totalSrc := r.totalSrc + gain.src
    totalAlt := r.totalAlt + gain.alt
    totalInnertextBytes := r.totalInnertextBytes + gain.innertextBytes }

def Gain.add (a b : Gain) : Gain :=
  { href := a.href + b.href
    src := a.src + b.src
    alt := a.alt + b.alt
    innertextBytes := a.innertextBytes + b.innertextBytes }

def Gain.sum (gains : List Gain) : Gain := gains.foldr Gain.add {}

theorem TestResult.add_zero (r : TestResult) : r.add {} = r := rfl

theorem TestResult.add_add (r : TestResult) (a b : Gain) : (r.add a).add b = r.add (a.add b) := by
  simp [TestResult.add, Gain.add, Nat.add_assoc]

theorem TestResult.add_inj (r : TestResult) {a b : Gain} : r.add a = r.add b ↔ a = b := by
  constructor
  · intro h
    simp only [TestResult.add, TestResult.mk.injEq, Nat.add_left_cancel_iff, true_and,
      and_true] at h
    cases a
    cases b
    simp_all
  · rintro rfl
    rfl

@[simp] theorem Gain.sum_cons (a : Gain) (gains : List Gain) :
    Gain.sum (a :: gains) = a.add (Gain.sum gains) := rfl

theorem Gain.zero_add (a : Gain) : Gain.add {} a = a := by
  simp [Gain.add]

theorem Gain.add_assoc (a b c : Gain) : (a.add b).add c = a.add (b.add c) := by
  simp [Gain.add, Nat.add_assoc]

theorem Gain.sum_append (gains gains' : List Gain) :
    Gain.sum (gains ++ gains') = (Gain.sum gains).add (Gain.sum gains') := by
  induction gains with
  | nil => exact (Gain.zero_add _).symm
  | cons a gains ih => rw [List.cons_append, Gain.sum_cons, ih, Gain.sum_cons, Gain.add_assoc]

end HtmlBenchmark
