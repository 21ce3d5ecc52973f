import HtmlBenchmark.StreamParser.Tags
import HtmlBenchmark.TestHsp.Steps

/-!
The parser fed every byte of the page once, in order, with nobody touching its
buffers. This is the reading of the page that the driver is measured against.

`Driver.fed` is the number of bytes the driver has taken off the page: inside
the `while` loop the byte at the index is already parsed, before a `for` test
it is not. As long as no byte is skipped, the driver's parser is the one-pass
parser after that many bytes, up to the edits in place.
-/

namespace HtmlBenchmark.TestHsp

open Library StreamParser

def parserAfter (g : Statics) (page : List UInt8) (k : ℕ) : HtmlStreamParser :=
  (page.take k).foldl htmlParserCharParse (configured g)

theorem parserAfter_succ (g : Statics) {page : List UInt8} {k : ℕ} (hk : k < page.length) :
    parserAfter g page (k + 1) = htmlParserCharParse (parserAfter g page k) (page.getD k 0) := by
  have htake : page.take (k + 1) = page.take k ++ [page.getD k 0] := by
    rw [List.take_succ_eq_append_getElem hk, List.getElem_eq_getD 0]
  simp only [parserAfter, htake, List.foldl_append, List.foldl_cons, List.foldl_nil]

theorem configured_ok (g : Statics) : (configured g).Ok where
  control := Control.ok_initial
  room := Nat.succ_pos 8
  slash h := by
    rcases h with h | h <;> cases h

theorem parserAfter_ok (g : Statics) (page : List UInt8) (k : ℕ) : (parserAfter g page k).Ok := by
  induction k with
  | zero => exact configured_ok g
  | succ k ih =>
      by_cases hk : k < page.length
      · rw [parserAfter_succ g hk]
        exact ih.charParse _
      · have hsame : parserAfter g page (k + 1) = parserAfter g page k := by
          simp only [parserAfter]
          rw [List.take_of_length_le (by omega), List.take_of_length_le (by omega)]
        rwa [hsame]

/-! ### The driver and the one pass -/

namespace Driver

def fed (d : Driver) : ℕ :=
  match d.pc with
  | .forTest => d.i
  | .whileTest _ _ => d.i + 1

theorem fed_forTest {d : Driver} (h : d.pc = .forTest) : d.fed = d.i := by
  simp only [fed, h]

theorem fed_whileTest {d : Driver} {imgSrc imgAlt : Bool} (h : d.pc = .whileTest imgSrc imgAlt) :
    d.fed = d.i + 1 := by
  simp only [fed, h]

/-- The driver's parser is the one-pass parser after the bytes taken. -/
def InStep (g : Statics) (page : List UInt8) (d : Driver) : Prop :=
  d.hsp.SameTags (parserAfter g page d.fed)

theorem inStep_start (g : Statics) (result : TestResult) (page : List UInt8) :
    (start g result).InStep g page := .refl _

theorem fed_forBody {d : Driver} (hpc : d.pc = .forTest) (c : UInt8) :
    (d.forBody c).fed = d.fed + 1 := by
  have hbody := d.forBody_pc c hpc
  rw [fed_forTest hpc]
  split_ifs at hbody
  · obtain ⟨hpc', hi'⟩ := Prod.mk.inj hbody
    rw [fed_whileTest hpc', hi']
  · obtain ⟨hpc', hi'⟩ := Prod.mk.inj hbody
    rw [fed_forTest hpc', hi']

theorem fed_whileBody {d : Driver} {imgSrc imgAlt : Bool} (hpc : d.pc = .whileTest imgSrc imgAlt)
    (c : UInt8) :
    (({ d with i := d.i + 1 } : Driver).whileBody imgSrc imgAlt c).fed = d.fed + 1 := by
  rw [fed_whileTest (whileBody_pc { d with i := d.i + 1 } c imgSrc imgAlt hpc), whileBody_i,
    fed_whileTest hpc]

theorem InStep.forBody {g : Statics} {page : List UInt8} {d : Driver} (h : d.InStep g page)
    (hpc : d.pc = .forTest) (hi : d.i < page.length) :
    (d.forBody (page.getD d.i 0)).InStep g page := by
  rw [InStep, fed_forBody hpc, fed_forTest hpc, parserAfter_succ g hi]
  rw [InStep, fed_forTest hpc] at h
  exact (forBody_sameTags d _).trans (h.charParse _)

theorem InStep.whileBody {g : Statics} {page : List UInt8} {d : Driver} (h : d.InStep g page)
    {imgSrc imgAlt : Bool} (hpc : d.pc = .whileTest imgSrc imgAlt)
    (hi : d.i + 1 < page.length - 1) :
    (({ d with i := d.i + 1 } : Driver).whileBody imgSrc imgAlt
      (page.getD (d.i + 1) 0)).InStep g page := by
  rw [InStep, fed_whileBody hpc, fed_whileTest hpc, parserAfter_succ g (by omega)]
  rw [InStep, fed_whileTest hpc] at h
  exact (whileBody_sameTags _ _ _ _).trans (h.charParse _)

/-- In step, the driver enters the `while` loop where the one pass reports an
`img`. -/
theorem InStep.forBody_pc {g : Statics} {page : List UInt8} {d : Driver} (h : d.InStep g page)
    (hpc : d.pc = .forTest) (hi : d.i < page.length) :
    ((d.forBody (page.getD d.i 0)).pc, (d.forBody (page.getD d.i 0)).i) =
      if htmlParserCmpTag (parserAfter g page (d.i + 1)) TAG_IMG then
        (.whileTest false false, d.i)
      else (.forTest, d.i + 1) := by
  rw [InStep, fed_forTest hpc] at h
  rw [Driver.forBody_pc d _ hpc, (h.charParse _).cmpTag_eq, parserAfter_succ g hi]

end Driver

end HtmlBenchmark.TestHsp
