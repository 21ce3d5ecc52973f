import HtmlBenchmark.TestHsp.Accesses

/-!
The calls of `html_parser_trim` in `test_hsp`.

A step makes at most one of them: on an `alt` value, on the text in front of
`</title>`, or on the text at a closing tag. The length it is called with is
the one the parser reports, and that one can be 0: a closing tag may come before
any text, and an `alt` value may be empty. A text that is all white space is
trimmed down to nothing as well. Either way the two loops look at a byte that
is not of the text.

A record of what the parser has stored since a text began is carried along the
run. The bytes below the length reported are always among them, so what a call
may look at is what the parser wrote.
-/

namespace HtmlBenchmark.TestHsp

open Library StreamParser

/-- A call of `html_parser_trim`: on so many bytes of a buffer. -/
structure Trim where
  buffer : Buffer
  bytes : Buf
  len : ℕ

def Edit.trim (hsp : HtmlStreamParser) (edit : Edit) : Trim where
  buffer := edit.buffer
  bytes := (edit.text hsp).1
  len := (edit.text hsp).2

namespace Driver

/-- The call in the step from a state. -/
def trimmed (page : List UInt8) (d : Driver) : Option Trim :=
  match d.handled page with
  | none => none
  | some (c, edit) => edit.map (Edit.trim (htmlParserCharParse d.hsp c))

/-- The offsets the parser has stored to since the text in a buffer began, with
the byte of the step from a state. -/
def written (page : List UInt8) (r : Buffer) (d : Driver) (since : List ℕ) : List ℕ :=
  match d.handled page with
  | none => since
  | some (c, _) => StreamParser.written d.hsp c r since

end Driver

/-- The same after so many steps of `test_hsp`. -/
def writtenBy (g : Statics) (result : TestResult) (page : List UInt8) (r : Buffer) : ℕ → List ℕ
  | 0 => []
  | n + 1 => ((loops page).run n (start g result)).written page r (writtenBy g result page r n)

/-- A call looks at bytes of its text alone, and these the parser has written
for it. -/
structure Trim.Sound (trim : Trim) (written : List ℕ) : Prop where
  looksInside : TrimSound trim.bytes trim.len
  written : ∀ i < trim.len, i ∈ written

/-- A text that is neither empty nor all white space. -/
def Trim.NotBlank (trim : Trim) : Prop := ∃ i < trim.len, ishtmlspace (trim.bytes i) = false

/-! ### The record along a run -/

namespace Driver

variable {page : List UInt8} {d : Driver}

theorem Stepped.written {d' : Driver} (hs : Stepped page d d') {r : Buffer} {since : List ℕ}
    (h : ∀ i < (d.hsp.textBuf r).len, i ∈ since) :
    ∀ i < (d'.hsp.textBuf r).len, i ∈ d.written page r since := by
  cases hs with
  | forBody hpc hi =>
      rw [Driver.written, handled_for hpc hi, (d.forBody_sameRoom _).len]
      exact mem_written h _
  | whileBody imgSrc imgAlt hpc hi htag =>
      rw [Driver.written, handled_while hpc hi htag,
        (whileBody_sameRoom { d with i := d.i + 1 } imgSrc imgAlt _).len]
      exact mem_written h _
  | leave imgSrc imgAlt hpc hleave =>
      rw [Driver.written, handled_leave hpc hleave]
      exact h

theorem handled_halted (h : (loops page).Halted d) : d.handled page = none := by
  obtain ⟨hpc, hi⟩ := halted_iff.mp h
  simp only [handled, hpc]
  exact if_neg (Nat.not_lt.mpr hi)

/-- A text is trimmed in the length the parser reports, and no further than the
parser has written. -/
theorem trimmed_written {since : Buffer → List ℕ}
    (h : ∀ r, ∀ i < (d.hsp.textBuf r).len, i ∈ since r) {trim : Trim}
    (htrim : trim ∈ d.trimmed page) :
    ∀ i < trim.len, i ∈ d.written page trim.buffer (since trim.buffer) := by
  rw [trimmed] at htrim
  cases hhandled : d.handled page with
  | none =>
      rw [hhandled] at htrim
      cases htrim
  | some handled =>
      obtain ⟨c, edit⟩ := handled
      rw [hhandled] at htrim
      obtain ⟨edit, -, rfl⟩ := Option.map_eq_some_iff.mp htrim
      rw [written, hhandled]
      exact fun i hi => mem_written (h _) c i (hi.trans_le (edit.text_le _))

end Driver

section Runs

variable (g : Statics) (result : TestResult) (page : List UInt8)

/-- In every state of a run the texts are made of what the record holds. -/
theorem mem_writtenBy (n : ℕ) (r : Buffer) :
    ∀ i < (((loops page).run n (start g result)).hsp.textBuf r).len,
      i ∈ writtenBy g result page r n := by
  induction n with
  | zero =>
      intro i hi
      have hlen : ((start g result).hsp.textBuf r).len = 0 := by
        cases r <;> rfl
      exact absurd (hlen ▸ hi) (Nat.not_lt_zero i)
  | succ n ih =>
      rw [Machine.run_succ_eq, writtenBy]
      generalize (loops page).run n (start g result) = d at ih
      cases hstep : (loops page).step d with
      | none =>
          rw [Driver.written, Driver.handled_halted hstep]
          exact ih
      | some d' => exact (Driver.step_cases hstep).written ih

/-- Over any run of `test_hsp` the calls look at nothing but what the parser has
written for their texts, exactly when none of these texts is blank. -/
theorem trims_sound_iff :
    (∀ n, ∀ trim ∈ ((loops page).run n (start g result)).trimmed page,
        trim.Sound (writtenBy g result page trim.buffer (n + 1))) ↔
      ∀ n, ∀ trim ∈ ((loops page).run n (start g result)).trimmed page, trim.NotBlank := by
  constructor
  · intro h n trim htrim
    exact (trimSound_iff trim.bytes trim.len).mp (h n trim htrim).looksInside
  · intro h n trim htrim
    exact {
      looksInside := (trimSound_iff trim.bytes trim.len).mpr (h n trim htrim)
      written := Driver.trimmed_written (mem_writtenBy g result page n) htrim }

end Runs

/-- A closing tag in front of all text: `html_parser_rtrim` looks at `src[-1]`. -/
theorem not_forall_trims_sound :
    ¬ ∀ (g : Statics) (result : TestResult) (page : List UInt8) (n : ℕ),
      ∀ trim ∈ ((loops page).run n (start g result)).trimmed page,
        trim.Sound (writtenBy g result page trim.buffer (n + 1)) := by
  intro h
  have hempty : (((loops (bytes "</p>")).run 3 (start {} {})).trimmed (bytes "</p>")).map
      Trim.len = some 0 := by decide
  obtain ⟨trim, htrim, hlen⟩ := Option.map_eq_some_iff.mp hempty
  have hlooks := (h {} {} (bytes "</p>") 3 trim htrim).looksInside
  have hzero : 0 ∈ rtrimTests trim.bytes (htmlParserLtrim trim.bytes 0 0).1 0 :=
    List.mem_singleton_self 0
  rw [hlen] at hlooks
  exact absurd (hlooks.rtrim 0 hzero) (by decide)

end HtmlBenchmark.TestHsp
