import HtmlBenchmark.Library.Rounds
import Mathlib.Algebra.Order.Floor.Semifield
import Mathlib.Data.Rat.Floor
import Mathlib.Tactic.NormNum

/-!
Sizes as they are printed.

A size is printed as a number and a unit, each by a loop of its own that divides
by 1024 while it has more than 1024. The loop for the number divides exactly (a
`double` in the source, a rational number here), the one for the unit drops the
remainder. What is dropped can be all that is above 1024, and then the number is
divided once more than its unit says. The unit is looked up without a check of
the bounds of its table.
-/

namespace HtmlBenchmark.Benchmark

open Library

/-- `prefix`, the table of `str_largest_prefix`. -/
def prefixes : List String := ["B", "KB", "MB", "GB", "TB", "PB"]

def prefixLoop (size i : ℕ) : ℕ × ℕ :=
  if 1024 < size then prefixLoop (size / 1024) (i + 1) else (size, i)
termination_by size
decreasing_by omega

/-- The index at which `str_largest_prefix` looks up the unit. -/
def prefixIndex (size : ℕ) : ℕ := (prefixLoop size 0).2

/-- `str_largest_prefix`; there is no answer behind the end of the table. -/
def strLargestPrefix (size : ℕ) : Option String := prefixes[prefixIndex size]?

/-- The loop of `div_by_largest_prefix`, with a count of the divisions, which
the code does not keep. -/
def divLoop (s : ℚ) (i : ℕ) : ℚ × ℕ :=
  if 1024 < s then divLoop (s / 1024) (i + 1) else (s, i)
termination_by ⌊s⌋₊
decreasing_by
  rename_i h
  have hfloor : 1024 ≤ ⌊s⌋₊ := Nat.le_floor (by exact_mod_cast h.le)
  rw [show s / 1024 = s / (1024 : ℕ) by norm_num, Nat.floor_div_natCast]
  omega

def divByLargestPrefix (size : ℕ) : ℚ := (divLoop size 0).1

def divisions (size : ℕ) : ℕ := (divLoop size 0).2

/-! ### What the loops compute -/

theorem iterate_div (size j : ℕ) : (· / 1024)^[j] size = size / 1024 ^ j := by
  induction j with
  | zero => simp
  | succ j ih => rw [Function.iterate_succ_apply', ih, Nat.div_div_eq_div_mul, Nat.pow_succ]

theorem iterate_div_rat (s : ℚ) (j : ℕ) : (· / 1024)^[j] s = s / 1024 ^ j := by
  induction j with
  | zero => simp
  | succ j ih => rw [Function.iterate_succ_apply', ih, div_div, pow_succ]

theorem prefixLoop_rounds (size i : ℕ) : ∃ k, Rounds (1024 < ·) (· / 1024) size k ∧
    prefixLoop size i = (size / 1024 ^ k, i + k) := by
  fun_induction prefixLoop size i with
  | case1 size i h ih =>
      obtain ⟨k, hk, heq⟩ := ih
      refine ⟨k + 1, hk.succ h, ?_⟩
      rw [heq, Nat.div_div_eq_div_mul, ← Nat.pow_succ', Nat.add_assoc, Nat.add_comm 1]
  | case2 size i h => exact ⟨0, .zero h, by simp⟩

theorem divLoop_rounds (s : ℚ) (i : ℕ) : ∃ k, Rounds (1024 < ·) (· / 1024) s k ∧
    divLoop s i = (s / 1024 ^ k, i + k) := by
  fun_induction divLoop s i with
  | case1 s i h ih =>
      obtain ⟨k, hk, heq⟩ := ih
      refine ⟨k + 1, hk.succ h, ?_⟩
      rw [heq, div_div, ← pow_succ', Nat.add_assoc, Nat.add_comm 1]
  | case2 s i h => exact ⟨0, .zero h, by simp⟩

theorem prefixIndex_rounds (size : ℕ) :
    Rounds (1024 < ·) (· / 1024) size (prefixIndex size) := by
  obtain ⟨k, hk, heq⟩ := prefixLoop_rounds size 0
  rw [prefixIndex, heq, Nat.zero_add]
  exact hk

theorem divisions_rounds (size : ℕ) :
    Rounds (1024 < ·) (· / 1024) (size : ℚ) (divisions size) := by
  obtain ⟨k, hk, heq⟩ := divLoop_rounds size 0
  rw [divisions, heq, Nat.zero_add]
  exact hk

theorem divByLargestPrefix_mul (size : ℕ) :
    divByLargestPrefix size * 1024 ^ divisions size = size := by
  obtain ⟨k, -, heq⟩ := divLoop_rounds size 0
  rw [divByLargestPrefix, divisions, heq, Nat.zero_add]
  exact div_mul_cancel₀ _ (by positivity)

/-! ### The two tests -/

/-- The truncated quotient is above 1024 from 1025 on. -/
theorem lt_div_iff (size j : ℕ) : 1024 < size / 1024 ^ j ↔ 1025 * 1024 ^ j ≤ size :=
  Nat.le_div_iff_mul_le (by positivity)

/-- The exact one is above 1024 as soon as it is not 1024 any more. -/
theorem lt_div_rat_iff (size j : ℕ) : (1024 : ℚ) < size / 1024 ^ j ↔ 1024 ^ (j + 1) < size := by
  rw [lt_div_iff₀ (by positivity), ← pow_succ']
  exact_mod_cast Iff.rfl

theorem divisions_eq_iff (size : ℕ) :
    divisions size = prefixIndex size ↔ size ≤ 1024 ^ (prefixIndex size + 1) := by
  rw [(prefixIndex_rounds size).eq_iff (divisions_rounds size), iterate_div_rat, lt_div_rat_iff,
    Nat.not_lt]
  intro j hj
  rw [iterate_div, lt_div_iff] at hj
  rw [iterate_div_rat, lt_div_rat_iff, Nat.pow_succ']
  have := Nat.pow_pos (n := j) (show 0 < 1024 by omega)
  omega

/-! ### Agreement -/

/-- The number and the unit printed for a size denote that size. -/
structure PrefixAgrees (size : ℕ) : Prop where
  entry : prefixIndex size < prefixes.length
  divisions : divisions size = prefixIndex size
  value : divByLargestPrefix size * 1024 ^ prefixIndex size = size

/-- The size is above a power of 1024 by less than what the last division
drops. -/
def InBand (size : ℕ) : Prop := ∃ i, 1024 ^ (i + 1) < size ∧ size < 1025 * 1024 ^ i

/-- **Number and unit** agree exactly up to `1024 ^ 6` and outside the bands
above the powers of 1024. -/
theorem prefixAgrees_iff (size : ℕ) : PrefixAgrees size ↔ size ≤ 1024 ^ 6 ∧ ¬InBand size := by
  have hrounds := prefixIndex_rounds size
  constructor
  · rintro ⟨hentry, hdivisions, -⟩
    have hlast := (divisions_eq_iff size).mp hdivisions
    refine ⟨hlast.trans (Nat.pow_le_pow_right (by omega) (Nat.succ_le_of_lt hentry)), ?_⟩
    rintro ⟨i, hlow, hhigh⟩
    -- In the band the unit is found after `i` rounds at the latest, too early for the number.
    have hle : prefixIndex size ≤ i := by
      apply hrounds.le_of_not
      rw [iterate_div, lt_div_iff]
      omega
    have := Nat.pow_le_pow_right (show 0 < 1024 by omega) (Nat.succ_le_succ hle)
    omega
  · rintro ⟨hle, hband⟩
    have hentry : prefixIndex size ≤ 5 := by
      apply hrounds.le_of_not
      rw [iterate_div, lt_div_iff]
      omega
    have hleaves := hrounds.leaves
    rw [iterate_div, lt_div_iff, Nat.not_le] at hleaves
    have hdivisions := (divisions_eq_iff size).mpr <| Nat.le_of_not_lt fun hlt =>
      hband ⟨prefixIndex size, hlt, hleaves⟩
    refine ⟨Nat.lt_succ_of_le hentry, hdivisions, ?_⟩
    rw [← hdivisions]
    exact divByLargestPrefix_mul size

/-- One byte more than a megabyte is printed as one kilobyte. -/
theorem not_forall_prefixAgrees : ¬∀ size < 2 ^ 64, PrefixAgrees size := by
  intro h
  have hdivisions := (divisions_eq_iff 1048577).mp (h 1048577 (by omega)).divisions
  have hindex : prefixIndex 1048577 = 1 := by simp [prefixIndex, prefixLoop]
  rw [hindex] at hdivisions
  omega

end HtmlBenchmark.Benchmark
