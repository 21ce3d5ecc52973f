import Mathlib.Algebra.Ring.Nat
import Mathlib.Data.List.Range

/-!
The set bits of a word, found one after the other by a scan from bit 0 on.
-/

namespace HtmlBenchmark.Library

/-- The positions of the set bits, lowest first. -/
def setBits {w : ℕ} (x : BitVec w) : List ℕ := (List.range w).filter x.getLsbD

/-- The test by which a scan finds a bit. -/
theorem and_shiftLeft_ne_zero_iff {w : ℕ} (x : BitVec w) {i : ℕ} (hi : i < w) :
    x &&& (1#w <<< i) ≠ 0#w ↔ x.getLsbD i := by
  have hbit : BitVec.twoPow w i ≠ 0#w := by
    intro h
    have hnat := congrArg BitVec.toNat h
    rw [BitVec.toNat_twoPow_of_lt hi, BitVec.toNat_ofNat, Nat.zero_mod] at hnat
    exact absurd hnat (Nat.ne_of_gt (Nat.two_pow_pos i))
  rw [← BitVec.twoPow_eq, BitVec.and_twoPow]
  cases x.getLsbD i with
  | false => simp
  | true => simpa using hbit

theorem toNat_shiftLeft_one {w i : ℕ} (hi : i < w) : (1#w <<< i).toNat = 2 ^ i := by
  rw [← BitVec.twoPow_eq, BitVec.toNat_twoPow_of_lt hi]

theorem length_filter_range {w : ℕ} (x : BitVec w) (n acc : ℕ) :
    ((List.range n).filter x.getLsbD).length + acc = x.cpopNatRec n acc := by
  induction n generalizing acc with
  | zero => exact Nat.zero_add acc
  | succ n ih =>
      rw [BitVec.cpopNatRec_succ, ← ih, List.range_succ, List.filter_append, List.length_append,
        Nat.add_comm acc, ← Nat.add_assoc, List.filter_singleton]
      cases x.getLsbD n <;> rfl

/-- There are as many as the population count says. -/
theorem length_setBits {w : ℕ} (x : BitVec w) : (setBits x).length = x.cpop.toNat := by
  rw [BitVec.toNat_cpop, ← length_filter_range]
  rfl

theorem setBits_sorted {w : ℕ} (x : BitVec w) : (setBits x).Pairwise (· < ·) :=
  List.pairwise_lt_range.filter _

theorem mem_setBits {w : ℕ} (x : BitVec w) {i : ℕ} : i ∈ setBits x ↔ i < w ∧ x.getLsbD i := by
  rw [setBits, List.mem_filter, List.mem_range]

theorem exists_getLsbD {w : ℕ} {x : BitVec w} (h : x ≠ 0#w) : ∃ i, x.getLsbD i := by
  by_contra hnone
  apply h
  ext i hi
  rw [BitVec.getElem_zero, ← BitVec.getLsbD_eq_getElem]
  exact Bool.eq_false_iff.mpr fun hbit => hnone ⟨i, hbit⟩

/-- A word with one bit. -/
theorem setBits_shiftLeft_one {w i : ℕ} (hi : i < w) : setBits (1#w <<< i) = [i] := by
  rw [← List.perm_singleton, List.perm_ext_iff_of_nodup]
  · intro j
    rw [mem_setBits, ← BitVec.twoPow_eq, BitVec.getLsbD_twoPow]
    simp only [hi, decide_true, Bool.true_and, decide_eq_true_eq, List.mem_singleton]
    omega
  · exact (setBits_sorted _).imp Nat.ne_of_lt
  · exact List.pairwise_singleton _ i

end HtmlBenchmark.Library
