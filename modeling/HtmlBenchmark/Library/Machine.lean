import Mathlib.Order.Basic

/-!
Deterministic step machines and the rules their runs are reasoned with.

A program with loops is given as a step function on explicit states, one step
for one loop test together with the body it admits; a state without a step is
final. Two things are wanted of a run. The first is total correctness, which
needs an invariant and a variant and gets both from one induction
(`Machine.run_spec`). The second is a comparison of two runs step by step,
which needs a relation between the states (`Machine.run_related`). Nothing
here knows what the states are.
-/

namespace HtmlBenchmark.Library

/-- A deterministic machine on states `σ`; `step s = none` makes `s` final. -/
structure Machine (σ : Type*) where
  step : σ → Option σ

namespace Machine

variable {σ τ : Type*}

/-- At most `n` steps from `s`, fewer if a final state is met. -/
def run (M : Machine σ) : ℕ → σ → σ
  | 0, s => s
  | n + 1, s =>
      match M.step s with
      | none => s
      | some s' => M.run n s'

def Halted (M : Machine σ) (s : σ) : Prop := M.step s = none

theorem run_succ_of_step {M : Machine σ} {s s' : σ} (h : M.step s = some s') (n : ℕ) :
    M.run (n + 1) s = M.run n s' := by
  simp only [run, h]

theorem run_of_halted {M : Machine σ} {s : σ} (h : M.Halted s) (n : ℕ) :
    M.run n s = s := by
  cases n with
  | zero => rfl
  | succ n =>
      have hstep : M.step s = none := h
      simp only [run, hstep]

theorem run_succ_eq (M : Machine σ) (n : ℕ) (s : σ) :
    M.run (n + 1) s = (M.step (M.run n s)).getD (M.run n s) := by
  induction n generalizing s with
  | zero => cases h : M.step s <;> simp [run, h]
  | succ n ih =>
      cases h : M.step s with
      | none =>
          rw [run_of_halted h, run_of_halted h, h]
          rfl
      | some s' => rw [run_succ_of_step h, run_succ_of_step h, ih]

/-- What every step preserves, every run preserves. -/
theorem run_invariant {M : Machine σ} {I : σ → Prop}
    (hstep : ∀ s s', I s → M.step s = some s' → I s') {s : σ} (hs : I s) (n : ℕ) :
    I (M.run n s) := by
  induction n generalizing s with
  | zero => exact hs
  | succ n ih =>
      cases h : M.step s with
      | none => rwa [run_of_halted h]
      | some s' =>
          rw [run_succ_of_step h]
          exact ih (hstep s s' hs h)

/-- A variant that drops at every step bounds the number of steps to a final
state. -/
theorem run_halted {M : Machine σ} {I : σ → Prop} {μ : σ → ℕ}
    (hstep : ∀ s s', I s → M.step s = some s' → I s' ∧ μ s' < μ s)
    {s : σ} (hs : I s) {n : ℕ} (hn : μ s ≤ n) : M.Halted (M.run n s) := by
  induction n generalizing s with
  | zero =>
      cases h : M.step s with
      | none => exact h
      | some s' =>
          have hlt := (hstep s s' hs h).2
          omega
  | succ n ih =>
      cases h : M.step s with
      | none => rwa [run_of_halted h]
      | some s' =>
          obtain ⟨hs', hlt⟩ := hstep s s' hs h
          rw [run_succ_of_step h]
          exact ih hs' (by omega)

/-- **The loop rule.** An invariant kept by every step, a variant dropped by
every step, and what the invariant says of a final state. -/
theorem run_spec {M : Machine σ} {I Q : σ → Prop} {μ : σ → ℕ}
    (hstep : ∀ s s', I s → M.step s = some s' → I s' ∧ μ s' < μ s)
    (hfinal : ∀ s, I s → M.Halted s → Q s)
    {s : σ} (hs : I s) {n : ℕ} (hn : μ s ≤ n) : Q (M.run n s) :=
  hfinal _ (run_invariant (fun a b ha hab => (hstep a b ha hab).1) hs n)
    (run_halted hstep hs hn)

/-- **The lockstep rule.** Two machines whose steps keep a relation, and which
become final together, are related after any number of steps. -/
theorem run_related {M : Machine σ} {N : Machine τ} {R : σ → τ → Prop}
    (hstep : ∀ s t, R s t → Option.Rel R (M.step s) (N.step t))
    {s : σ} {t : τ} (hst : R s t) (n : ℕ) : R (M.run n s) (N.run n t) := by
  induction n generalizing s t with
  | zero => exact hst
  | succ n ih =>
      have h := hstep s t hst
      cases hM : M.step s with
      | none =>
          cases hN : N.step t with
          | none => rwa [run_of_halted hM, run_of_halted hN]
          | some t' =>
              rw [hM, hN] at h
              cases h
      | some s' =>
          cases hN : N.step t with
          | none =>
              rw [hM, hN] at h
              cases h
          | some t' =>
              rw [hM, hN] at h
              cases h with
              | some h' =>
                  rw [run_succ_of_step hM, run_succ_of_step hN]
                  exact ih h'

end Machine

end HtmlBenchmark.Library
