import Mathlib.Data.List.Flatten
import Mathlib.Data.Nat.Notation

/-!
Machines that read a word letter by letter and put something out on the way.

`T.Triple P w out Q` says of one word what a reader of it needs to know: read
from any state in `P`, it puts out exactly `out` and leads to a state in `Q`.
Triples compose along the word, so a text is followed through a machine piece by
piece, each piece from the kind of state the one before it ends in. The scan and
the span rule are the loop rules of this layer: a stretch of letters that puts
nothing out while the state keeps a record of it.

The other thing wanted of a machine is that it does what a simpler one does
(`Transducer.related`).
-/

namespace HtmlBenchmark.Library

/-- A machine that reads letters `α` and puts out a list over `β` at each. -/
structure Transducer (σ α β : Type*) where
  next : σ → α → σ
  out : σ → α → List β

namespace Transducer

variable {σ τ α β γ : Type*} {T : Transducer σ α β}

def run (T : Transducer σ α β) (s : σ) (w : List α) : σ := w.foldl T.next s

def outputs (T : Transducer σ α β) : σ → List α → List β
  | _, [] => []
  | s, a :: w => T.out s a ++ T.outputs (T.next s a) w

@[simp] theorem run_nil (s : σ) : T.run s [] = s := rfl

@[simp] theorem run_cons (s : σ) (a : α) (w : List α) : T.run s (a :: w) = T.run (T.next s a) w :=
  rfl

@[simp] theorem outputs_nil (s : σ) : T.outputs s [] = [] := rfl

@[simp] theorem outputs_cons (s : σ) (a : α) (w : List α) :
    T.outputs s (a :: w) = T.out s a ++ T.outputs (T.next s a) w := rfl

theorem run_append (s : σ) (v w : List α) : T.run s (v ++ w) = T.run (T.run s v) w :=
  List.foldl_append

theorem outputs_append (s : σ) (v w : List α) :
    T.outputs s (v ++ w) = T.outputs s v ++ T.outputs (T.run s v) w := by
  induction v generalizing s with
  | nil => rfl
  | cons a v ih => simp [ih]

/-! ### Triples -/

/-- From any state in `P` the word puts out `out` and leads into `Q`. -/
def Triple (T : Transducer σ α β) (P : σ → Prop) (w : List α) (out : List β) (Q : σ → Prop) :
    Prop :=
  ∀ s, P s → T.outputs s w = out ∧ Q (T.run s w)

namespace Triple

variable {P P' Q Q' R : σ → Prop} {v w : List α} {out out' : List β}

theorem nil (h : ∀ s, P s → Q s) : T.Triple P [] [] Q := fun s hs => ⟨rfl, h s hs⟩

theorem letter {a : α} (h : ∀ s, P s → T.out s a = out ∧ Q (T.next s a)) :
    T.Triple P [a] out Q := by
  intro s hs
  simpa using h s hs

/-- **The rule of composition.** -/
theorem append (h : T.Triple P v out Q) (h' : T.Triple Q w out' R) :
    T.Triple P (v ++ w) (out ++ out') R := by
  intro s hs
  obtain ⟨hout, hq⟩ := h s hs
  obtain ⟨hout', hr⟩ := h' _ hq
  rw [outputs_append, run_append, hout, hout']
  exact ⟨rfl, hr⟩

theorem mono (hP : ∀ s, P' s → P s) (hQ : ∀ s, Q s → Q' s) (h : T.Triple P w out Q) :
    T.Triple P' w out Q' := fun s hs => (h s (hP s hs)).imp_right (hQ _)

/-- **The scan rule.** A stretch of letters, each of which puts nothing out and
is added to the record `I` keeps of them, as long as the record satisfies `p`. -/
theorem scan {I : List α → σ → Prop} {p : List α → Prop}
    (h : ∀ u a, p (u ++ [a]) → T.Triple (I u) [a] [] (I (u ++ [a]))) (u : List α)
    (hw : ∀ v, v <+: w → p (u ++ v)) : T.Triple (I u) w [] (I (u ++ w)) := by
  induction w generalizing u with
  | nil => exact nil fun s hs => by rwa [List.append_nil]
  | cons a w ih =>
      have hfirst := h u a (hw [a] ⟨w, rfl⟩)
      have hrest := hfirst.append (ih (u ++ [a]) fun v hv => by
        rw [List.append_assoc]
        exact hw ([a] ++ v) ((List.prefix_cons_inj a).mpr hv))
      rwa [List.append_assoc] at hrest

/-- **The span rule.** The same, with a condition on the single letter. -/
theorem span {I : List α → σ → Prop} {p : α → Prop}
    (h : ∀ u a, p a → T.Triple (I u) [a] [] (I (u ++ [a]))) (u : List α) (hw : ∀ a ∈ w, p a) :
    T.Triple (I u) w [] (I (u ++ w)) := by
  induction w generalizing u with
  | nil => exact nil fun s hs => by rwa [List.append_nil]
  | cons a w ih =>
      obtain ⟨ha, hw⟩ := List.forall_mem_cons.mp hw
      have hrest := (h u a ha).append (ih (u ++ [a]) hw)
      rwa [List.append_assoc] at hrest

/-- A list of pieces, each read from one kind of state back into it. -/
theorem flatMap {ι : Type*} {render : ι → List α} {put : ι → List β} {l : List ι}
    (h : ∀ i ∈ l, T.Triple P (render i) (put i) P) :
    T.Triple P (l.flatMap render) (l.flatMap put) P := by
  induction l with
  | nil => exact nil fun s hs => hs
  | cons i l ih =>
      obtain ⟨hi, hl⟩ := List.forall_mem_cons.mp h
      exact hi.append (ih hl)

end Triple

/-! ### Two machines -/

/-- **The rule of simulation.** Machines whose letters keep a relation, one
putting out the image of what the other puts out. -/
theorem related {U : Transducer τ α γ} {R : σ → τ → Prop} {f : γ → β}
    (hnext : ∀ s t a, R s t → R (T.next s a) (U.next t a))
    (hout : ∀ s t a, R s t → T.out s a = (U.out t a).map f) {s : σ} {t : τ} (hst : R s t)
    (w : List α) : R (T.run s w) (U.run t w) ∧ T.outputs s w = (U.outputs t w).map f := by
  induction w generalizing s t with
  | nil => exact ⟨hst, rfl⟩
  | cons a w ih =>
      obtain ⟨hrun, houtputs⟩ := ih (hnext s t a hst)
      rw [outputs_cons, outputs_cons, hout s t a hst, houtputs, List.map_append]
      exact ⟨hrun, rfl⟩

/-- What every letter keeps, every word keeps. -/
theorem run_invariant {I : σ → Prop} (h : ∀ s a, I s → I (T.next s a)) {s : σ} (hs : I s)
    (w : List α) : I (T.run s w) := by
  induction w generalizing s with
  | nil => exact hs
  | cons a w ih => exact ih (h s a hs)

end Transducer

end HtmlBenchmark.Library
