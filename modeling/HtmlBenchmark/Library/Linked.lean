import HtmlBenchmark.Library.Tree
import Mathlib.Data.List.Nodup
import Mathlib.Logic.Function.Basic
import Mathlib.Logic.Relation

/-!
Ordered trees made of pointers.

A node points to its first and its last child, to the siblings next to it and to
its parent. What the pointers mean is the list of the children of every node,
`kids`; `Linked` says that they mean it. To put a detached node between two
siblings, or to take one out, changes one of the lists, and the pointers at the
place of the change follow. A store built in this way is a forest as long as no
node is put below itself.
-/

namespace HtmlBenchmark.Library

variable {ν : Type*}

/-- The pointers of a store of nodes. -/
@[ext]
structure Links (ν : Type*) where
  child : ν → Option ν
  lastChild : ν → Option ν
  next : ν → Option ν
  prev : ν → Option ν
  parent : ν → Option ν

/-- Between `before` and `after` the nodes of the list point to each other. -/
def Thread (l : Links ν) : Option ν → List ν → Option ν → Prop
  | _, [], _ => True
  | before, v :: vs, after =>
      l.prev v = before ∧ l.next v = vs.head?.or after ∧ Thread l (some v) vs after

/-- The pointers are those of the children lists. -/
structure Linked (l : Links ν) (kids : ν → List ν) : Prop where
  child : ∀ p, l.child p = (kids p).head?
  lastChild : ∀ p, l.lastChild p = (kids p).getLast?
  thread : ∀ p, Thread l none (kids p) none
  parent : ∀ p v, l.parent v = some p ↔ v ∈ kids p
  nodup : ∀ p, (kids p).Nodup
  detached : ∀ v, l.parent v = none → l.next v = none ∧ l.prev v = none

/-! ### Threads -/

section Threads

variable {l l' : Links ν} {before after : Option ν}

theorem thread_append {xs ys : List ν} : Thread l before (xs ++ ys) after ↔
    Thread l before xs (ys.head?.or after) ∧ Thread l (xs.getLast?.or before) ys after := by
  induction xs generalizing before with
  | nil => simp [Thread]
  | cons x xs ih =>
      have hhead : (xs ++ ys).head?.or after = xs.head?.or (ys.head?.or after) := by
        cases xs <;> simp
      have hlast : (x :: xs).getLast?.or before = xs.getLast?.or (some x) := by
        rw [List.getLast?_cons]
        cases xs.getLast? <;> rfl
      rw [List.cons_append, Thread, Thread, ih, hhead, hlast]
      tauto

theorem Thread.congr {xs : List ν} (h : Thread l before xs after)
    (hsame : ∀ v ∈ xs, l'.prev v = l.prev v ∧ l'.next v = l.next v) :
    Thread l' before xs after := by
  induction xs generalizing before with
  | nil => trivial
  | cons x xs ih =>
      obtain ⟨hx, hxs⟩ := List.forall_mem_cons.mp hsame
      exact ⟨hx.1.trans h.1, hx.2.trans h.2.1, ih h.2.2 hxs⟩

/-- Another node behind the last one. -/
theorem Thread.changeAfter {after' : Option ν} {xs : List ν} (h : Thread l before xs after)
    (hnodup : xs.Nodup) (hprev : ∀ v ∈ xs, l'.prev v = l.prev v)
    (hlast : ∀ v ∈ xs.getLast?, l'.next v = after')
    (hnext : ∀ v ∈ xs, v ∉ xs.getLast? → l'.next v = l.next v) : Thread l' before xs after' := by
  rcases List.eq_nil_or_concat xs with rfl | ⟨ys, y, rfl⟩
  · trivial
  · rw [List.concat_eq_append] at *
    obtain ⟨hys, hy⟩ := thread_append.mp h
    refine thread_append.mpr ⟨hys.congr fun v hv => ?_, ?_, ?_, trivial⟩
    · have hne : v ≠ y := fun heq =>
        (List.nodup_append.mp hnodup).2.2 v hv y (List.mem_singleton_self y) heq
      exact ⟨hprev v (List.mem_append_left _ hv), hnext v (List.mem_append_left _ hv) (by
        simpa using hne.symm)⟩
    · exact (hprev y (by simp)).trans hy.1
    · simpa using hlast y (by simp)

/-- Another node before the first one. -/
theorem Thread.changeBefore {before' : Option ν} {xs : List ν} (h : Thread l before xs after)
    (hnodup : xs.Nodup) (hnext : ∀ v ∈ xs, l'.next v = l.next v)
    (hfirst : ∀ v ∈ xs.head?, l'.prev v = before')
    (hprev : ∀ v ∈ xs, v ∉ xs.head? → l'.prev v = l.prev v) : Thread l' before' xs after := by
  cases xs with
  | nil => trivial
  | cons x xs =>
      refine ⟨hfirst x rfl, (hnext x List.mem_cons_self).trans h.2.1, h.2.2.congr fun v hv => ?_⟩
      have hne : x ≠ v := fun heq => (List.nodup_cons.mp hnodup).1 (heq ▸ hv)
      exact ⟨hprev v (List.mem_cons_of_mem _ hv) (by simpa using hne),
        hnext v (List.mem_cons_of_mem _ hv)⟩

end Threads

namespace Linked

variable {l : Links ν} {kids : ν → List ν}

theorem unique (h : Linked l kids) {p q v : ν} (hp : v ∈ kids p) (hq : v ∈ kids q) : p = q :=
  Option.some.inj (((h.parent p v).mpr hp).symm.trans ((h.parent q v).mpr hq))

theorem notMem_of_detached (h : Linked l kids) {v : ν} (hv : l.parent v = none) (p : ν) :
    v ∉ kids p := fun hmem => by
  rw [(h.parent p v).mpr hmem] at hv
  cases hv

theorem parent_eq_none (h : Linked l kids) {v : ν} (hv : ∀ p, v ∉ kids p) : l.parent v = none := by
  cases hparent : l.parent v with
  | none => rfl
  | some p => exact absurd ((h.parent p v).mp hparent) (hv p)

/-- The neighbours of a node among the children. -/
theorem neighbours (h : Linked l kids) {p v : ν} {pre post : List ν}
    (hkids : kids p = pre ++ v :: post) :
    l.parent v = some p ∧ l.next v = post.head? ∧ l.prev v = pre.getLast? := by
  have hthread := h.thread p
  rw [hkids, thread_append] at hthread
  obtain ⟨-, hprev, hnext, -⟩ := hthread
  exact ⟨(h.parent p v).mpr (by simp [hkids]), by simpa using hnext, by simpa using hprev⟩

end Linked

/-! ### Putting in and taking out -/

section Changes

variable [DecidableEq ν]

/-- The pointers with `node` put below `p`, between `pre` and `post`. -/
def Links.insert (l : Links ν) (p : ν) (pre : List ν) (node : ν) (post : List ν) : Links ν where
  child := Function.update l.child p (pre ++ node :: post).head?
  lastChild := Function.update l.lastChild p (pre ++ node :: post).getLast?
  next := fun v =>
    if v = node then post.head? else if v ∈ pre.getLast? then some node else l.next v
  prev := fun v =>
    if v = node then pre.getLast? else if v ∈ post.head? then some node else l.prev v
  parent := Function.update l.parent node (some p)

/-- The pointers with `node` taken out from below `p`, from between `pre` and
`post`. -/
def Links.remove (l : Links ν) (p : ν) (pre : List ν) (node : ν) (post : List ν) : Links ν where
  child := Function.update l.child p (pre ++ post).head?
  lastChild := Function.update l.lastChild p (pre ++ post).getLast?
  next := fun v =>
    if v = node then none else if v ∈ pre.getLast? then post.head? else l.next v
  prev := fun v =>
    if v = node then none else if v ∈ post.head? then pre.getLast? else l.prev v
  parent := Function.update l.parent node none

section Fields

variable (l : Links ν) {p node v : ν} {pre post : List ν}

theorem next_insert (hnode : v ≠ node) (hlast : v ∉ pre.getLast?) :
    (l.insert p pre node post).next v = l.next v := by
  simp only [Links.insert, if_neg hnode, if_neg hlast]

theorem prev_insert (hnode : v ≠ node) (hfirst : v ∉ post.head?) :
    (l.insert p pre node post).prev v = l.prev v := by
  simp only [Links.insert, if_neg hnode, if_neg hfirst]

theorem next_remove (hnode : v ≠ node) (hlast : v ∉ pre.getLast?) :
    (l.remove p pre node post).next v = l.next v := by
  simp only [Links.remove, if_neg hnode, if_neg hlast]

theorem prev_remove (hnode : v ≠ node) (hfirst : v ∉ post.head?) :
    (l.remove p pre node post).prev v = l.prev v := by
  simp only [Links.remove, if_neg hnode, if_neg hfirst]

end Fields

variable {l : Links ν} {kids : ν → List ν} {p node : ν} {pre post : List ν}

theorem thread_insert (h : Thread l none (pre ++ post) none) (hnodup : (pre ++ post).Nodup)
    (hnode : node ∉ pre ++ post) :
    Thread (l.insert p pre node post) none (pre ++ node :: post) none := by
  obtain ⟨hpre, hpost, hdisjoint⟩ := List.nodup_append.mp hnodup
  obtain ⟨hnotPre, hnotPost⟩ := not_or.mp (List.mem_append.not.mp hnode)
  obtain ⟨hbefore, hbehind⟩ := thread_append.mp h
  refine thread_append.mpr ⟨?_, by simp [Links.insert], by simp [Links.insert], ?_⟩
  · refine hbefore.changeAfter hpre (fun v hv => ?_) (fun v hv => ?_) fun v hv hlast => ?_
    · exact prev_insert l (ne_of_mem_of_not_mem hv hnotPre) fun hmem =>
        hdisjoint v hv v (List.mem_of_head? hmem) rfl
    · have hne : v ≠ node := ne_of_mem_of_not_mem (List.mem_of_getLast? hv) hnotPre
      simp only [Links.insert, if_neg hne, if_pos hv]
      rfl
    · exact next_insert l (ne_of_mem_of_not_mem hv hnotPre) hlast
  · refine hbehind.changeBefore hpost (fun v hv => ?_) (fun v hv => ?_) fun v hv hfirst => ?_
    · exact next_insert l (ne_of_mem_of_not_mem hv hnotPost) fun hmem =>
        hdisjoint v (List.mem_of_getLast? hmem) v hv rfl
    · have hne : v ≠ node := ne_of_mem_of_not_mem (List.mem_of_head? hv) hnotPost
      simp only [Links.insert, if_neg hne, if_pos hv]
    · exact prev_insert l (ne_of_mem_of_not_mem hv hnotPost) hfirst

theorem thread_remove (h : Thread l none (pre ++ node :: post) none)
    (hnodup : (pre ++ node :: post).Nodup) :
    Thread (l.remove p pre node post) none (pre ++ post) none := by
  obtain ⟨hpre, hcons, hdisjoint⟩ := List.nodup_append.mp hnodup
  obtain ⟨hnotPost, hpost⟩ := List.nodup_cons.mp hcons
  have hnotPre : node ∉ pre := fun hmem => hdisjoint node hmem node List.mem_cons_self rfl
  obtain ⟨hbefore, -, -, hbehind⟩ := thread_append.mp h
  refine thread_append.mpr ⟨?_, ?_⟩
  · refine hbefore.changeAfter hpre (fun v hv => ?_) (fun v hv => ?_) fun v hv hlast => ?_
    · exact prev_remove l (ne_of_mem_of_not_mem hv hnotPre) fun hmem =>
        hdisjoint v hv v (List.mem_cons_of_mem _ (List.mem_of_head? hmem)) rfl
    · have hne : v ≠ node := ne_of_mem_of_not_mem (List.mem_of_getLast? hv) hnotPre
      simp only [Links.remove, if_neg hne, if_pos hv]
      simp
    · exact next_remove l (ne_of_mem_of_not_mem hv hnotPre) hlast
  · refine hbehind.changeBefore hpost (fun v hv => ?_) (fun v hv => ?_) fun v hv hfirst => ?_
    · exact next_remove l (ne_of_mem_of_not_mem hv hnotPost) fun hmem =>
        hdisjoint v (List.mem_of_getLast? hmem) v (List.mem_cons_of_mem _ hv) rfl
    · have hne : v ≠ node := ne_of_mem_of_not_mem (List.mem_of_head? hv) hnotPost
      simp only [Links.remove, if_neg hne, if_pos hv]
      simp
    · exact prev_remove l (ne_of_mem_of_not_mem hv hnotPost) hfirst

namespace Linked

theorem update {l' : Links ν} {vs : List ν} (h : Linked l kids)
    (hchild : l'.child = Function.update l.child p vs.head?)
    (hlastChild : l'.lastChild = Function.update l.lastChild p vs.getLast?)
    (hthread : Thread l' none vs none) (hnodup : vs.Nodup)
    (hothers : ∀ q ≠ p, ∀ v ∈ kids q, l'.prev v = l.prev v ∧ l'.next v = l.next v)
    (hparent : ∀ q v, l'.parent v = some q ↔ v ∈ Function.update kids p vs q)
    (hdetached : ∀ v, l'.parent v = none → l'.next v = none ∧ l'.prev v = none) :
    Linked l' (Function.update kids p vs) := by
  refine ⟨fun q => ?_, fun q => ?_, fun q => ?_, hparent, fun q => ?_, hdetached⟩
  all_goals
    by_cases hq : q = p
    · subst hq
      simp only [hchild, hlastChild, Function.update_self, hthread, hnodup]
  · simp only [hchild, Function.update_of_ne hq, h.child]
  · simp only [hlastChild, Function.update_of_ne hq, h.lastChild]
  · simp only [Function.update_of_ne hq]
    exact (h.thread q).congr (hothers q hq)
  · simp only [Function.update_of_ne hq, h.nodup]

theorem insert (h : Linked l kids) (hkids : kids p = pre ++ post) (hnode : l.parent node = none) :
    Linked (l.insert p pre node post) (Function.update kids p (pre ++ node :: post)) := by
  have hnotMem := h.notMem_of_detached hnode
  have hnode' : node ∉ pre ++ post := hkids ▸ hnotMem p
  have hnodup : (pre ++ post).Nodup := hkids ▸ h.nodup p
  refine h.update rfl rfl (thread_insert (hkids ▸ h.thread p) hnodup hnode') ?_ ?_ ?_ ?_
  · exact List.nodup_middle.mpr (List.nodup_cons.mpr ⟨hnode', hnodup⟩)
  · intro q hq v hv
    have hne : v ≠ node := ne_of_mem_of_not_mem hv (hnotMem q)
    have hother : v ∉ pre ++ post := fun hmem => hq (h.unique hv (hkids ▸ hmem))
    rw [List.mem_append, not_or] at hother
    exact ⟨prev_insert l hne fun hmem => hother.2 (List.mem_of_head? hmem),
      next_insert l hne fun hmem => hother.1 (List.mem_of_getLast? hmem)⟩
  · intro q v
    by_cases hv : v = node
    · subst hv
      by_cases hq : q = p
      · simp [Links.insert, hq]
      · simp [Links.insert, hq, hnotMem q, Ne.symm hq]
    · by_cases hq : q = p
      · simp [Links.insert, hv, hq, h.parent, hkids]
      · simp [Links.insert, hv, hq, h.parent]
  · intro v hv
    have hne : v ≠ node := fun heq => by simp [Links.insert, heq] at hv
    have hparent : l.parent v = none := by simpa [Links.insert, hne] using hv
    have hother : v ∉ pre ++ post := hkids ▸ h.notMem_of_detached hparent p
    rw [List.mem_append, not_or] at hother
    rw [next_insert l hne fun hmem => hother.1 (List.mem_of_getLast? hmem),
      prev_insert l hne fun hmem => hother.2 (List.mem_of_head? hmem)]
    exact h.detached v hparent

theorem remove (h : Linked l kids) (hkids : kids p = pre ++ node :: post) :
    Linked (l.remove p pre node post) (Function.update kids p (pre ++ post)) := by
  have hnodup : (pre ++ node :: post).Nodup := hkids ▸ h.nodup p
  obtain ⟨hnotMem, hnodup'⟩ := List.nodup_cons.mp (List.nodup_middle.mp hnodup)
  have hout : ∀ v, v ∉ pre ++ post → v ≠ node →
      (l.remove p pre node post).next v = l.next v ∧
        (l.remove p pre node post).prev v = l.prev v := by
    intro v hv hne
    rw [List.mem_append, not_or] at hv
    exact ⟨next_remove l hne fun hmem => hv.1 (List.mem_of_getLast? hmem),
      prev_remove l hne fun hmem => hv.2 (List.mem_of_head? hmem)⟩
  have houtside : ∀ v, v ∉ pre ++ node :: post → v ∉ pre ++ post := fun v hv hmem =>
    hv (List.perm_middle.mem_iff.mpr (List.mem_cons_of_mem _ hmem))
  refine h.update rfl rfl (thread_remove (hkids ▸ h.thread p) hnodup) hnodup' ?_ ?_ ?_
  · intro q hq v hv
    have hother : v ∉ pre ++ node :: post := fun hmem => hq (h.unique hv (hkids ▸ hmem))
    have hne : v ≠ node := fun heq => hother (by simp [heq])
    obtain ⟨hnext, hprev⟩ := hout v (houtside v hother) hne
    exact ⟨hprev, hnext⟩
  · intro q v
    by_cases hv : v = node
    · subst hv
      by_cases hq : q = p
      · simpa [Links.remove, hq] using hnotMem
      · have hnot : v ∉ kids q := fun hmem => hq (h.unique hmem (by simp [hkids]))
        simp [Links.remove, hq, hnot]
    · by_cases hq : q = p
      · simp [Links.remove, hv, hq, h.parent, hkids]
      · simp [Links.remove, hv, hq, h.parent]
  · intro v hv
    by_cases hne : v = node
    · simp [Links.remove, hne]
    · have hparent : l.parent v = none := by simpa [Links.remove, hne] using hv
      have hother : v ∉ pre ++ node :: post := hkids ▸ h.notMem_of_detached hparent p
      obtain ⟨hnext, hprev⟩ := hout v (houtside v hother) hne
      rw [hnext, hprev]
      exact h.detached v hparent

end Linked

end Changes

end HtmlBenchmark.Library
