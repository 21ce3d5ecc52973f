import HtmlBenchmark.Library.Walks

/-!
The tree of MyHTML, as `tree.c` builds it.

The parser puts every node into the tree by one of three functions, and takes
nodes out to put them elsewhere. They change up to six pointers, and rely on
those of the node they put in being NULL. `NodeOp.apply` is what each of them
does to the children lists; along any run of calls the pointers keep to the lists.

The callbacks are left out: nothing here sets one. Where a function follows a
NULL pointer it has no result.
-/

namespace HtmlBenchmark.MyHtml

open Library

section Functions

variable {ν : Type*} [DecidableEq ν]

def myhtmlTreeNodeAddChild (l : Links ν) (root node : ν) : Links ν :=
  let l :=
    match l.lastChild root with
    | some last =>
        { l with
          next := Function.update l.next last (some node)
          prev := Function.update l.prev node (some last) }
    | none => { l with child := Function.update l.child root (some node) }
  { l with
    parent := Function.update l.parent node (some root)
    lastChild := Function.update l.lastChild root (some node) }

def myhtmlTreeNodeInsertBefore (l : Links ν) (root node : ν) : Option (Links ν) := do
  let l ← match l.prev root with
    | some prev =>
        some { l with
          next := Function.update l.next prev (some node)
          prev := Function.update l.prev node (some prev) }
    | none => (l.parent root).map fun p =>
        { l with child := Function.update l.child p (some node) }
  return { l with
    parent := Function.update l.parent node (l.parent root)
    next := Function.update l.next node (some root)
    prev := Function.update l.prev root (some node) }

def myhtmlTreeNodeInsertAfter (l : Links ν) (root node : ν) : Option (Links ν) := do
  let l ← match l.next root with
    | some next =>
        some { l with
          prev := Function.update l.prev next (some node)
          next := Function.update l.next node (some next) }
    | none => (l.parent root).map fun p =>
        { l with lastChild := Function.update l.lastChild p (some node) }
  return { l with
    parent := Function.update l.parent node (l.parent root)
    prev := Function.update l.prev node (some root)
    next := Function.update l.next root (some node) }

def myhtmlTreeNodeRemove (l : Links ν) (node : ν) : Links ν :=
  let l :=
    match l.next node, l.parent node with
    | some next, _ => { l with prev := Function.update l.prev next (l.prev node) }
    | none, some p => { l with lastChild := Function.update l.lastChild p (l.prev node) }
    | none, none => l
  let l :=
    match l.prev node, l.parent node with
    | some prev, _ =>
        { l with
          next := Function.update l.next prev (l.next node)
          prev := Function.update l.prev node none }
    | none, some p => { l with child := Function.update l.child p (l.next node) }
    | none, none => l
  { l with
    parent := Function.update l.parent node none
    next := if (l.next node).isSome then Function.update l.next node none else l.next }

end Functions

/-! ### One call -/

section Calls

variable {ν : Type*} [DecidableEq ν] {l : Links ν} {kids : ν → List ν} {p root node : ν}
  {pre post : List ν}

/-- The node goes behind the last child. -/
theorem myhtmlTreeNodeAddChild_eq (h : Linked l kids) (hnode : l.parent node = none) :
    myhtmlTreeNodeAddChild l root node = l.insert root (kids root) node [] := by
  obtain ⟨hnext, hprev⟩ := h.detached node hnode
  have hchild := h.child root
  have hlastChild := h.lastChild root
  simp only [myhtmlTreeNodeAddChild, hlastChild]
  cases hlast : (kids root).getLast? with
  | none =>
      rw [List.getLast?_eq_none_iff] at hlast
      ext1
      · simp [Links.insert, hlast]
      · simp [Links.insert]
      · funext v
        by_cases hv : v = node <;> simp [Links.insert, hlast, hv, hnext]
      · funext v
        by_cases hv : v = node <;> simp [Links.insert, hlast, hv, hprev]
      · rfl
  | some last =>
      have hhead : (kids root ++ [node]).head? = l.child root := by
        rw [hchild]
        exact List.head?_append_of_ne_nil _ (by rintro heq; simp [heq] at hlast)
      have hne : last ≠ node := fun heq =>
        h.notMem_of_detached hnode root (heq ▸ List.mem_of_getLast? hlast)
      ext1
      · simp only [Links.insert, hhead, Function.update_eq_self]
      · simp [Links.insert]
      · funext v
        simp only [Links.insert, hlast, Function.update_apply, Option.mem_def, Option.some.injEq]
        grind
      · funext v
        by_cases hv : v = node <;> simp [Links.insert, hlast, hv]
      · rfl

/-- The node goes before its sibling. -/
theorem myhtmlTreeNodeInsertBefore_eq (h : Linked l kids) (hkids : kids p = pre ++ root :: post)
    (hnode : l.parent node = none) : myhtmlTreeNodeInsertBefore l root node =
      some (l.insert p pre node (root :: post)) := by
  obtain ⟨hnext, hprev⟩ := h.detached node hnode
  obtain ⟨hparent, -, hbefore⟩ := h.neighbours hkids
  have hne : root ≠ node := fun heq => h.notMem_of_detached hnode p (by simp [hkids, heq])
  have hlastChild : (pre ++ node :: root :: post).getLast? = l.lastChild p := by
    rw [h.lastChild, hkids]
    simp [List.getLast?_append]
  simp only [myhtmlTreeNodeInsertBefore, hbefore, hparent]
  cases hlast : pre.getLast? with
  | none =>
      rw [List.getLast?_eq_none_iff] at hlast
      refine congrArg some ?_
      ext1
      · simp [Links.insert, hlast]
      · simp only [Links.insert, hlastChild, Function.update_eq_self]
      · funext v
        by_cases hv : v = node <;> simp [Links.insert, hlast, hv]
      · funext v
        simp only [Links.insert, hlast, Function.update_apply, Option.mem_def, List.head?_cons,
          Option.some.injEq, List.getLast?_nil]
        grind
      · simp only [Links.insert, hparent]
  | some last =>
      have hhead : (pre ++ node :: root :: post).head? = l.child p := by
        rw [h.child, hkids]
        cases pre with
        | nil => simp at hlast
        | cons => rfl
      refine congrArg some ?_
      ext1
      · simp only [Links.insert, hhead, Function.update_eq_self]
      · simp only [Links.insert, hlastChild, Function.update_eq_self]
      · funext v
        simp only [Links.insert, hlast, Function.update_apply, Option.mem_def, Option.some.injEq,
          List.head?_cons]
        grind
      · funext v
        simp only [Links.insert, hlast, Function.update_apply, Option.mem_def, List.head?_cons,
          Option.some.injEq]
        grind
      · simp only [Links.insert, hparent]

/-- The node goes behind its sibling. -/
theorem myhtmlTreeNodeInsertAfter_eq (h : Linked l kids) (hkids : kids p = pre ++ root :: post)
    (hnode : l.parent node = none) : myhtmlTreeNodeInsertAfter l root node =
      some (l.insert p (pre ++ [root]) node post) := by
  obtain ⟨hnext, hprev⟩ := h.detached node hnode
  obtain ⟨hparent, hbehind, -⟩ := h.neighbours hkids
  have hne : root ≠ node := fun heq => h.notMem_of_detached hnode p (by simp [hkids, heq])
  have hhead : (pre ++ [root] ++ node :: post).head? = l.child p := by
    rw [h.child, hkids]
    cases pre <;> rfl
  simp only [myhtmlTreeNodeInsertAfter, hbehind, hparent]
  cases hfirst : post.head? with
  | none =>
      rw [List.head?_eq_none_iff] at hfirst
      refine congrArg some ?_
      ext1
      · simp only [Links.insert, hhead, Function.update_eq_self]
      · simp [Links.insert, hfirst]
      · funext v
        simp only [Links.insert, hfirst, Function.update_apply, Option.mem_def, List.head?_nil,
          List.getLast?_append, List.getLast?_singleton, Option.some_or, Option.some.injEq]
        grind
      · funext v
        by_cases hv : v = node <;> simp [Links.insert, hfirst, hv]
      · simp only [Links.insert, hparent]
  | some first =>
      have hlastChild : (pre ++ [root] ++ node :: post).getLast? = l.lastChild p := by
        rw [h.lastChild, hkids]
        cases post with
        | nil => simp at hfirst
        | cons => simp [List.getLast?_append]
      refine congrArg some ?_
      ext1
      · simp only [Links.insert, hhead, Function.update_eq_self]
      · simp only [Links.insert, hlastChild, Function.update_eq_self]
      · funext v
        simp only [Links.insert, hfirst, Function.update_apply, Option.mem_def,
          List.getLast?_append, List.getLast?_singleton, Option.some_or, Option.some.injEq]
        grind
      · funext v
        simp only [Links.insert, hfirst, Function.update_apply, Option.mem_def,
          List.getLast?_append, List.getLast?_singleton, Option.some_or, Option.some.injEq]
        grind
      · simp only [Links.insert, hparent]

/-- The node comes out from between its siblings. -/
theorem myhtmlTreeNodeRemove_eq (h : Linked l kids) (hkids : kids p = pre ++ node :: post) :
    myhtmlTreeNodeRemove l node = l.remove p pre node post := by
  obtain ⟨hparent, hnext, hprev⟩ := h.neighbours hkids
  have hnodup : (pre ++ node :: post).Nodup := hkids ▸ h.nodup p
  obtain ⟨-, hcons, hdisjoint⟩ := List.nodup_append.mp hnodup
  have hfirstNe : ∀ first ∈ post.head?, first ≠ node := fun first hmem =>
    ne_of_mem_of_not_mem (List.mem_of_head? hmem) (List.nodup_cons.mp hcons).1
  have hlastNe : ∀ last ∈ pre.getLast?, last ≠ node := fun last hmem =>
    hdisjoint last (List.mem_of_getLast? hmem) node List.mem_cons_self
  -- the first child and the last one change only with the node at that end
  have hchild : Function.update l.child p (pre ++ post).head? =
      if pre.getLast? = none then Function.update l.child p post.head? else l.child := by
    cases pre with
    | nil => rfl
    | cons v vs =>
        have hhead : (v :: vs ++ post).head? = l.child p := by rw [h.child, hkids]; rfl
        rw [hhead, Function.update_eq_self, if_neg (by simp)]
  have hlastChild : Function.update l.lastChild p (pre ++ post).getLast? =
      if post.head? = none then Function.update l.lastChild p pre.getLast? else l.lastChild := by
    cases post with
    | nil => simp
    | cons v vs =>
        have hlast : (pre ++ v :: vs).getLast? = l.lastChild p := by
          rw [h.lastChild, hkids, List.getLast?_append, List.getLast?_append,
            List.getLast?_cons_cons]
        rw [hlast, Function.update_eq_self, if_neg (by simp)]
  cases hfirst : post.head? with
  | none =>
      rw [hfirst] at hnext
      cases hlast : pre.getLast? with
      | none =>
          rw [hlast] at hprev
          simp only [myhtmlTreeNodeRemove, Links.remove, hchild, hlastChild, hnext, hprev,
            hparent, hfirst, hlast, if_true, Option.isSome_none, Bool.false_eq_true, if_false]
          ext1
          · rfl
          · rfl
          · funext v
            by_cases hv : v = node <;> simp [hv, hnext]
          · funext v
            by_cases hv : v = node <;> simp [hv, hprev]
          · rfl
      | some last =>
          rw [hlast] at hprev
          have hne := hlastNe last hlast
          simp only [myhtmlTreeNodeRemove, Links.remove, hchild, hlastChild, hnext, hprev,
            hparent, hfirst, hlast, if_true, Function.update_of_ne hne.symm, Option.isSome_none,
            Bool.false_eq_true, if_false, reduceCtorEq]
          ext1
          · rfl
          · rfl
          · funext v
            simp only [Function.update_apply, Option.mem_def, Option.some.injEq]
            grind
          · funext v
            simp only [Function.update_apply]
            grind
          · rfl
  | some first =>
      rw [hfirst] at hnext
      have hne := hfirstNe first hfirst
      cases hlast : pre.getLast? with
      | none =>
          rw [hlast] at hprev
          simp only [myhtmlTreeNodeRemove, Links.remove, hchild, hlastChild, hnext, hprev,
            hparent, hfirst, hlast, if_true, Function.update_of_ne hne.symm, Option.isSome_some,
            if_false, reduceCtorEq]
          ext1
          · rfl
          · rfl
          · funext v
            simp only [Function.update_apply]
            grind
          · funext v
            simp only [Function.update_apply, Option.mem_def, Option.some.injEq]
            grind
          · rfl
      | some last =>
          rw [hlast] at hprev
          have hne' := hlastNe last hlast
          simp only [myhtmlTreeNodeRemove, Links.remove, hchild, hlastChild, hnext, hprev,
            hparent, hfirst, hlast, Function.update_of_ne hne.symm, Function.update_of_ne hne'.symm,
            Option.isSome_some, if_true, if_false, reduceCtorEq]
          ext1
          · rfl
          · rfl
          · funext v
            simp only [Function.update_apply, Option.mem_def, Option.some.injEq]
            grind
          · funext v
            simp only [Function.update_apply, Option.mem_def, Option.some.injEq]
            grind
          · rfl

theorem myhtmlTreeNodeRemove_of_detached (h : Linked l kids) (hnode : l.parent node = none) :
    myhtmlTreeNodeRemove l node = l := by
  obtain ⟨hnext, hprev⟩ := h.detached node hnode
  have hparent : Function.update l.parent node none = l.parent := by
    rw [← hnode, Function.update_eq_self]
  simp only [myhtmlTreeNodeRemove, hnode, hnext, hprev, hparent, Option.isSome_none,
    Bool.false_eq_true, if_false]

end Calls

/-! ### Runs of calls -/

/-- A call of one of the functions. -/
inductive NodeOp (ν : Type*)
  | addChild (root node : ν)
  | insertBefore (root node : ν)
  | insertAfter (root node : ν)
  | remove (node : ν)

/-- The pointers are those of a forest with these children lists. -/
structure IsForest {ν : Type*} (l : Links ν) (kids : ν → List ν) : Prop where
  linked : Linked l kids
  wellFounded : WellFounded (Child kids)

/-- Nodes as `myhtml_tree_node_clean` leaves them. -/
def cleaned (ν : Type*) : Links ν where
  child := fun _ => none
  lastChild := fun _ => none
  next := fun _ => none
  prev := fun _ => none
  parent := fun _ => none

theorem isForest_cleaned (ν : Type*) : IsForest (cleaned ν) fun _ => [] where
  linked :=
    { child := fun _ => rfl
      lastChild := fun _ => rfl
      thread := fun _ => trivial
      parent := fun _ _ => by simp [cleaned]
      nodup := fun _ => List.nodup_nil
      detached := fun _ _ => ⟨rfl, rfl⟩ }
  wellFounded := ⟨fun _ => ⟨_, fun _ h => absurd h List.not_mem_nil⟩⟩

namespace NodeOp

variable {ν : Type*} [DecidableEq ν] {l : Links ν} {kids : ν → List ν}

def call (l : Links ν) : NodeOp ν → Option (Links ν)
  | .addChild root node => some (myhtmlTreeNodeAddChild l root node)
  | .insertBefore root node => myhtmlTreeNodeInsertBefore l root node
  | .insertAfter root node => myhtmlTreeNodeInsertAfter l root node
  | .remove node => some (myhtmlTreeNodeRemove l node)

/-- What a call is for. -/
def apply (kids : ν → List ν) : NodeOp ν → ν → List ν
  | .addChild root node => Function.update kids root (kids root ++ [node])
  | .insertBefore root node => fun p =>
      (kids p).flatMap fun v => if v = root then [node, root] else [v]
  | .insertAfter root node => fun p =>
      (kids p).flatMap fun v => if v = root then [root, node] else [v]
  | .remove node => fun p => (kids p).filter (· ≠ node)

/-- A node is put in that is nowhere, and not below itself; a sibling is
somewhere. -/
def Admissible (kids : ν → List ν) : NodeOp ν → Prop
  | .addChild root node => (∀ p, node ∉ kids p) ∧ ¬Below kids root node
  | .insertBefore root node => (∀ p, node ∉ kids p) ∧ ∃ p, root ∈ kids p ∧ ¬Below kids p node
  | .insertAfter root node => (∀ p, node ∉ kids p) ∧ ∃ p, root ∈ kids p ∧ ¬Below kids p node
  | .remove _ => True

def AllAdmissible (kids : ν → List ν) : List (NodeOp ν) → Prop
  | [] => True
  | op :: ops => op.Admissible kids ∧ AllAdmissible (op.apply kids) ops

theorem flatMap_of_notMem {root : ν} {vs : List ν} (h : root ∉ vs) (xs : List ν) :
    (vs.flatMap fun v => if v = root then xs else [v]) = vs := by
  induction vs with
  | nil => rfl
  | cons v vs ih =>
      obtain ⟨hv, hvs⟩ := List.ne_and_not_mem_of_not_mem_cons h
      rw [List.flatMap_cons, if_neg hv.symm, ih hvs]
      rfl

/-- Around a node only the list it is in changes. -/
theorem flatMap_around (h : Linked l kids) {p root : ν} {pre post : List ν}
    (hkids : kids p = pre ++ root :: post) (xs : List ν) :
    (fun q => (kids q).flatMap fun v => if v = root then xs else [v]) =
      Function.update kids p (pre ++ xs ++ post) := by
  funext q
  by_cases hq : q = p
  · subst hq
    have hnodup := h.nodup q
    rw [hkids, List.nodup_append, List.nodup_cons] at hnodup
    have hpre : root ∉ pre := fun hmem => hnodup.2.2 root hmem root List.mem_cons_self rfl
    rw [hkids, List.flatMap_append, List.flatMap_cons, if_pos rfl, flatMap_of_notMem hpre,
      flatMap_of_notMem hnodup.2.1.1, Function.update_self, List.append_assoc]
  · have hnot : root ∉ kids q := fun hmem => hq (h.unique hmem (by simp [hkids]))
    rw [flatMap_of_notMem hnot, Function.update_of_ne hq]

theorem filter_ne (h : Linked l kids) {p node : ν} {pre post : List ν}
    (hkids : kids p = pre ++ node :: post) :
    (fun q => (kids q).filter (· ≠ node)) = Function.update kids p (pre ++ post) := by
  funext q
  by_cases hq : q = p
  · subst hq
    have hnodup := h.nodup q
    rw [hkids, List.nodup_middle, List.nodup_cons] at hnodup
    have hrest : ∀ v ∈ pre ++ post, decide (v ≠ node) = true := fun v hv =>
      decide_eq_true (ne_of_mem_of_not_mem hv hnodup.1)
    rw [Function.update_self, hkids, List.filter_append, List.filter_cons_of_neg (by simp),
      ← List.filter_append, List.filter_eq_self.mpr hrest]
  · have hnot : node ∉ kids q := fun hmem => hq (h.unique hmem (by simp [hkids]))
    rw [Function.update_of_ne hq, List.filter_eq_self.mpr fun v hv =>
      decide_eq_true (ne_of_mem_of_not_mem hv hnot)]

/-- **One call** does what it is for. -/
theorem call_isForest (h : IsForest l kids) {op : NodeOp ν} (hop : op.Admissible kids) :
    ∃ l', op.call l = some l' ∧ IsForest l' (op.apply kids) := by
  obtain ⟨hlinked, hwf⟩ := h
  cases op with
  | addChild root node =>
      obtain ⟨hnode, hbelow⟩ := hop
      have hparent := hlinked.parent_eq_none hnode
      have hkids : kids root = kids root ++ [] := (List.append_nil _).symm
      refine ⟨_, rfl, ?_, wellFounded_insert hwf hkids hbelow⟩
      rw [myhtmlTreeNodeAddChild_eq hlinked hparent]
      exact hlinked.insert hkids hparent
  | insertBefore root node =>
      obtain ⟨hnode, p, hroot, hbelow⟩ := hop
      have hparent := hlinked.parent_eq_none hnode
      obtain ⟨pre, post, hkids⟩ := List.append_of_mem hroot
      refine ⟨_, myhtmlTreeNodeInsertBefore_eq hlinked hkids hparent, ?_⟩
      have happly : (insertBefore root node).apply kids =
          Function.update kids p (pre ++ node :: root :: post) := by
        rw [apply, flatMap_around hlinked hkids]
        simp
      rw [happly]
      exact ⟨hlinked.insert hkids hparent, wellFounded_insert hwf hkids hbelow⟩
  | insertAfter root node =>
      obtain ⟨hnode, p, hroot, hbelow⟩ := hop
      have hparent := hlinked.parent_eq_none hnode
      obtain ⟨pre, post, hkids⟩ := List.append_of_mem hroot
      have hkids' : kids p = (pre ++ [root]) ++ post := by rw [hkids]; simp
      refine ⟨_, myhtmlTreeNodeInsertAfter_eq hlinked hkids hparent, ?_⟩
      have happly : (insertAfter root node).apply kids =
          Function.update kids p (pre ++ [root] ++ node :: post) := by
        rw [apply, flatMap_around hlinked hkids]
        simp
      rw [happly]
      exact ⟨hlinked.insert hkids' hparent, wellFounded_insert hwf hkids' hbelow⟩
  | remove node =>
      refine ⟨_, rfl, ?_⟩
      cases hparent : l.parent node with
      | none =>
          have happly : (remove node).apply kids = kids := by
            funext q
            exact List.filter_eq_self.mpr fun v hv => decide_eq_true
              (ne_of_mem_of_not_mem hv (hlinked.notMem_of_detached hparent q))
          rw [happly, myhtmlTreeNodeRemove_of_detached hlinked hparent]
          exact ⟨hlinked, hwf⟩
      | some p =>
          obtain ⟨pre, post, hkids⟩ := List.append_of_mem ((hlinked.parent p node).mp hparent)
          rw [apply, filter_ne hlinked hkids, myhtmlTreeNodeRemove_eq hlinked hkids]
          exact ⟨hlinked.remove hkids, wellFounded_remove hwf hkids⟩

/-- **A run of calls.** The pointers stay those of the forest that the calls are
for. -/
theorem foldlM_call (h : IsForest l kids) {ops : List (NodeOp ν)} (hops : AllAdmissible kids ops) :
    ∃ l', ops.foldlM call l = some l' ∧ IsForest l' (ops.foldl apply kids) := by
  induction ops generalizing l kids with
  | nil => exact ⟨l, rfl, h⟩
  | cons op ops ih =>
      obtain ⟨l', hcall, hforest⟩ := call_isForest h hops.1
      obtain ⟨l'', hrun, hforest'⟩ := ih hforest hops.2
      refine ⟨l'', ?_, hforest'⟩
      rw [List.foldlM_cons, hcall]
      exact hrun

end NodeOp

end HtmlBenchmark.MyHtml
