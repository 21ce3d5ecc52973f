import HtmlBenchmark.Library.Linked
import HtmlBenchmark.Library.Machine
import Mathlib.Order.WellFounded

/-!
The walk over a linked tree that needs no stack.

It goes down to the first child where there is one, on to the next sibling where
there is one, and otherwise up, until it is back at the root. In a forest it
comes to the nodes of the tree below the root in document order, to each of them
once. A visit may refuse, and the walk ends there.
-/

namespace HtmlBenchmark.Library

variable {ν : Type*} {kids : ν → List ν}

/-! ### Forests -/

def Child (kids : ν → List ν) (v p : ν) : Prop := v ∈ kids p

/-- `v` is `p` or below it. -/
def Below (kids : ν → List ν) : ν → ν → Prop := Relation.ReflTransGen (Child kids)

theorem not_below_of_childless {p v : ν} (hkids : kids p = []) (hne : v ≠ p) :
    ¬Below kids v p := by
  intro hbelow
  rcases Relation.ReflTransGen.cases_tail hbelow with heq | ⟨w, -, hw⟩
  · exact hne heq.symm
  · rw [Child, hkids] at hw
    cases hw

/-- No node is below itself. -/
theorem not_below_child (hwf : WellFounded (Child kids)) {v p : ν} (h : Child kids v p) :
    ¬Below kids p v := by
  intro hbelow
  have hcycle : Relation.TransGen (Child kids) v v := Relation.TransGen.head' h hbelow
  exact hwf.transGen.irrefl.irrefl v hcycle

section Changes

variable [DecidableEq ν] {p node : ν} {pre post : List ν}

theorem mem_update_insert (hkids : kids p = pre ++ post) {v q : ν} :
    v ∈ Function.update kids p (pre ++ node :: post) q ↔ v ∈ kids q ∨ v = node ∧ q = p := by
  by_cases hq : q = p
  · subst hq
    simp only [Function.update_self, hkids, List.mem_append, List.mem_cons]
    tauto
  · simp [hq]

/-- A node that is put below a node not below it makes no cycle. -/
theorem wellFounded_insert (hwf : WellFounded (Child kids)) (hkids : kids p = pre ++ post)
    (hnode : ¬Below kids p node) :
    WellFounded (Child (Function.update kids p (pre ++ node :: post))) := by
  -- below the node nothing has changed
  have hbelow : ∀ v, Below kids v node →
      Acc (Child (Function.update kids p (pre ++ node :: post))) v := by
    intro v
    induction v using hwf.induction with
    | _ v ih =>
        intro hv
        refine ⟨_, fun w hw => ?_⟩
        rcases (mem_update_insert hkids).mp hw with hw | ⟨rfl, rfl⟩
        · exact ih w hw (Relation.ReflTransGen.head hw hv)
        · exact absurd hv hnode
  refine ⟨fun v => ?_⟩
  induction v using hwf.induction with
  | _ v ih =>
      refine ⟨_, fun w hw => ?_⟩
      rcases (mem_update_insert hkids).mp hw with hw | ⟨rfl, -⟩
      · exact ih w hw
      · exact hbelow w Relation.ReflTransGen.refl

theorem wellFounded_remove (hwf : WellFounded (Child kids)) (hkids : kids p = pre ++ node :: post) :
    WellFounded (Child (Function.update kids p (pre ++ post))) := by
  refine Subrelation.wf (fun {v q} hv => ?_) hwf
  by_cases hq : q = p
  · subst hq
    rw [Child, Function.update_self] at hv
    rw [Child, hkids]
    exact List.perm_middle.mem_iff.mpr (List.mem_cons_of_mem _ hv)
  · rwa [Child, Function.update_of_ne hq] at hv

end Changes

/-! ### The tree below a node -/

namespace OrderedTree

def root : OrderedTree ν ν → ν
  | .leaf v => v
  | .inner v _ => v

mutual

def nodes : OrderedTree ν ν → List ν
  | .leaf v => [v]
  | .inner v ts => v :: nodesAll ts

def nodesAll : List (OrderedTree ν ν) → List ν
  | [] => []
  | t :: ts => t.nodes ++ nodesAll ts

end

mutual

/-- The tree is what is below its root. -/
def Shape (kids : ν → List ν) : OrderedTree ν ν → Prop
  | .leaf v => kids v = []
  | .inner v ts => kids v = ts.map root ∧ ShapeAll kids ts

def ShapeAll (kids : ν → List ν) : List (OrderedTree ν ν) → Prop
  | [] => True
  | t :: ts => t.Shape kids ∧ ShapeAll kids ts

end

theorem nodes_of_childless {t : OrderedTree ν ν} (h : t.Shape kids) (hkids : kids t.root = []) :
    t.nodes = [t.root] := by
  cases t with
  | leaf v => rfl
  | inner v ts =>
      obtain rfl := List.map_eq_nil_iff.mp (h.1.symm.trans hkids)
      rfl

theorem exists_shapeAll {vs : List ν}
    (h : ∀ v ∈ vs, ∃ t : OrderedTree ν ν, t.root = v ∧ t.Shape kids) :
    ∃ ts : List (OrderedTree ν ν), ts.map root = vs ∧ ShapeAll kids ts := by
  induction vs with
  | nil => exact ⟨[], rfl, trivial⟩
  | cons v vs ih =>
      obtain ⟨hv, hvs⟩ := List.forall_mem_cons.mp h
      obtain ⟨t, rfl, ht⟩ := hv
      obtain ⟨ts, rfl, hts⟩ := ih hvs
      exact ⟨t :: ts, rfl, ht, hts⟩

/-- In a forest there is a tree below every node. -/
theorem exists_shape (hwf : WellFounded (Child kids)) (v : ν) :
    ∃ t : OrderedTree ν ν, t.root = v ∧ t.Shape kids := by
  induction v using hwf.induction with
  | _ v ih =>
      obtain ⟨ts, hroots, hts⟩ := exists_shapeAll ih
      exact ⟨.inner v ts, rfl, hroots.symm, hts⟩

mutual

theorem below_of_mem_nodes : ∀ {t : OrderedTree ν ν}, t.Shape kids → ∀ {v}, v ∈ t.nodes →
    Below kids v t.root
  | .leaf w, _, v, hv => by
      rw [List.mem_singleton.mp hv]
      exact Relation.ReflTransGen.refl
  | .inner w ts, hshape, v, hv => by
      rcases List.mem_cons.mp hv with rfl | hv
      · exact Relation.ReflTransGen.refl
      · obtain ⟨u, hu, hbelow⟩ := below_of_mem_nodesAll hshape.2 hv
        exact hbelow.tail (show u ∈ kids w from hshape.1 ▸ hu)

theorem below_of_mem_nodesAll : ∀ {ts : List (OrderedTree ν ν)}, ShapeAll kids ts →
    ∀ {v}, v ∈ nodesAll ts → ∃ u ∈ ts.map root, Below kids v u
  | [], _, v, hv => absurd hv List.not_mem_nil
  | t :: ts, hshape, v, hv => by
      rcases List.mem_append.mp hv with hv | hv
      · exact ⟨t.root, by simp, below_of_mem_nodes hshape.1 hv⟩
      · obtain ⟨u, hu, hbelow⟩ := below_of_mem_nodesAll hshape.2 hv
        exact ⟨u, List.mem_cons_of_mem _ hu, hbelow⟩

end

mutual

/-- Where no leaf is picked, the nodes picked are inner nodes. -/
theorem filter_nodes {P : ν → Bool} : ∀ {t : OrderedTree ν ν}, (∀ v ∈ t.fringe, P v = false) →
    t.nodes.filter P = t.labels.filter P
  | .leaf v, h => List.filter_cons_of_neg (by simp [h v List.mem_cons_self])
  | .inner v ts, h => by
      rw [nodes, labels, List.filter_cons, List.filter_cons, filter_nodesAll h]

theorem filter_nodesAll {P : ν → Bool} : ∀ {ts : List (OrderedTree ν ν)},
    (∀ v ∈ fringeAll ts, P v = false) → (nodesAll ts).filter P = (labelsAll ts).filter P
  | [], _ => rfl
  | t :: ts, h => by
      rw [nodesAll, labelsAll, List.filter_append, List.filter_append,
        filter_nodes fun v hv => h v (List.mem_append_left _ hv),
        filter_nodesAll fun v hv => h v (List.mem_append_right _ hv)]

end

theorem length_nodes_pos (t : OrderedTree ν ν) : 1 ≤ t.nodes.length := by
  cases t <;> simp [nodes]

theorem root_notMem_nodesAll (hwf : WellFounded (Child kids)) {v : ν}
    {ts : List (OrderedTree ν ν)} (hkids : kids v = ts.map root) (hts : ShapeAll kids ts) :
    v ∉ nodesAll ts := by
  intro hv
  obtain ⟨u, hu, hbelow⟩ := below_of_mem_nodesAll hts hv
  exact not_below_child hwf (show u ∈ kids v from hkids ▸ hu) hbelow

/-- The trees below two siblings have no node in common. -/
theorem not_below_siblings {l : Links ν} (h : Linked l kids) (hwf : WellFounded (Child kids))
    {p v w u : ν} (hv : Child kids v p) (hw : Child kids w p) (hne : v ≠ w)
    (huv : Below kids u v) : ¬Below kids u w := by
  intro huw
  have hunique : Relator.RightUnique (Child kids) := fun _ _ _ hp hq => h.unique hp hq
  -- one sibling below the other is below their parent, or the other way round
  have hcycle : ∀ {a b : ν}, Child kids a p → Child kids b p → a ≠ b → ¬Below kids a b := by
    intro a b ha hb hab hbelow
    rcases Relation.ReflTransGen.cases_head hbelow with heq | ⟨q, hq, hqb⟩
    · exact hab heq
    · obtain rfl : q = p := h.unique hq ha
      exact not_below_child hwf hb hqb
  rcases Relation.ReflTransGen.total_of_right_unique hunique huv huw with hvw | hwv
  · exact hcycle hv hw hne hvw
  · exact hcycle hw hv hne.symm hwv

mutual

theorem nodup_nodes {l : Links ν} (h : Linked l kids) (hwf : WellFounded (Child kids)) :
    ∀ {t : OrderedTree ν ν}, t.Shape kids → t.nodes.Nodup
  | .leaf v, _ => List.nodup_singleton v
  | .inner v ts, hshape =>
      have hkids : kids v = [] ++ ts.map root := hshape.1
      List.nodup_cons.mpr ⟨root_notMem_nodesAll hwf hshape.1 hshape.2,
        nodup_nodesAll h hwf hkids hshape.2⟩

theorem nodup_nodesAll {l : Links ν} (h : Linked l kids) (hwf : WellFounded (Child kids)) :
    ∀ {ts : List (OrderedTree ν ν)} {p : ν} {pre : List ν}, kids p = pre ++ ts.map root →
    ShapeAll kids ts → (nodesAll ts).Nodup
  | [], _, _, _, _ => List.nodup_nil
  | t :: ts, p, pre, hkids, hshape => by
      have hrest : kids p = (pre ++ [t.root]) ++ ts.map root := by rw [hkids]; simp
      refine List.nodup_append.mpr ⟨nodup_nodes h hwf hshape.1,
        nodup_nodesAll h hwf hrest hshape.2, fun u hu w hw => ?_⟩
      rintro rfl
      obtain ⟨v, hv, hbelow⟩ := below_of_mem_nodesAll hshape.2 hw
      have hne : t.root ≠ v := fun heq => by
        have hnodup := h.nodup p
        rw [hkids, List.map_cons, List.nodup_append, List.nodup_cons] at hnodup
        exact hnodup.2.1.1 (heq ▸ hv)
      refine not_below_siblings h hwf (p := p) ?_ ?_ hne (below_of_mem_nodes hshape.1 hu) hbelow
      · rw [Child, hkids]
        simp
      · rw [Child, hrest]
        exact List.mem_append_right _ hv

end

end OrderedTree

/-! ### The walk -/

/-- A walk is about to visit a node, or is done with the tree below one. -/
inductive Place (ν : Type*)
  | down (v : ν)
  | up (v : ν)

section Visits

variable {σ : Type*} (visit : σ → ν → Option σ)

/-- The visits of several nodes, or the one that is refused and what there was
before it. -/
def visitAll : σ → List ν → Except (ν × σ) σ
  | s, [] => .ok s
  | s, v :: vs =>
      match visit s v with
      | some s' => visitAll s' vs
      | none => .error (v, s)

theorem visitAll_append (s : σ) (vs ws : List ν) :
    visitAll visit s (vs ++ ws) = (visitAll visit s vs).bind (visitAll visit · ws) := by
  induction vs generalizing s with
  | nil => rfl
  | cons v vs ih =>
      rw [List.cons_append, visitAll, visitAll]
      cases visit s v with
      | none => rfl
      | some s' => exact ih s'

/-- The visits before the one refused have been made. -/
theorem visitAll_error {s s' : σ} {v : ν} {vs : List ν} (h : visitAll visit s vs = .error (v, s')) :
    ∃ pre post, vs = pre ++ v :: post ∧ visitAll visit s pre = .ok s' ∧ visit s' v = none := by
  induction vs generalizing s with
  | nil => cases h
  | cons w ws ih =>
      rw [visitAll] at h
      cases hvisit : visit s w with
      | none =>
          rw [hvisit] at h
          obtain ⟨rfl, rfl⟩ := Prod.mk.inj (Except.error.inj h)
          exact ⟨[], ws, rfl, rfl, hvisit⟩
      | some s₁ =>
          rw [hvisit] at h
          obtain ⟨pre, post, rfl, hpre, hrefused⟩ := ih h
          refine ⟨w :: pre, post, rfl, ?_, hrefused⟩
          rw [visitAll, hvisit]
          exact hpre

end Visits

section Walk

variable {σ : Type*} [DecidableEq ν]

def walk (l : Links ν) (root : ν) (visit : σ → ν → Option σ) : Machine (Place ν × σ) where
  step
    | (.down v, s) =>
        (visit s v).map fun s =>
          match l.child v with
          | some c => (.down c, s)
          | none => (.up v, s)
    | (.up v, s) =>
        if v = root then none
        else
          match l.next v with
          | some w => some (.down w, s)
          | none => (l.parent v).map fun p => (.up p, s)

/-- From before the visits to behind them, or to the one refused, in at most `b`
steps. -/
def Leads (l : Links ν) (root : ν) (visit : σ → ν → Option σ) (b : ℕ) (v : ν) (s : σ)
    (vs : List ν) (p : ν) : Prop :=
  ∃ n ≤ b, ∀ m, (walk l root visit).run (n + m) (.down v, s) =
    match visitAll visit s vs with
    | .ok s' => (walk l root visit).run m (.up p, s')
    | .error (w, s') => (.down w, s')

variable {l : Links ν} {root : ν} {visit : σ → ν → Option σ}

namespace Leads

variable {b b' : ℕ} {v w u p : ν} {s s' : σ} {vs ws : List ν}

theorem refused (h : visit s v = none) : Leads l root visit b v s (v :: vs) p := by
  have hhalted : (walk l root visit).Halted (.down v, s) := by
    simp only [Machine.Halted, walk, h, Option.map_none]
  exact ⟨0, Nat.zero_le b, fun m => by rw [Machine.run_of_halted hhalted, visitAll, h]⟩

theorem leaf (h : visit s v = some s') (hchild : l.child v = none) :
    Leads l root visit 1 v s [v] v := by
  have hstep : (walk l root visit).step (.down v, s) = some (.up v, s') := by
    simp only [walk, h, hchild, Option.map_some]
  refine ⟨1, Nat.le_refl 1, fun m => ?_⟩
  rw [Nat.add_comm, Machine.run_succ_of_step hstep, visitAll, h]
  rfl

theorem inner (h : visit s v = some s') (hchild : l.child v = some w)
    (hw : Leads l root visit b w s' vs p) : Leads l root visit (b + 1) v s (v :: vs) p := by
  have hstep : (walk l root visit).step (.down v, s) = some (.down w, s') := by
    simp only [walk, h, hchild, Option.map_some]
  obtain ⟨n, hn, hrun⟩ := hw
  refine ⟨n + 1, Nat.succ_le_succ hn, fun m => ?_⟩
  rw [Nat.add_right_comm, Machine.run_succ_of_step hstep, hrun, visitAll, h]

theorem up (hv : Leads l root visit b v s vs w) (hw : w ≠ root) (hnext : l.next w = none)
    (hparent : l.parent w = some p) : Leads l root visit (b + 1) v s vs p := by
  obtain ⟨n, hn, hrun⟩ := hv
  refine ⟨n + 1, Nat.succ_le_succ hn, fun m => ?_⟩
  rw [Nat.add_assoc, hrun]
  cases hvisits : visitAll visit s vs with
  | error refusal => rfl
  | ok s' =>
      have hstep : (walk l root visit).step (.up w, s') = some (.up p, s') := by
        simp only [walk, if_neg hw, hnext, hparent, Option.map_some]
      rw [Nat.add_comm]
      exact Machine.run_succ_of_step hstep m

theorem next (hv : Leads l root visit b v s vs w) (hw : w ≠ root) (hnext : l.next w = some u)
    (hu : ∀ s', Leads l root visit b' u s' ws p) :
    Leads l root visit (b + 1 + b') v s (vs ++ ws) p := by
  obtain ⟨n, hn, hrun⟩ := hv
  rw [Leads, visitAll_append]
  cases hvisits : visitAll visit s vs with
  | error refusal =>
      rw [hvisits] at hrun
      exact ⟨n, by omega, hrun⟩
  | ok s' =>
      rw [hvisits] at hrun
      have hstep : (walk l root visit).step (.up w, s') = some (.down u, s') := by
        simp only [walk, if_neg hw, hnext]
      obtain ⟨n', hn', hrun'⟩ := hu s'
      refine ⟨n + 1 + n', by omega, fun m => ?_⟩
      rw [Nat.add_assoc, Nat.add_assoc, hrun, Nat.add_comm 1]
      exact (Machine.run_succ_of_step hstep _).trans (hrun' m)

theorem mono (hv : Leads l root visit b v s vs p) (hb : b ≤ b') :
    Leads l root visit b' v s vs p := by
  obtain ⟨n, hn, hrun⟩ := hv
  exact ⟨n, hn.trans hb, hrun⟩

end Leads

open OrderedTree

mutual

theorem leads_tree (h : Linked l kids) : ∀ (t : OrderedTree ν ν) (s : σ), t.Shape kids →
    root ∉ t.nodes.tail →
    Leads l root visit (2 * t.nodes.length - 1) t.root s t.nodes t.root
  | .leaf v, s, hshape, _ => by
      have hchild : l.child v = none := by rw [h.child, show kids v = [] from hshape]; rfl
      cases hvisit : visit s v with
      | none => exact .refused hvisit
      | some s' => exact .leaf hvisit hchild
  | .inner v ts, s, hshape, hroot => by
      obtain ⟨hkids, hts⟩ := hshape
      have hfirst : l.child v = (ts.map OrderedTree.root).head? := by rw [h.child, hkids]
      cases hvisit : visit s v with
      | none => exact .refused hvisit
      | some s' =>
          cases hchild : l.child v with
          | none =>
              have hnone : ts = [] := by
                rwa [hfirst, List.head?_eq_none_iff, List.map_eq_nil_iff] at hchild
              subst hnone
              exact .leaf hvisit hchild
          | some w =>
              have hrest := leads_siblings h ts w s' v [] (hfirst ▸ hchild) hkids hts hroot
              refine (Leads.inner hvisit hchild hrest).mono ?_
              simp only [nodes, List.length_cons]
              omega

/-- Siblings, the last of which has none behind it. -/
theorem leads_siblings (h : Linked l kids) : ∀ (ts : List (OrderedTree ν ν)) (v : ν) (s : σ)
    (p : ν) (pre : List ν), (ts.map OrderedTree.root).head? = some v →
    kids p = pre ++ ts.map OrderedTree.root → ShapeAll kids ts → root ∉ nodesAll ts →
    Leads l root visit (2 * (nodesAll ts).length) v s (nodesAll ts) p
  | [], _, _, _, _, hv, _, _, _ => by simp at hv
  | t :: ts, v, s, p, pre, hv, hkids, hshape, hroot => by
      obtain rfl : t.root = v := by simpa using hv
      obtain ⟨hparent, hnext, -⟩ := h.neighbours hkids
      have hnotMem : root ∉ t.nodes := fun hmem => hroot (List.mem_append_left _ hmem)
      have hne : t.root ≠ root := by
        rintro rfl
        exact hnotMem (by cases t <;> exact List.mem_cons_self)
      have htree : Leads l root visit (2 * t.nodes.length - 1) t.root s t.nodes t.root :=
        leads_tree h t s hshape.1 fun hmem => hnotMem (List.mem_of_mem_tail hmem)
      have hpos := length_nodes_pos t
      rw [nodesAll, List.length_append]
      cases hsibling : l.next t.root with
      | none =>
          have hnone : ts = [] := by
            rwa [hnext, List.head?_eq_none_iff, List.map_eq_nil_iff] at hsibling
          subst hnone
          rw [nodesAll, List.append_nil]
          exact (htree.up hne hsibling hparent).mono (by omega)
      | some w =>
          have hrest : ∀ s', Leads l root visit (2 * (nodesAll ts).length) w s' (nodesAll ts) p :=
            fun s' => leads_siblings h ts w s' p (pre ++ [t.root]) (hnext ▸ hsibling)
              (by rw [hkids]; simp) hshape.2 fun hmem => hroot (List.mem_append_right _ hmem)
          exact (htree.next hne hsibling hrest).mono (by omega)

end

/-- **The walk.** In a forest it comes to the nodes of the tree below its root in
document order, and is back at the root within two steps for each of them. -/
theorem run_walk (h : Linked l kids) (hwf : WellFounded (Child kids)) {t : OrderedTree ν ν}
    (hshape : t.Shape kids) (s : σ) {n : ℕ} (hn : 2 * t.nodes.length ≤ n) :
    (walk l t.root visit).run n (.down t.root, s) =
      match visitAll visit s t.nodes with
      | .ok s' => (.up t.root, s')
      | .error (w, s') => (.down w, s') := by
  have hroot : t.root ∉ t.nodes.tail := by
    cases t with
    | leaf v => simp [nodes]
    | inner v ts => exact root_notMem_nodesAll hwf hshape.1 hshape.2
  obtain ⟨k, hk, hrun⟩ : Leads l t.root visit _ t.root s t.nodes t.root :=
    leads_tree h t s hshape hroot
  have hsplit : n = k + (n - k) := by omega
  rw [hsplit, hrun]
  cases visitAll visit s t.nodes with
  | error refusal => rfl
  | ok s' =>
      have hhalted : (walk l t.root visit).Halted (.up t.root, s') := if_pos rfl
      exact Machine.run_of_halted hhalted _

end Walk

end HtmlBenchmark.Library
