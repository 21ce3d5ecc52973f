import HtmlBenchmark.Gumbo.Adapter
import Mathlib.Data.Int.Notation
import Mathlib.Data.List.InsertIdx
import Mathlib.Data.List.Nodup

/-!
The places of nodes in the tree gumbo builds, as in `gumbo-parser/parser.c`.

A node has a pointer to its parent and its index among the parent's children,
which the foster parenting of misnested tables goes by. `append_node`,
`insert_node` and `remove_from_parent` keep the two, and count the siblings behind
the place anew. An assertion that does not hold has no result.

The tree builder moves children in two more ways, which are left out. A
`frameset` takes the body away and counts nothing anew, so that two siblings may
then have one index; and step 16 of the adoption agency exchanges the children of
two nodes.
-/

namespace HtmlBenchmark.Gumbo

/-- The fields of nodes that say where they are. A leaf has no type here. -/
structure NodeTree (ν : Type*) where
  type : ν → Option GumboElementType
  children : ν → List ν
  parent : ν → Option ν
  indexWithinParent : ν → ℤ

namespace NodeTree

variable {ν : Type*} [DecidableEq ν]

/-- The loop over the siblings from the `i`th on, for so many rounds. -/
def countAnew (children : List ν) : ℕ → ℕ → (ν → ℤ) → ν → ℤ
  | _, 0, index => index
  | i, rounds + 1, index =>
      match children[i]? with
      | some sibling => countAnew children (i + 1) rounds (Function.update index sibling i)
      | none => index

def appendNode (parent node : ν) (t : NodeTree ν) : Option (NodeTree ν) :=
  if t.parent node = none ∧ t.indexWithinParent node = -1 ∧ (t.type parent).isSome then
    some { t with
      parent := Function.update t.parent node (some parent)
      indexWithinParent :=
        Function.update t.indexWithinParent node ((t.children parent).length : ℤ)
      children := Function.update t.children parent (t.children parent ++ [node]) }
  else none

/-- `insert_node`, at an `InsertionLocation` -/
def insertNode (node target : ν) (index : ℤ) (t : NodeTree ν) : Option (NodeTree ν) :=
  if t.parent node = none ∧ t.indexWithinParent node = -1 then
    if index ≠ -1 then
      -- a document has no children here, so that the index is never below their number
      if (t.type target).isSome ∧ (t.type target = some .document → t.children target = []) ∧
          0 ≤ index ∧ index < (t.children target).length then
        let place := index.toNat
        let children := (t.children target).insertIdx place node
        some { t with
          parent := Function.update t.parent node (some target)
          indexWithinParent := countAnew children (place + 1) (children.length - (place + 1))
            (Function.update t.indexWithinParent node index)
          children := Function.update t.children target children }
      else none
    else t.appendNode target node
  else none

def removeFromParent (node : ν) (t : NodeTree ν) : Option (NodeTree ν) :=
  match t.parent node with
  | none => some t
  | some parent =>
      -- the assertion on the type fails for the children of a template
      if t.type parent = some .element ∧ node ∈ t.children parent then
        let place := (t.children parent).idxOf node
        let children := (t.children parent).eraseIdx place
        some { t with
          parent := Function.update t.parent node none
          indexWithinParent := countAnew children place (children.length - place)
            (Function.update t.indexWithinParent node (-1))
          children := Function.update t.children parent children }
      else none

/-! ### Counting anew -/

variable {children : List ν} {index : ν → ℤ} {v : ν} {i j rounds : ℕ}

theorem countAnew_of_notMem (h : ∀ j, i ≤ j → children[j]? ≠ some v) :
    countAnew children i rounds index v = index v := by
  induction rounds generalizing i index with
  | zero => rfl
  | succ rounds ih =>
      rw [countAnew]
      cases hsibling : children[i]? with
      | none => rfl
      | some sibling =>
          have hne : v ≠ sibling := by
            rintro rfl
            exact h i (Nat.le_refl i) hsibling
          dsimp only
          rw [ih fun j hj => h j (by omega), Function.update_of_ne hne]

/-- A child behind the place is told its place. -/
theorem countAnew_of_getElem? (hnodup : children.Nodup) (hj : children[j]? = some v)
    (hi : i ≤ j) (hrounds : j < i + rounds) : countAnew children i rounds index v = j := by
  induction rounds generalizing i index with
  | zero => omega
  | succ rounds ih =>
      have hlength := (List.getElem?_eq_some_iff.mp hj).1
      rw [countAnew, List.getElem?_eq_getElem (by omega)]
      dsimp only
      by_cases heq : i = j
      · subst heq
        have hv : children[i] = v := (List.getElem?_eq_some_iff.mp hj).2
        rw [hv, countAnew_of_notMem, Function.update_self]
        intro k hk hkv
        have := (List.getElem?_inj hlength hnodup).mp (hj.trans hkv.symm)
        omega
      · exact ih (by omega) (by omega)

/-! ### The places -/

/-- Every node is where its two fields say. -/
structure Sound (t : NodeTree ν) : Prop where
  place : ∀ {v p : ν} {i : ℕ}, (t.children p)[i]? = some v →
    t.parent v = some p ∧ t.indexWithinParent v = i
  listed : ∀ {v p : ν}, t.parent v = some p → v ∈ t.children p
  detached : ∀ {v : ν}, t.parent v = none → t.indexWithinParent v = -1

variable {t t' : NodeTree ν} {node p target : ν}

omit [DecidableEq ν] in
theorem Sound.parent_of_mem (h : Sound t) (hmem : v ∈ t.children p) : t.parent v = some p := by
  obtain ⟨i, hi⟩ := List.mem_iff_getElem?.mp hmem
  exact (h.place hi).1

omit [DecidableEq ν] in
theorem Sound.nodup (h : Sound t) (p : ν) : (t.children p).Nodup := by
  rw [List.nodup_iff_getElem?_ne_getElem?]
  intro i j hij hj heq
  have hget := List.getElem?_eq_getElem hj
  have hi := (h.place (heq.trans hget)).2
  have hj := (h.place hget).2
  omega

/-- New children of one node, which are its own or have been detached. -/
theorem Sound.update (h : Sound t) {new : List ν} {parent : ν → Option ν} {index : ν → ℤ}
    (hnew : ∀ {v}, v ∈ new → t.parent v = none ∨ t.parent v = some target)
    (hplace : ∀ {v : ν} {i : ℕ}, new[i]? = some v → parent v = some target ∧ index v = i)
    (hgone : ∀ {v}, v ∉ new → t.parent v = some target → parent v = none ∧ index v = -1)
    (hother : ∀ {v}, v ∉ new → t.parent v ≠ some target →
      parent v = t.parent v ∧ index v = t.indexWithinParent v) :
    Sound { t with
      parent := parent
      indexWithinParent := index
      children := Function.update t.children target new } := by
  have hmem : ∀ {v}, v ∈ new → parent v = some target := by
    intro v hv
    obtain ⟨i, hi⟩ := List.mem_iff_getElem?.mp hv
    exact (hplace hi).1
  refine ⟨fun {v p i} hi => ?_, fun {v p} hp => ?_, fun {v} hv => ?_⟩
  · dsimp only at hi ⊢
    by_cases heq : p = target
    · subst heq
      rw [Function.update_self] at hi
      exact hplace hi
    · rw [Function.update_of_ne heq] at hi
      obtain ⟨hparent, hindex⟩ := h.place hi
      have hne : t.parent v ≠ some target := by
        rw [hparent]
        exact fun hsome => heq (Option.some.inj hsome)
      have hnot : v ∉ new := by
        intro hv
        rcases hnew hv with hnone | hsome
        · rw [hparent] at hnone
          exact Option.some_ne_none _ hnone
        · exact hne hsome
      obtain ⟨hparent', hindex'⟩ := hother hnot hne
      exact ⟨hparent'.trans hparent, hindex'.trans hindex⟩
  · dsimp only at hp ⊢
    by_cases hv : v ∈ new
    · obtain rfl : target = p := Option.some.inj ((hmem hv).symm.trans hp)
      rwa [Function.update_self]
    · by_cases hparent : t.parent v = some target
      · rw [(hgone hv hparent).1] at hp
        exact absurd hp.symm (Option.some_ne_none _)
      · rw [(hother hv hparent).1] at hp
        rw [Function.update_of_ne (fun heq => hparent (hp.trans (congrArg some heq)))]
        exact h.listed hp
  · dsimp only at hv ⊢
    have hnot : v ∉ new := fun hmem' => Option.some_ne_none _ ((hmem hmem').symm.trans hv)
    by_cases hparent : t.parent v = some target
    · exact (hgone hnot hparent).2
    · obtain ⟨hparent', hindex'⟩ := hother hnot hparent
      rw [hindex']
      exact h.detached (hparent' ▸ hv)

/-- A detached node comes in at a place, and those behind it are counted anew. -/
theorem Sound.insert (h : Sound t) (hnode : t.parent node = none) {place : ℕ}
    (hplace : place ≤ (t.children target).length) {new : List ν}
    (heq : new = (t.children target).insertIdx place node) :
    Sound { t with
      parent := Function.update t.parent node (some target)
      indexWithinParent := countAnew new (place + 1) (new.length - (place + 1))
        (Function.update t.indexWithinParent node place)
      children := Function.update t.children target new } := by
  have hperm : new.Perm (node :: t.children target) := heq ▸ List.perm_insertIdx _ _ hplace
  have hfresh : node ∉ t.children target := by
    intro hmem
    rw [h.parent_of_mem hmem] at hnode
    exact Option.some_ne_none _ hnode
  have hnodup : new.Nodup := hperm.nodup_iff.mpr (List.nodup_cons.mpr ⟨hfresh, h.nodup target⟩)
  have hmem : ∀ {v}, v ∈ new ↔ v = node ∨ v ∈ t.children target := by
    intro v
    rw [hperm.mem_iff, List.mem_cons]
  refine h.update (fun {v} hv => ?_) (fun {v i} hi => ?_) (fun {v} hv hparent => ?_)
    (fun {v} hv _ => ?_)
  · rcases hmem.mp hv with rfl | hv
    · exact .inl hnode
    · exact .inr (h.parent_of_mem hv)
  · constructor
    · rcases hmem.mp (List.mem_of_getElem? hi) with rfl | hv
      · exact Function.update_self _ _ _
      · have hne : v ≠ node := by
          rintro rfl
          exact hfresh hv
        rw [Function.update_of_ne hne]
        exact h.parent_of_mem hv
    · have hlength := (List.getElem?_eq_some_iff.mp hi).1
      by_cases hbehind : place < i
      · exact countAnew_of_getElem? hnodup hi hbehind (by omega)
      · rw [countAnew_of_notMem]
        · rw [heq, List.getElem?_insertIdx] at hi
          split_ifs at hi with hless hat
          · have hv : v ≠ node := fun hvn => hfresh (hvn ▸ List.mem_of_getElem? hi)
            rw [Function.update_of_ne hv]
            exact (h.place hi).2
          · obtain rfl : node = v := Option.some.inj hi
            rw [Function.update_self, hat]
          · omega
        · intro j hj hjv
          have := (List.getElem?_inj hlength hnodup).mp (hi.trans hjv.symm)
          omega
  · exact absurd (hmem.mpr (.inr (h.listed hparent))) hv
  · have hne : v ≠ node := fun hvn => hv (hmem.mpr (.inl hvn))
    rw [Function.update_of_ne hne, countAnew_of_notMem, Function.update_of_ne hne]
    · exact ⟨rfl, rfl⟩
    · exact fun j _ hj => hv (List.mem_of_getElem? hj)

theorem Sound.appendNode (h : Sound t) (happend : t.appendNode p node = some t') : Sound t' := by
  rw [NodeTree.appendNode] at happend
  split_ifs at happend with hassert
  obtain rfl := Option.some.inj happend
  have hinsert := h.insert hassert.1 (Nat.le_refl (t.children p).length)
    List.insertIdx_length_self.symm
  simpa [countAnew] using hinsert

theorem Sound.insertNode (h : Sound t) {index : ℤ}
    (hinsert : t.insertNode node target index = some t') : Sound t' := by
  rw [NodeTree.insertNode] at hinsert
  split_ifs at hinsert with hnode hindex hassert
  · obtain rfl := Option.some.inj hinsert
    obtain ⟨place, rfl⟩ := Int.eq_ofNat_of_zero_le hassert.2.2.1
    exact h.insert hnode.1 (by omega) rfl
  · exact h.appendNode hinsert

theorem Sound.removeFromParent (h : Sound t) (hremove : t.removeFromParent node = some t') :
    Sound t' := by
  rw [NodeTree.removeFromParent] at hremove
  split at hremove
  · exact Option.some.inj hremove ▸ h
  · rename_i parent hparent
    split_ifs at hremove with hassert
    obtain rfl := Option.some.inj hremove
    generalize hnew : (t.children parent).eraseIdx ((t.children parent).idxOf node) = new
    have hnodup : new.Nodup := hnew ▸ (h.nodup parent).sublist (List.eraseIdx_sublist _ _)
    have hmem : ∀ {v}, v ∈ new ↔ v ≠ node ∧ v ∈ t.children parent := by
      intro v
      rw [← hnew, ← List.erase_eq_eraseIdx_of_idxOf rfl, (h.nodup parent).mem_erase_iff]
    have hgone : node ∉ new := fun hv => (hmem.mp hv).1 rfl
    refine h.update (fun {v} hv => .inr (h.parent_of_mem (hmem.mp hv).2)) (fun {v i} hi => ?_)
      (fun {v} hv hvparent => ?_) (fun {v} hv hvparent => ?_)
    · obtain ⟨hne, hv⟩ := hmem.mp (List.mem_of_getElem? hi)
      refine ⟨by rw [Function.update_of_ne hne, h.parent_of_mem hv], ?_⟩
      have hlength := (List.getElem?_eq_some_iff.mp hi).1
      by_cases hbehind : (t.children parent).idxOf node ≤ i
      · exact countAnew_of_getElem? hnodup hi hbehind (by omega)
      · rw [countAnew_of_notMem, Function.update_of_ne hne]
        · rw [← hnew, List.getElem?_eraseIdx_of_lt (by omega)] at hi
          exact (h.place hi).2
        · intro j hj hjv
          have := (List.getElem?_inj hlength hnodup).mp (hi.trans hjv.symm)
          omega
    · obtain rfl : v = node := by
        by_contra hne
        exact hv (hmem.mpr ⟨hne, h.listed hvparent⟩)
      rw [Function.update_self, countAnew_of_notMem, Function.update_self]
      · exact ⟨rfl, rfl⟩
      · exact fun j _ hj => hgone (List.mem_of_getElem? hj)
    · have hne : v ≠ node := fun hvn => hvparent (hvn ▸ hparent)
      rw [Function.update_of_ne hne, countAnew_of_notMem, Function.update_of_ne hne]
      · exact ⟨rfl, rfl⟩
      · exact fun j _ hj => hv (List.mem_of_getElem? hj)

/-! ### Any run of the three functions -/

inductive Op (ν : Type*)
  | appendNode (parent node : ν)
  | insertNode (node target : ν) (index : ℤ)
  | removeFromParent (node : ν)

def Op.apply (t : NodeTree ν) : Op ν → Option (NodeTree ν)
  | .appendNode parent node => t.appendNode parent node
  | .insertNode node target index => t.insertNode node target index
  | .removeFromParent node => t.removeFromParent node

/-- Nodes as `create_node` makes them. -/
def detached (type : ν → Option GumboElementType) : NodeTree ν where
  type := type
  children _ := []
  parent _ := none
  indexWithinParent _ := -1

theorem Sound.apply (h : Sound t) {op : Op ν} (hop : op.apply t = some t') : Sound t' := by
  cases op with
  | appendNode parent node => exact h.appendNode hop
  | insertNode node target index => exact h.insertNode hop
  | removeFromParent node => exact h.removeFromParent hop

omit [DecidableEq ν] in
theorem sound_detached (type : ν → Option GumboElementType) : Sound (detached type) :=
  ⟨fun hi => by simp [detached] at hi, fun hp => absurd hp.symm (Option.some_ne_none _),
    fun _ => rfl⟩

theorem Sound.foldlM (h : Sound t) {ops : List (Op ν)} (hops : ops.foldlM Op.apply t = some t') :
    Sound t' := by
  induction ops generalizing t with
  | nil => exact Option.some.inj hops ▸ h
  | cons op ops ih =>
      obtain ⟨t₁, hop, hrest⟩ := Option.bind_eq_some_iff.mp hops
      exact ih (h.apply hop) hrest

/-- **Places.** Whatever nodes `append_node`, `insert_node` and `remove_from_parent`
are called for, as long as no assertion fails a node has a parent and an index if
and only if it is that parent's child there, and a node without a parent has the
index -1. -/
theorem place_iff_of_foldlM {type : ν → Option GumboElementType} {ops : List (Op ν)}
    (hops : ops.foldlM Op.apply (detached type) = some t) (v : ν) :
    (∀ (p : ν) (i : ℕ), t.parent v = some p ∧ t.indexWithinParent v = i ↔
      (t.children p)[i]? = some v) ∧
    (t.parent v = none → t.indexWithinParent v = -1) := by
  have h := (sound_detached type).foldlM hops
  refine ⟨fun p i => ⟨fun ⟨hparent, hindex⟩ => ?_, h.place⟩, h.detached⟩
  obtain ⟨j, hj⟩ := List.mem_iff_getElem?.mp (h.listed hparent)
  obtain rfl : j = i := Int.ofNat.inj ((h.place hj).2.symm.trans hindex)
  exact hj

/-- A table is moved down by what is foster parented in front of it. -/
theorem place_fosterParented :
    ∃ t : NodeTree ℕ, [Op.appendNode 0 1, .appendNode 0 2, .insertNode 3 0 1].foldlM Op.apply
        (detached fun _ => some .element) = some t ∧
      t.parent 2 = some 0 ∧ t.indexWithinParent 2 = (2 : ℕ) := by
  obtain ⟨t, ht⟩ : ∃ t : NodeTree ℕ, [Op.appendNode 0 1, .appendNode 0 2,
      .insertNode 3 0 1].foldlM Op.apply (detached fun _ => some .element) = some t := ⟨_, rfl⟩
  have hchildren : t.children 0 = [1, 3, 2] := by
    cases ht
    rfl
  refine ⟨t, ht, ((place_iff_of_foldlM ht 2).1 0 2).mpr ?_⟩
  rw [hchildren]
  rfl

end NodeTree

end HtmlBenchmark.Gumbo
