import HtmlBenchmark.MyHtml.Adapter
import HtmlBenchmark.MyHtml.Nodes

/-!
The collections of MyHTML.

`myhtml_get_nodes_by_tag_id` walks the tree from the element `html` on and
appends every node of a tag to a list of pointers. Before each entry, and once
more at the end for the NULL behind the last one, the list is made longer where
it has to be; if that fails the collection is returned as it is. A collection
always has a place for one more entry, so that nothing is written outside.
-/

namespace HtmlBenchmark.MyHtml

open Library

/-- `myhtml_tag_id_t`, as far as the adapter tells tags apart. -/
inductive MyhtmlTag
  | MyHTML_TAG__TEXT | MyHTML_TAG__COMMENT | MyHTML_TAG_A | MyHTML_TAG_IMG | other
  deriving DecidableEq, Repr

/-- `myhtml_collection_t` -/
structure Collection (ν : Type*) where
  list : List ν
  size : ℕ
  room : list.length < size

/-- The fields of `myhtml_tree_t` and of its nodes that are read here; an
attribute is its key. -/
structure Tree (ν : Type*) where
  links : Links ν
  tagId : ν → MyhtmlTag
  token : ν → Option (List CString)
  nodeHtml : Option ν

/-- What `myhtml_get_nodes_by_tag_id` returns: NULL, or a collection together
with whether its end is marked by a NULL. -/
inductive Returned (ν : Type*)
  | null
  | collection (c : Collection ν) (terminated : Bool)

section Functions

variable {ν : Type*}

/-- `myhtml_collection_create`; `mallocs` says whether both blocks are allocated. -/
def myhtmlCollectionCreate (mallocs : Bool) (size : ℕ) (h : 0 < size) : Option (Collection ν) :=
  if mallocs then some { list := [], size := size, room := h } else none

/-- `myhtml_collection_check_size`; `reallocs` says for which numbers of entries
`realloc` succeeds. -/
def myhtmlCollectionCheckSize (reallocs : ℕ → Bool) (c : Collection ν) (need uptoLength : ℕ) :
    Option { c' : Collection ν // c'.list = c.list ∧ c.list.length + need < c'.size } :=
  if h : c.size ≤ c.list.length + need then
    let tmpSize := c.list.length + need + uptoLength + 1
    if reallocs tmpSize then
      some ⟨{ list := c.list, size := tmpSize, room := by omega }, rfl,
        by simp only [tmpSize]; omega⟩
    else none
  else some ⟨c, rfl, by omega⟩

/-- The body of the loop before it goes on to another node. -/
def collect (reallocs : ℕ → Bool) (tagId : ν → MyhtmlTag) (tag : MyhtmlTag) (c : Collection ν)
    (node : ν) : Option (Collection ν) :=
  if tagId node = tag then
    (myhtmlCollectionCheckSize reallocs c 1 1024).map fun c' =>
      { list := c'.1.list ++ [node]
        size := c'.1.size
        room := by
          have := c'.2.2
          rw [List.length_append, List.length_singleton, c'.2.1]
          exact this }
  else some c

def terminate (reallocs : ℕ → Bool) (c : Collection ν) : Returned ν :=
  match myhtmlCollectionCheckSize reallocs c 1 1024 with
  | some c' => .collection c'.1 true
  | none => .collection c false

/-- `myhtml_get_nodes_by_tag_id`, with as many steps for the loops as `rounds`;
there is no result where they do not come to an end. -/
def myhtmlGetNodesByTagId [DecidableEq ν] (mallocs : Bool) (reallocs : ℕ → Bool) (rounds : ℕ)
    (tree : Tree ν) (collection : Option (Collection ν)) (tag : MyhtmlTag) :
    Option (Returned ν) :=
  match collection.or (myhtmlCollectionCreate mallocs 1024 (by decide)) with
  | none => some .null
  | some c =>
      match tree.nodeHtml with
      | none => some (terminate reallocs c)
      | some html =>
          match (walk tree.links html (collect reallocs tree.tagId tag)).run rounds
              (.down html, c) with
          | (.up node, c) => if node = html then some (terminate reallocs c) else none
          | (.down node, c) =>
              -- the list could not be made longer for this node
              if (collect reallocs tree.tagId tag c node).isNone then some (.collection c false)
              else none

def myhtmlTokenAttrByName (attrs : List CString) (name : CString) : Option CString :=
  attrs.find? fun key => key.bytes.length = name.bytes.length && strcmp key name

/-- `myhtml_attribute_by_key`; an element may be without a token. -/
def myhtmlAttributeByKey (tree : Tree ν) (node : ν) (key : CString) : Option CString :=
  (tree.token node).bind fun attrs => myhtmlTokenAttrByName attrs key

/-- The part of `test_myhtml` that counts the links and the images of the tree;
there is no result where a collection is NULL. -/
def countCollections [DecidableEq ν] (reallocs : ℕ → Bool) (rounds : ℕ) (tree : Tree ν)
    (result : TestResult) : Option TestResult :=
  let attributeByKey node := fun key => (myhtmlAttributeByKey tree node key).isSome
  match myhtmlGetNodesByTagId true reallocs rounds tree none .MyHTML_TAG_A with
  | some (.collection links _) =>
      let result := links.list.foldl (fun r node => countLink r (attributeByKey node)) result
      match myhtmlGetNodesByTagId true reallocs rounds tree none .MyHTML_TAG_IMG with
      | some (.collection images _) =>
          some (images.list.foldl (fun r node => countImage r (attributeByKey node)) result)
      | _ => none
  | _ => none

end Functions

/-! ### The collection -/

section Collecting

variable {ν : Type*} {reallocs : ℕ → Bool} {tagId : ν → MyhtmlTag} {tag : MyhtmlTag}
  {c c' : Collection ν}

theorem list_collect {node : ν} (h : collect reallocs tagId tag c node = some c') :
    c'.list = c.list ++ [node].filter (tagId · = tag) := by
  rw [collect] at h
  split_ifs at h with htag
  · obtain ⟨checked, -, rfl⟩ := Option.map_eq_some_iff.mp h
    simp [htag, checked.2.1]
  · obtain rfl := Option.some.inj h
    simp [htag]

theorem terminate_eq (reallocs : ℕ → Bool) (c : Collection ν) :
    ∃ c' terminated, terminate reallocs c = .collection c' terminated ∧ c'.list = c.list := by
  rw [terminate]
  cases hcheck : myhtmlCollectionCheckSize reallocs c 1 1024 with
  | some c' => exact ⟨c'.1, true, rfl, c'.2.1⟩
  | none => exact ⟨c, false, rfl, rfl⟩

/-- The nodes visited are in the list as far as they have the tag. -/
theorem visitAll_collect {nodes : List ν} {c c' : Collection ν}
    (h : visitAll (collect reallocs tagId tag) c nodes = .ok c') :
    c'.list = c.list ++ nodes.filter (tagId · = tag) := by
  induction nodes generalizing c with
  | nil =>
      obtain rfl : c = c' := Except.ok.inj h
      simp
  | cons node nodes ih =>
      rw [visitAll] at h
      cases hnode : collect reallocs tagId tag c node with
      | none => simp [hnode] at h
      | some c₁ =>
          rw [hnode] at h
          rw [ih h, list_collect hnode, List.append_assoc, ← List.filter_append,
            List.singleton_append]

/-- A list made longer `k` times, by 1025 entries each and when it had to be. -/
structure Grown (reallocs : ℕ → Bool) (c : Collection ν) (k : ℕ) : Prop where
  size : c.size = 1024 + 1025 * k
  granted : ∀ j, 1 ≤ j → j ≤ k → reallocs (1024 + 1025 * j) = true
  needed : 1025 * k ≤ c.list.length + 2

theorem grown_create (reallocs : ℕ → Bool) :
    Grown reallocs ({ list := [], size := 1024, room := Nat.zero_lt_succ _ } : Collection ν) 0 :=
  ⟨rfl, fun j hj hle => by omega, Nat.zero_le _⟩

theorem Grown.checkSize {k : ℕ} (h : Grown reallocs c k) :
    match myhtmlCollectionCheckSize reallocs c 1 1024 with
    | some c' => ∃ k', Grown reallocs c'.1 k'
    | none => c.list.length + 2 = 1025 * (k + 1) ∧ reallocs (1024 + 1025 * (k + 1)) = false := by
  have hsize := h.size
  have hroom := c.room
  rw [myhtmlCollectionCheckSize]
  split_ifs with hfull
  · have hlength : c.list.length + 2 = 1025 * (k + 1) := by omega
    have htmp : c.list.length + 1 + 1024 + 1 = 1024 + 1025 * (k + 1) := by omega
    dsimp only
    by_cases hgranted : reallocs (c.list.length + 1 + 1024 + 1) = true
    · simp only [hgranted, if_true]
      refine ⟨k + 1, htmp, fun j hj hle => ?_, by dsimp only; omega⟩
      by_cases heq : j = k + 1
      · rw [heq, ← htmp, hgranted]
      · exact h.granted j hj (by omega)
    · simp only [hgranted]
      exact ⟨hlength, by rw [← htmp]; simpa using hgranted⟩
  · exact ⟨k, h⟩

theorem Grown.collect {k : ℕ} (h : Grown reallocs c k) (tagId : ν → MyhtmlTag) (tag : MyhtmlTag)
    (node : ν) :
    match collect reallocs tagId tag c node with
    | some c' => ∃ k', Grown reallocs c' k'
    | none => tagId node = tag ∧
        c.list.length + 2 = 1025 * (k + 1) ∧ reallocs (1024 + 1025 * (k + 1)) = false := by
  have hcheck := h.checkSize
  rw [MyHtml.collect]
  split_ifs with htag
  · cases hchecked : myhtmlCollectionCheckSize reallocs c 1 1024 with
    | none =>
        rw [hchecked] at hcheck
        exact ⟨htag, hcheck⟩
    | some c' =>
        rw [hchecked] at hcheck
        obtain ⟨k', hgrown⟩ := hcheck
        have hneeded := hgrown.needed
        exact ⟨k', hgrown.size, hgrown.granted, by simp only [List.length_append]; omega⟩
  · exact ⟨k, h⟩

theorem Grown.visitAll {nodes : List ν} {k : ℕ} (h : Grown reallocs c k)
    (hvisits : visitAll (MyHtml.collect reallocs tagId tag) c nodes = .ok c') :
    ∃ k', Grown reallocs c' k' := by
  induction nodes generalizing c k with
  | nil => exact ⟨k, Except.ok.inj hvisits ▸ h⟩
  | cons node nodes ih =>
      have hcollect := h.collect tagId tag node
      rw [Library.visitAll] at hvisits
      cases hnode : MyHtml.collect reallocs tagId tag c node with
      | none => simp [hnode] at hvisits
      | some c₁ =>
          rw [hnode] at hvisits hcollect
          obtain ⟨k₁, h₁⟩ := hcollect
          exact ih h₁ hvisits

/-- The reallocations for so many entries and an end mark: each makes the list 1025
entries longer. -/
def Grants (reallocs : ℕ → Bool) (n : ℕ) : Prop :=
  ∀ k, 1 ≤ k → 1025 * k ≤ n + 2 → reallocs (1024 + 1025 * k) = true

theorem Grown.not_grants {k n : ℕ} (hlength : c.list.length + 2 = 1025 * (k + 1))
    (hrefused : reallocs (1024 + 1025 * (k + 1)) = false) (hn : c.list.length ≤ n) :
    ¬Grants reallocs n := by
  intro hgrants
  have hgranted := hgrants (k + 1) (by omega) (by omega)
  rw [hrefused] at hgranted
  cases hgranted

/-- The end is marked if the reallocations are made that it takes. -/
theorem Grown.terminate {k : ℕ} (h : Grown reallocs c k) {c' : Collection ν} {terminated : Bool}
    (hterminate : terminate reallocs c = .collection c' terminated) :
    terminated = true ↔ Grants reallocs c.list.length := by
  have hcheck := h.checkSize
  rw [MyHtml.terminate] at hterminate
  cases hchecked : myhtmlCollectionCheckSize reallocs c 1 1024 with
  | none =>
      rw [hchecked] at hterminate hcheck
      obtain ⟨-, rfl⟩ := Returned.collection.inj hterminate
      exact iff_of_false Bool.false_ne_true
        (Grown.not_grants hcheck.1 hcheck.2 (Nat.le_refl _))
  | some checked =>
      rw [hchecked] at hterminate hcheck
      obtain ⟨k', hgrown⟩ := hcheck
      obtain ⟨-, rfl⟩ := Returned.collection.inj hterminate
      refine iff_of_true rfl fun j hj hneeded => hgrown.granted j hj ?_
      have hsize := hgrown.size
      have hroom := checked.2.2
      omega

end Collecting

/-- **The collection.** With enough steps the walk ends, whichever allocations
fail: the nodes of the tag below `html` are appended in document order, all of
them if the end is marked, and otherwise the first ones. A list that has grown as
its functions make it grow gets its end mark if every reallocation is made. -/
theorem myhtmlGetNodesByTagId_eq {ν : Type*} [DecidableEq ν] {kids : ν → List ν} {tree : Tree ν}
    (h : IsForest tree.links kids) {t : OrderedTree ν ν} (hshape : t.Shape kids)
    (hhtml : tree.nodeHtml = some t.root) (reallocs : ℕ → Bool) (c : Collection ν)
    (tag : MyhtmlTag) {rounds : ℕ} (hrounds : 2 * t.nodes.length ≤ rounds) (mallocs : Bool) :
    ∃ c' terminated found,
      myhtmlGetNodesByTagId mallocs reallocs rounds tree (some c) tag =
        some (.collection c' terminated) ∧
      c'.list = c.list ++ found ∧ found <+: t.nodes.filter (tree.tagId · = tag) ∧
      (terminated = true → found = t.nodes.filter (tree.tagId · = tag)) ∧
      ∀ k, Grown reallocs c k → (terminated = true ↔ Grants reallocs
        (c.list.length + (t.nodes.filter (tree.tagId · = tag)).length)) := by
  have hrun : (walk tree.links t.root (collect reallocs tree.tagId tag)).run rounds
      (.down t.root, c) = _ := run_walk h.linked h.wellFounded hshape c hrounds
  simp only [myhtmlGetNodesByTagId, Option.some_or, hhtml, hrun]
  cases hvisits : visitAll (collect reallocs tree.tagId tag) c t.nodes with
  | ok c₁ =>
      obtain ⟨c', terminated, hterminate, hlist⟩ := terminate_eq reallocs c₁
      refine ⟨c', terminated, t.nodes.filter (tree.tagId · = tag), ?_, ?_, List.prefix_rfl,
        fun _ => rfl, fun k hgrown => ?_⟩
      · simp only [if_true, hterminate]
      · rw [hlist, visitAll_collect hvisits]
      · obtain ⟨k', hgrown'⟩ := hgrown.visitAll hvisits
        rw [hgrown'.terminate hterminate, visitAll_collect hvisits, List.length_append]
  | error refusal =>
      obtain ⟨node, c₁⟩ := refusal
      obtain ⟨pre, post, hnodes, hpre, hrefused⟩ := visitAll_error _ hvisits
      refine ⟨c₁, false, pre.filter (tree.tagId · = tag), ?_, visitAll_collect hpre, ?_, ?_,
        fun k hgrown => ?_⟩
      · simp only [hrefused, Option.isNone_none, if_true]
      · rw [hnodes, List.filter_append]
        exact List.prefix_append _ _
      · exact fun hterminated => absurd hterminated Bool.false_ne_true
      · obtain ⟨k', hgrown'⟩ := hgrown.visitAll hpre
        have hcollect := hgrown'.collect tree.tagId tag node
        rw [hrefused] at hcollect
        have hlength := congrArg List.length (visitAll_collect hpre)
        refine iff_of_false Bool.false_ne_true
          (Grown.not_grants hcollect.2.1 hcollect.2.2 ?_)
        rw [hlength, hnodes, List.length_append, List.filter_append, List.length_append]
        omega

/-- **From the calls to the collection.** Whatever the calls that have built the
tree, the nodes of a tag are collected in document order, and none of them twice.
The end is marked if and only if the reallocations are made that so many nodes
take; otherwise the first of them have been collected. -/
theorem myhtmlGetNodesByTagId_run {ν : Type*} [DecidableEq ν] {ops : List (NodeOp ν)}
    (hops : NodeOp.AllAdmissible (fun _ => []) ops) :
    ∃ l, ops.foldlM NodeOp.call (cleaned ν) = some l ∧
      ∀ (tree : Tree ν) (html : ν), tree.links = l → tree.nodeHtml = some html →
        ∃ t : OrderedTree ν ν, t.root = html ∧ t.Shape (ops.foldl NodeOp.apply fun _ => []) ∧
          t.nodes.Nodup ∧
          ∀ (reallocs : ℕ → Bool) (tag : MyhtmlTag) (rounds : ℕ), 2 * t.nodes.length ≤ rounds →
            ∃ c terminated, myhtmlGetNodesByTagId true reallocs rounds tree none tag =
                some (.collection c terminated) ∧
              c.list <+: t.nodes.filter (tree.tagId · = tag) ∧
              (terminated = true → c.list = t.nodes.filter (tree.tagId · = tag)) ∧
              (terminated = true ↔
                Grants reallocs (t.nodes.filter (tree.tagId · = tag)).length) := by
  obtain ⟨l, hrun, hforest⟩ := NodeOp.foldlM_call (isForest_cleaned ν) hops
  refine ⟨l, hrun, fun tree html hlinks hhtml => ?_⟩
  obtain ⟨t, rfl, hshape⟩ := OrderedTree.exists_shape hforest.wellFounded html
  refine ⟨t, rfl, hshape, OrderedTree.nodup_nodes hforest.linked hforest.wellFounded hshape, ?_⟩
  intro reallocs tag rounds hrounds
  subst hlinks
  obtain ⟨c, terminated, found, hcollected, hlist, hprefix, hfound, hgrown⟩ :=
    myhtmlGetNodesByTagId_eq hforest hshape hhtml reallocs
      { list := [], size := 1024, room := Nat.zero_lt_succ _ } tag hrounds true
  have hgrants := hgrown 0 (grown_create reallocs)
  rw [List.length_nil, Nat.zero_add] at hgrants
  rw [List.nil_append] at hlist
  exact ⟨c, terminated, hcollected, hlist ▸ hprefix, fun h => hlist.trans (hfound h), hgrants⟩

/-- A node with a child, and a node put before that one. -/
def twoChildren : List (NodeOp ℕ) := [.addChild 0 1, .insertBefore 1 2]

theorem allAdmissible_twoChildren : NodeOp.AllAdmissible (fun _ => []) twoChildren := by
  refine ⟨⟨fun p => List.not_mem_nil, not_below_of_childless rfl (by decide)⟩, ⟨fun p => ?_, ?_⟩,
    trivial⟩
  · by_cases hp : p = 0 <;> simp [NodeOp.apply, hp]
  · exact ⟨0, by simp [NodeOp.apply], not_below_of_childless rfl (by decide)⟩

/-- They are collected, and need no reallocation. -/
theorem myhtmlGetNodesByTagId_twoChildren :
    ∃ l, twoChildren.foldlM NodeOp.call (cleaned ℕ) = some l ∧ l.child 0 = some 2 ∧
      l.next 2 = some 1 ∧
      ∀ tree : Tree ℕ, tree.links = l → tree.nodeHtml = some 0 →
        (tree.tagId = fun node => if node = 0 then .other else .MyHTML_TAG_A) →
        ∃ c, myhtmlGetNodesByTagId true (fun _ => false) 6 tree none .MyHTML_TAG_A =
          some (.collection c true) ∧ c.list = [2, 1] := by
  obtain ⟨l, hrun, hcollections⟩ := myhtmlGetNodesByTagId_run allAdmissible_twoChildren
  refine ⟨l, hrun, ?_, ?_, fun tree hlinks hhtml htags => ?_⟩
  · obtain rfl := Option.some.inj hrun
    rfl
  · obtain rfl := Option.some.inj hrun
    rfl
  · obtain ⟨t, hroot, hshape, -, hcollected⟩ := hcollections tree 0 hlinks hhtml
    have hnodes : t.nodes = [0, 2, 1] := by
      have hkids : (twoChildren.foldl NodeOp.apply fun _ => []) 0 = [2, 1] := rfl
      cases t with
      | leaf v =>
          obtain rfl : v = 0 := hroot
          exact absurd (hkids.symm.trans hshape) (List.cons_ne_nil _ _)
      | inner v ts =>
          obtain rfl : v = 0 := hroot
          obtain ⟨hroots, hshapes⟩ := hshape
          rw [hkids] at hroots
          obtain ⟨t₁, ts, rfl, hroot₁, hroots⟩ := List.map_eq_cons_iff.mp hroots.symm
          obtain ⟨t₂, ts, rfl, hroot₂, hroots⟩ := List.map_eq_cons_iff.mp hroots
          obtain rfl := List.map_eq_nil_iff.mp hroots
          rw [OrderedTree.nodes, OrderedTree.nodesAll, OrderedTree.nodesAll, OrderedTree.nodesAll,
            OrderedTree.nodes_of_childless hshapes.1 (by rw [hroot₁]; rfl), hroot₁,
            OrderedTree.nodes_of_childless hshapes.2.1 (by rw [hroot₂]; rfl), hroot₂]
          rfl
    obtain ⟨c, terminated, hc, -, hall, hgrants⟩ :=
      hcollected (fun _ => false) .MyHTML_TAG_A 6 (by rw [hnodes]; decide)
    have hfilter : t.nodes.filter (tree.tagId · = .MyHTML_TAG_A) = [2, 1] := by
      rw [hnodes, htags]
      decide
    rw [hfilter] at hall hgrants
    obtain rfl : terminated = true := hgrants.mpr fun k hk hneeded => by
      simp only [List.length_cons, List.length_nil] at hneeded
      omega
    exact ⟨c, hc, hall rfl⟩

end HtmlBenchmark.MyHtml
