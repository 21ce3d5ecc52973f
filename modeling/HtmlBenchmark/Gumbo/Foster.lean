import HtmlBenchmark.Gumbo.Formatting
import HtmlBenchmark.Gumbo.Places

/-!
Where gumbo inserts a node, as in `gumbo-parser/parser.c`.

A node goes to the end of the current one. What a table does not take goes in
front of the table instead, to the place the fields of the table name. That these
are right is what keeps the assertions of `insert_node`.
-/

namespace HtmlBenchmark.Gumbo

/-- `InsertionLocation`; the index -1 is the end. -/
structure InsertionLocation (ν : Type*) where
  target : ν
  index : ℤ

/-- What of the parser a location depends on. -/
structure Insertions (ν : Type*) where
  tree : NodeTree ν
  tagNamespace : ν → GumboNamespace
  tag : ν → TagEnum
  document : ν
  root : Option ν
  openElements : List ν
  fosterParentInsertions : Bool

namespace Insertions

variable {ν : Type*}

/-- `node_tag_in_set`, for a set of HTML tags -/
def nodeTagInSet (s : Insertions ν) (node : ν) (tags : List TagEnum) : Bool :=
  (s.tree.type node = some .element || s.tree.type node = some .template) &&
    s.tagNamespace node = .html && tags.contains (s.tag node)

def nodeHtmlTagIs (s : Insertions ν) (node : ν) (tag : TagEnum) : Bool :=
  s.nodeTagInSet node [tag]

/-- The loop over the open elements, for one of its two tags. -/
def lastIndexOf (s : Insertions ν) (tag : TagEnum) : List ν → ℕ → ℤ → ℤ
  | [], _, last => last
  | node :: nodes, i, last =>
      lastIndexOf s tag nodes (i + 1) (if s.nodeHtmlTagIs node tag then i else last)

/-- An open element, and its end. -/
def endOf (s : Insertions ν) (i : ℕ) : Option (InsertionLocation ν) :=
  s.openElements[i]?.map fun target => { target := target, index := -1 }

/-- In front of the table at that place, or at the end of what it was opened in. -/
def beforeTable (s : Insertions ν) (i : ℕ) : Option (InsertionLocation ν) :=
  match s.openElements[i]? with
  | none => none
  | some lastTable =>
      match s.tree.parent lastTable with
      | some parent => some { target := parent, index := s.tree.indexWithinParent lastTable }
      | none => if i = 0 then none else s.endOf (i - 1)

/-- `get_appropriate_insertion_location`, in the case of foster parenting -/
def fosterLocation (s : Insertions ν) : Option (InsertionLocation ν) :=
  let lastTemplateIndex := s.lastIndexOf .template s.openElements 0 (-1)
  let lastTableIndex := s.lastIndexOf .table s.openElements 0 (-1)
  if lastTemplateIndex ≠ -1 ∧ (lastTableIndex = -1 ∨ lastTemplateIndex > lastTableIndex) then
    s.endOf lastTemplateIndex.toNat
  else if lastTableIndex = -1 then s.endOf 0
  else s.beforeTable lastTableIndex.toNat

/-- `get_appropriate_insertion_location`, at the target that is the given one, the
current node or the document -/
def locationAt (s : Insertions ν) (target : ν) : Option (InsertionLocation ν) :=
  if !s.fosterParentInsertions || !s.nodeTagInSet target [.table, .tbody, .tfoot, .thead, .tr] then
    some { target := target, index := -1 }
  else s.fosterLocation

/-- `get_appropriate_insertion_location`; there is a current node if there is a root. -/
def getAppropriateInsertionLocation (s : Insertions ν) (overrideTarget : Option ν) :
    Option (InsertionLocation ν) :=
  match overrideTarget with
  | some target => s.locationAt target
  | none =>
      if s.root.isSome then s.openElements.getLast?.bind s.locationAt
      else s.locationAt s.document

/-- What the tree builder sees to: the open elements are elements and begin with
`html`, and a table is in an element. -/
structure WellFormed (s : Insertions ν) : Prop where
  sound : s.tree.Sound
  opened : ∀ node ∈ s.openElements, (s.tree.type node).isSome
  current : s.root.isSome → s.openElements ≠ []
  first : ∀ node ∈ s.openElements.head?, s.nodeHtmlTagIs node .table = false
  document : s.tree.type s.document = some .document
  inElement : ∀ {node parent}, s.tree.parent node = some parent →
    s.nodeHtmlTagIs node .table → ∃ type ≠ .document, s.tree.type parent = some type

variable {s : Insertions ν} {node : ν}

theorem lastIndexOf_spec (s : Insertions ν) (tag : TagEnum) (nodes : List ν) (i : ℕ) (last : ℤ) :
    s.lastIndexOf tag nodes i last = last ∨ ∃ j node, nodes[j]? = some node ∧
      s.lastIndexOf tag nodes i last = (i + j : ℕ) ∧ s.nodeHtmlTagIs node tag = true := by
  induction nodes generalizing i last with
  | nil => exact .inl rfl
  | cons node nodes ih =>
      rw [lastIndexOf]
      rcases ih (i + 1) (if s.nodeHtmlTagIs node tag then (i : ℤ) else last) with
        h | ⟨j, node', hj, hlast, htag⟩
      · rw [h]
        split_ifs with htag
        · exact .inr ⟨0, node, rfl, rfl, htag⟩
        · exact .inl rfl
      · refine .inr ⟨j + 1, node', hj, ?_, htag⟩
        rw [hlast]
        omega

/-- The place of an open element with the tag, if there is one. -/
theorem lastIndexOf_open (s : Insertions ν) (tag : TagEnum) :
    s.lastIndexOf tag s.openElements 0 (-1) = -1 ∨ ∃ (j : ℕ) (node : ν),
      s.openElements[j]? = some node ∧ s.lastIndexOf tag s.openElements 0 (-1) = j ∧
        s.nodeHtmlTagIs node tag = true := by
  rcases s.lastIndexOf_spec tag s.openElements 0 (-1) with h | ⟨j, node, hj, hlast, htag⟩
  · exact .inl h
  · exact .inr ⟨j, node, hj, by rw [hlast, Nat.zero_add], htag⟩

variable [DecidableEq ν]

/-- A location at which a node without a parent can be inserted. -/
def Fits (s : Insertions ν) (location : Option (InsertionLocation ν)) : Prop :=
  ∃ found, location = some found ∧ ∀ node, s.tree.parent node = none →
    (s.tree.insertNode node found.target found.index).isSome

theorem WellFormed.fits_end (h : WellFormed s) {target : ν}
    (htarget : (s.tree.type target).isSome) :
    s.Fits (some { target := target, index := -1 }) := by
  refine ⟨_, rfl, fun node hnode => ?_⟩
  have hdetached := h.sound.detached hnode
  simp [NodeTree.insertNode, NodeTree.appendNode, hnode, hdetached, htarget]

theorem WellFormed.fits_endOf (h : WellFormed s) {i : ℕ} (hi : i < s.openElements.length) :
    s.Fits (s.endOf i) := by
  rw [endOf, List.getElem?_eq_getElem hi]
  exact h.fits_end (h.opened _ (List.getElem_mem hi))

/-- The fields of a table name a place among its parent's children. -/
theorem WellFormed.fits_table (h : WellFormed s) {table parent : ν}
    (htable : s.nodeHtmlTagIs table .table) (hparent : s.tree.parent table = some parent) :
    s.Fits (some { target := parent, index := s.tree.indexWithinParent table }) := by
  refine ⟨_, rfl, fun node hnode => ?_⟩
  obtain ⟨i, hi⟩ := List.mem_iff_getElem?.mp (h.sound.listed hparent)
  obtain ⟨type, hne, htype⟩ := h.inElement hparent htable
  have hlength := (List.getElem?_eq_some_iff.mp hi).1
  have hdetached := h.sound.detached hnode
  have hindex := (h.sound.place hi).2
  have hplace : (i : ℤ) ≠ -1 := by omega
  simp [NodeTree.insertNode, hnode, hdetached, htype, hne, hindex, hplace, hlength]

theorem WellFormed.fits_beforeTable (h : WellFormed s) {i : ℕ} {table : ν}
    (hi : s.openElements[i]? = some table) (htable : s.nodeHtmlTagIs table .table) :
    s.Fits (s.beforeTable i) := by
  have hlength := (List.getElem?_eq_some_iff.mp hi).1
  rw [beforeTable, hi]
  dsimp only
  cases hparent : s.tree.parent table with
  | some parent => exact h.fits_table htable hparent
  | none =>
      -- the first open element is no table
      have hpos : i ≠ 0 := by
        rintro rfl
        have hfirst := h.first table (by rw [List.head?_eq_getElem?, hi]; rfl)
        rw [htable] at hfirst
        exact Bool.false_ne_true hfirst.symm
      dsimp only
      rw [if_neg hpos]
      exact h.fits_endOf (by omega)

theorem WellFormed.fits_fosterLocation (h : WellFormed s) (hopen : s.openElements ≠ []) :
    s.Fits s.fosterLocation := by
  rw [fosterLocation]
  split_ifs with htemplate htable
  · rcases s.lastIndexOf_open .template with hnone | ⟨j, node, hj, hlast, -⟩
    · exact absurd hnone htemplate.1
    · rw [hlast, Int.toNat_natCast]
      exact h.fits_endOf (List.getElem?_eq_some_iff.mp hj).1
  · exact h.fits_endOf (List.length_pos_iff.mpr hopen)
  · rcases s.lastIndexOf_open .table with hnone | ⟨j, node, hj, hlast, htag⟩
    · exact absurd hnone htable
    · rw [hlast, Int.toNat_natCast]
      exact h.fits_beforeTable hj htag

theorem WellFormed.fits_locationAt (h : WellFormed s) {target : ν}
    (htarget : (s.tree.type target).isSome)
    (hopen : s.openElements = [] → s.tree.type target = some .document) :
    s.Fits (s.locationAt target) := by
  rw [locationAt]
  split_ifs with hfoster
  · exact h.fits_end htarget
  · refine h.fits_fosterLocation fun hnil => hfoster ?_
    simp [nodeTagInSet, hopen hnil]

/-- **Insertion.** The location that is chosen, for the current node, the document
or an open element, is one at which no assertion of `insert_node` fails. -/
theorem fits_getAppropriateInsertionLocation (h : WellFormed s) {overrideTarget : Option ν}
    (hoverride : ∀ target ∈ overrideTarget, target ∈ s.openElements) :
    s.Fits (s.getAppropriateInsertionLocation overrideTarget) := by
  cases overrideTarget with
  | some target =>
      have hmem := hoverride target rfl
      rw [getAppropriateInsertionLocation]
      refine h.fits_locationAt (h.opened target hmem) fun hnil => ?_
      rw [hnil] at hmem
      exact absurd hmem List.not_mem_nil
  | none =>
      rw [getAppropriateInsertionLocation]
      split_ifs with hroot
      · obtain ⟨init, current, hlist⟩ :=
          (List.eq_nil_or_concat' s.openElements).resolve_left (h.current hroot)
        rw [hlist, List.getLast?_concat]
        refine h.fits_locationAt (h.opened current (by simp [hlist])) fun hnil => ?_
        exact absurd hnil (h.current hroot)
      · exact h.fits_locationAt (by rw [h.document]; rfl) fun _ => h.document

/-! ### Building a tree -/

def insertElement (node : ν) (s : Insertions ν) : Option (Insertions ν) :=
  (s.getAppropriateInsertionLocation none).bind fun location =>
    (s.tree.insertNode node location.target location.index).map fun tree =>
      { s with tree, openElements := s.openElements ++ [node] }

/-- `maybe_flush_text_node_buffer`, with the text it has made a node of; a document
takes none. -/
def maybeFlushTextNodeBuffer (textNode : ν) (s : Insertions ν) : Option (Insertions ν) :=
  (s.getAppropriateInsertionLocation none).bind fun location =>
    if s.tree.type location.target = some .document then some s
    else (s.tree.insertNode textNode location.target location.index).map fun tree =>
      { s with tree }

def appendCommentNode (node comment : ν) (s : Insertions ν) : Option (Insertions ν) :=
  (s.tree.appendNode node comment).map fun tree => { s with tree }

/-- What the handlers of the tokens call, but for the adoption agency. -/
inductive Op (ν : Type*)
  | insertRoot (htmlNode : ν)
  | insertElement (node : ν)
  | maybeFlushTextNodeBuffer (textNode : ν)
  | appendCommentNode (node comment : ν)
  | popCurrentNode
  | setFosterParentInsertions (on : Bool)

/-- A step, for nodes of the types the callers make them of. A comment is put into
the document or an open element; `html` stays open until the end. -/
def Op.apply (s : Insertions ν) : Op ν → Option (Insertions ν)
  | .insertRoot htmlNode =>
      if s.root = none ∧ s.openElements = [] ∧ s.nodeHtmlTagIs htmlNode .html then
        (s.insertElement htmlNode).map fun s => { s with root := some htmlNode }
      else none
  | .insertElement node =>
      if s.root.isSome ∧ (s.tree.type node = some .element ∨ s.tree.type node = some .template)
      then s.insertElement node
      else none
  | .maybeFlushTextNodeBuffer textNode =>
      if s.tree.type textNode = none then s.maybeFlushTextNodeBuffer textNode else none
  | .appendCommentNode node comment =>
      if (node = s.document ∨ node ∈ s.openElements) ∧ s.tree.type comment = none then
        s.appendCommentNode node comment
      else none
  | .popCurrentNode =>
      if 2 ≤ s.openElements.length then
        some { s with openElements := s.openElements.dropLast }
      else none
  | .setFosterParentInsertions on => some { s with fosterParentInsertions := on }

def start (type : ν → Option GumboElementType) (tagNamespace : ν → GumboNamespace)
    (tag : ν → TagEnum) (document : ν) : Insertions ν where
  tree := NodeTree.detached type
  tagNamespace := tagNamespace
  tag := tag
  document := document
  root := none
  openElements := []
  fosterParentInsertions := false

/-- What building a tree keeps; a document is never open. -/
structure Built (s : Insertions ν) : Prop extends WellFormed s where
  elements : ∀ node ∈ s.openElements, s.tree.type node ≠ some .document

omit [DecidableEq ν] in
theorem built_start {type : ν → Option GumboElementType} (tagNamespace : ν → GumboNamespace)
    (tag : ν → TagEnum) {document : ν} (hdocument : type document = some .document) :
    Built (start type tagNamespace tag document) where
  sound := NodeTree.sound_detached type
  opened _ hmem := absurd hmem List.not_mem_nil
  current hroot := by cases hroot
  first _ hhead := by cases hhead
  document := hdocument
  inElement hparent := by cases hparent
  elements _ hmem := absurd hmem List.not_mem_nil

theorem appendNode_parent {t t' : NodeTree ν} {parent node : ν}
    (h : t.appendNode parent node = some t') :
    t'.type = t.type ∧ t'.parent = Function.update t.parent node (some parent) ∧
      (t.type parent).isSome := by
  rw [NodeTree.appendNode] at h
  split_ifs at h with hassert
  cases h
  exact ⟨rfl, rfl, hassert.2.2⟩

theorem insertNode_parent {t t' : NodeTree ν} {node target : ν} {index : ℤ}
    (h : t.insertNode node target index = some t') :
    t'.type = t.type ∧ t'.parent = Function.update t.parent node (some target) ∧
      (t.type target).isSome := by
  rw [NodeTree.insertNode] at h
  split_ifs at h with hnode hindex hassert
  · cases h
    exact ⟨rfl, rfl, hassert.1⟩
  · exact appendNode_parent h

/-- A tree in which one more node has a parent. -/
theorem Built.tree (h : Built s) {tree : NodeTree ν} {target : ν} (hsound : tree.Sound)
    (htype : tree.type = s.tree.type)
    (hparent : tree.parent = Function.update s.tree.parent node (some target))
    (htarget : s.nodeHtmlTagIs node .table → ∃ type ≠ .document, s.tree.type target = some type) :
    Built { s with tree } := by
  have htags : ∀ node tag, ({ s with tree } : Insertions ν).nodeHtmlTagIs node tag =
      s.nodeHtmlTagIs node tag := fun node tag => by
    simp only [nodeHtmlTagIs, nodeTagInSet, htype]
  refine { h with
    sound := hsound
    opened := fun n hn => by rw [htype]; exact h.opened n hn
    first := fun n hn => by rw [htags]; exact h.first n hn
    document := by rw [htype]; exact h.document
    elements := fun n hn => by rw [htype]; exact h.elements n hn
    inElement := fun {n parent} hn htable => ?_ }
  rw [htags] at htable
  dsimp only at hn ⊢
  rw [htype]
  rw [hparent] at hn
  by_cases heq : n = node
  · subst heq
    rw [Function.update_self] at hn
    exact Option.some.inj hn ▸ htarget htable
  · rw [Function.update_of_ne heq] at hn
    exact h.inElement hn htable

omit [DecidableEq ν] in
theorem Built.elements_endOf (h : Built s) {i : ℕ} {location : InsertionLocation ν}
    (hlocation : s.endOf i = some location) : s.tree.type location.target ≠ some .document := by
  rw [endOf, Option.map_eq_some_iff] at hlocation
  obtain ⟨target, htarget, rfl⟩ := hlocation
  exact h.elements target (List.mem_of_getElem? htarget)

omit [DecidableEq ν] in
/-- With a root, the location is not in the document. -/
theorem Built.elements_location (h : Built s) (hroot : s.root.isSome)
    {location : InsertionLocation ν}
    (hlocation : s.getAppropriateInsertionLocation none = some location) :
    s.tree.type location.target ≠ some .document := by
  rw [getAppropriateInsertionLocation, if_pos hroot] at hlocation
  obtain ⟨current, hcurrent, hlocation⟩ := Option.bind_eq_some_iff.mp hlocation
  rw [locationAt] at hlocation
  split_ifs at hlocation with hfoster
  · cases hlocation
    exact h.elements current (List.mem_of_getLast? hcurrent)
  · rw [fosterLocation] at hlocation
    split_ifs at hlocation with htemplate htable
    · exact h.elements_endOf hlocation
    · exact h.elements_endOf hlocation
    · obtain ⟨j, table, hj, hlast, htag⟩ := (s.lastIndexOf_open .table).resolve_left htable
      rw [hlast, Int.toNat_natCast, beforeTable, hj] at hlocation
      dsimp only at hlocation
      cases hparent : s.tree.parent table with
      | some parent =>
          rw [hparent] at hlocation
          cases hlocation
          obtain ⟨type, hne, htype⟩ := h.inElement hparent htag
          rw [htype]
          exact fun heq => hne (Option.some.inj heq)
      | none =>
          rw [hparent] at hlocation
          dsimp only at hlocation
          split_ifs at hlocation
          exact h.elements_endOf hlocation

/-- An element that is open from now on. -/
theorem Built.insertElement (h : Built s) {s' : Insertions ν}
    (hnode : s.tree.type node = some .element ∨ s.tree.type node = some .template)
    (hopen : s.root.isSome ∨ s.nodeHtmlTagIs node .table = false)
    (hinsert : s.insertElement node = some s') :
    Built s' ∧ s'.openElements = s.openElements ++ [node] := by
  obtain ⟨location, hlocation, hinsert⟩ := Option.bind_eq_some_iff.mp hinsert
  obtain ⟨tree, htree, rfl⟩ := Option.map_eq_some_iff.mp hinsert
  obtain ⟨htype, hparent, htarget⟩ := insertNode_parent htree
  have hbuilt : Built { s with tree } := by
    refine h.tree (h.sound.insertNode htree) htype hparent fun htable => ?_
    have hroot : s.root.isSome := hopen.resolve_right (by simp [htable])
    obtain ⟨type, htypeOf⟩ := Option.isSome_iff_exists.mp htarget
    have hne := h.elements_location hroot hlocation
    exact ⟨type, fun heq => hne (by rw [htypeOf, heq]), htypeOf⟩
  have hnode' : tree.type node = some .element ∨ tree.type node = some .template := by
    rwa [htype]
  refine ⟨{ hbuilt with
    opened := List.forall_mem_append.mpr ⟨hbuilt.opened, ?_⟩
    current := fun _ => List.append_ne_nil_of_right_ne_nil _ (List.cons_ne_nil _ _)
    first := ?_
    elements := List.forall_mem_append.mpr ⟨hbuilt.elements, ?_⟩ }, rfl⟩
  · rw [List.forall_mem_singleton]
    rcases hnode' with hnode' | hnode' <;> rw [hnode'] <;> rfl
  · intro first hfirst
    cases hlist : s.openElements with
    | nil =>
        have hroot : ¬s.root.isSome := fun hroot => h.current hroot hlist
        obtain rfl : node = first := by simpa [hlist] using hfirst
        simpa only [nodeHtmlTagIs, nodeTagInSet, htype] using hopen.resolve_left hroot
    | cons html rest =>
        refine hbuilt.first first ?_
        simpa [hlist] using hfirst
  · rw [List.forall_mem_singleton]
    rcases hnode' with hnode' | hnode' <;> rw [hnode'] <;> simp

theorem Built.apply (h : Built s) {s' : Insertions ν} {op : Op ν} (hop : op.apply s = some s') :
    Built s' := by
  cases op with
  | insertRoot htmlNode =>
      simp only [Op.apply] at hop
      split_ifs at hop with hstart
      obtain ⟨s₁, hinsert, rfl⟩ := Option.map_eq_some_iff.mp hop
      obtain ⟨hkind, htag⟩ : (s.tree.type htmlNode = some .element ∨
          s.tree.type htmlNode = some .template) ∧ s.tag htmlNode = .html := by
        have hhtml := hstart.2.2
        simp only [nodeHtmlTagIs, nodeTagInSet, Bool.and_eq_true, Bool.or_eq_true,
          decide_eq_true_eq] at hhtml
        exact ⟨hhtml.1.1, by simpa using hhtml.2⟩
      have hhtml : s.nodeHtmlTagIs htmlNode .table = false := by
        simp [nodeHtmlTagIs, nodeTagInSet, htag]
      obtain ⟨hbuilt, hopened⟩ := h.insertElement hkind (.inr hhtml) hinsert
      exact { hbuilt with current := fun _ => by simp [hopened] }
  | insertElement node =>
      simp only [Op.apply] at hop
      split_ifs at hop with hnode
      exact (h.insertElement hnode.2 (.inl hnode.1) hop).1
  | maybeFlushTextNodeBuffer textNode =>
      simp only [Op.apply] at hop
      split_ifs at hop with htext
      obtain ⟨location, hlocation, hflush⟩ := Option.bind_eq_some_iff.mp hop
      split_ifs at hflush
      · exact Option.some.inj hflush ▸ h
      · obtain ⟨tree, htree, rfl⟩ := Option.map_eq_some_iff.mp hflush
        obtain ⟨htype, hparent, -⟩ := insertNode_parent htree
        exact h.tree (h.sound.insertNode htree) htype hparent fun htable => by
          simp [nodeHtmlTagIs, nodeTagInSet, htext] at htable
  | appendCommentNode node comment =>
      simp only [Op.apply] at hop
      split_ifs at hop with hcomment
      obtain ⟨tree, htree, rfl⟩ := Option.map_eq_some_iff.mp hop
      obtain ⟨htype, hparent, -⟩ := appendNode_parent htree
      exact h.tree (h.sound.appendNode htree) htype hparent fun htable => by
        simp [nodeHtmlTagIs, nodeTagInSet, hcomment.2] at htable
  | popCurrentNode =>
      simp only [Op.apply] at hop
      split_ifs at hop with hlength
      obtain rfl := Option.some.inj hop
      obtain ⟨html, second, rest, hlist⟩ : ∃ html second rest,
          s.openElements = html :: second :: rest := by
        match hlist : s.openElements with
        | [] => simp [hlist] at hlength
        | [_] => simp [hlist] at hlength
        | html :: second :: rest => exact ⟨html, second, rest, rfl⟩
      exact { h with
        opened := fun n hn => h.opened n (List.mem_of_mem_dropLast hn)
        current := fun _ => by simp [hlist]
        first := fun n hn => h.first n (by simpa [hlist] using hn)
        elements := fun n hn => h.elements n (List.mem_of_mem_dropLast hn) }
  | setFosterParentInsertions on =>
      obtain rfl := Option.some.inj hop
      exact { h with }

/-- What these steps build is well formed. -/
theorem Built.foldlM (h : Built s) {s' : Insertions ν} {ops : List (Op ν)}
    (hops : ops.foldlM Op.apply s = some s') : Built s' := by
  induction ops generalizing s with
  | nil => exact Option.some.inj hops ▸ h
  | cons op ops ih =>
      obtain ⟨s₁, hop, hrest⟩ := Option.bind_eq_some_iff.mp hops
      exact ih (h.apply hop) hrest

/-- A document with a table in its body, and the table open. -/
def openTable (tree : NodeTree ℕ) : Insertions ℕ where
  tree := tree
  tagNamespace _ := .html
  tag node := if node = 0 then .html else if node = 1 then .body else .table
  document := 3
  root := some 0
  openElements := [0, 1, 2]
  fosterParentInsertions := true

/-- The same nodes, before the first token. -/
def noTable : Insertions ℕ :=
  start (fun node => some (if node = 3 then .document else .element)) (fun _ => .html)
    (fun node => if node = 0 then .html else if node = 1 then .body else .table) 3

theorem built_noTable : Built noTable := built_start _ _ rfl

/-- What the table does not take goes in front of it, in the body. -/
theorem fits_openTable : ∃ tree : NodeTree ℕ,
    (openTable tree).getAppropriateInsertionLocation none = some { target := 1, index := 0 } ∧
      (openTable tree).Fits ((openTable tree).getAppropriateInsertionLocation none) := by
  obtain ⟨tree, htree⟩ : ∃ tree : NodeTree ℕ,
      [Op.insertRoot 0, .insertElement 1, .insertElement 2, .setFosterParentInsertions true].foldlM
        Op.apply noTable = some (openTable tree) := ⟨_, rfl⟩
  have hwell := (built_noTable.foldlM htree).toWellFormed
  refine ⟨tree, ?_, fits_getAppropriateInsertionLocation hwell fun _ hnone => ?_⟩
  · cases htree
    rfl
  · exact absurd hnone (Option.not_mem_none _)

end Insertions

end HtmlBenchmark.Gumbo
