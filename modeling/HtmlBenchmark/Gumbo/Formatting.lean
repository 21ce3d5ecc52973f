import HtmlBenchmark.Gumbo.Tags
import HtmlBenchmark.Library.Nesting
import Mathlib.Data.List.Nodup
import Mathlib.Data.List.Perm.Subperm

/-!
The list of active formatting elements, as in `gumbo-parser/parser.c`.

The list has the formatting elements a page has not closed itself, with a marker
where an element began that they do not reach out of. From it the tree builder
opens again those that were closed by the end of another element. A fourth of
the same kind makes it forget the first. The end tag of a formatting element, and
a second link, run the adoption agency, which is in `Adoption`.
-/

namespace HtmlBenchmark.Gumbo

open Library

/-- `GumboNamespaceEnum` -/
inductive GumboNamespace
  | html | svg | mathml
  deriving DecidableEq, Repr

/-- An element as the list compares it. The tokenizer drops an attribute of a name
it has seen. -/
structure FormattingElement where
  tagNamespace : GumboNamespace
  tag : TagEnum
  attributes : List GumboAttribute
  distinct : (attributes.map fun attr => attr.name.bytes.map tolower).Nodup
  counted : attributes.length < 2 ^ 32

def attributeMatchesCaseSensitive (attributes : List GumboAttribute) (name value : CString) :
    Bool :=
  match gumboGetAttribute attributes name with
  | some attr => strcmp value attr.value
  | none => false

/-- The loop of `all_attributes_match`; the number of those not matched is a word. -/
def allAttributesMatchLoop (attr2 : List GumboAttribute) : List GumboAttribute → ℤ → Bool
  | [], unmatched => unmatched % 2 ^ 32 = 0
  | attr :: attr1, unmatched =>
      if attributeMatchesCaseSensitive attr2 attr.name attr.value then
        allAttributesMatchLoop attr2 attr1 (unmatched - 1)
      else false

def allAttributesMatch (attr1 attr2 : List GumboAttribute) : Bool :=
  allAttributesMatchLoop attr2 attr1 attr2.length

/-- `node_qualified_tag_is`, of an element -/
def nodeQualifiedTagIs (element : FormattingElement) (tagNamespace : GumboNamespace)
    (tag : TagEnum) : Bool :=
  element.tag = tag && element.tagNamespace = tagNamespace

/-- What makes an element one more of the desired kind. -/
def FormattingElement.isKind (desired element : FormattingElement) : Bool :=
  nodeQualifiedTagIs element desired.tagNamespace desired.tag &&
    allAttributesMatch element.attributes desired.attributes

/-! ### Elements of one kind -/

/-- An attribute as it is compared. -/
def GumboAttribute.key (attr : GumboAttribute) : List UInt8 × CString :=
  (attr.name.bytes.map tolower, attr.value)

theorem attributeMatches_iff {attributes : List GumboAttribute} (name value : CString)
    (hdistinct : (attributes.map fun attr => attr.name.bytes.map tolower).Nodup) :
    attributeMatchesCaseSensitive attributes name value = true ↔
      (name.bytes.map tolower, value) ∈ attributes.map GumboAttribute.key := by
  induction attributes with
  | nil => simp [attributeMatchesCaseSensitive, gumboGetAttribute]
  | cons attr attributes ih =>
      rw [List.map_cons, List.nodup_cons] at hdistinct
      rw [attributeMatchesCaseSensitive, gumboGetAttribute, List.find?_cons, List.map_cons,
        List.mem_cons]
      by_cases hname : name.bytes.map tolower = attr.name.bytes.map tolower
      · have hrest : (name.bytes.map tolower, value) ∉ attributes.map GumboAttribute.key := by
          intro hmem
          obtain ⟨other, hother, hkey⟩ := List.mem_map.mp hmem
          refine hdistinct.1 (List.mem_map.mpr ⟨other, hother, ?_⟩)
          exact (congrArg Prod.fst hkey).trans hname
        have hcase : strcasecmp attr.name name = true := by simp [strcasecmp, hname]
        rw [or_iff_left hrest]
        simp only [hcase, strcmp, decide_eq_true_eq, GumboAttribute.key, Prod.mk.injEq, hname,
          true_and]
      · have hcase : strcasecmp attr.name name = false := by simp [strcasecmp, Ne.symm hname]
        have hkey : (name.bytes.map tolower, value) ≠ attr.key := fun heq =>
          hname (congrArg Prod.fst heq)
        rw [attributeMatchesCaseSensitive, gumboGetAttribute] at ih
        simpa [hcase, hkey] using ih hdistinct.2

theorem allAttributesMatchLoop_iff (attr1 attr2 : List GumboAttribute) (unmatched : ℤ) :
    allAttributesMatchLoop attr2 attr1 unmatched = true ↔
      (∀ attr ∈ attr1, attributeMatchesCaseSensitive attr2 attr.name attr.value = true) ∧
        (unmatched - attr1.length) % 2 ^ 32 = 0 := by
  induction attr1 generalizing unmatched with
  | nil => simp [allAttributesMatchLoop]
  | cons attr attr1 ih =>
      rw [allAttributesMatchLoop, List.forall_mem_cons]
      split_ifs with hmatch
      · rw [ih, List.length_cons, Nat.cast_succ, add_comm (attr1.length : ℤ), ← sub_sub]
        simp [hmatch]
      · simp [hmatch]

/-- Attributes match if they are the same in some order. -/
theorem allAttributesMatch_iff (a b : FormattingElement) :
    allAttributesMatch a.attributes b.attributes = true ↔
      (a.attributes.map GumboAttribute.key).Perm (b.attributes.map GumboAttribute.key) := by
  have hmem : (∀ attr ∈ a.attributes,
      attributeMatchesCaseSensitive b.attributes attr.name attr.value = true) ↔
        a.attributes.map GumboAttribute.key ⊆ b.attributes.map GumboAttribute.key := by
    simp only [attributeMatches_iff _ _ b.distinct, List.subset_def, List.forall_mem_map]
    exact Iff.rfl
  have hnodup : (a.attributes.map GumboAttribute.key).Nodup :=
    List.Nodup.of_map Prod.fst (by rw [List.map_map]; exact a.distinct)
  have ha := a.counted
  have hb := b.counted
  rw [allAttributesMatch, allAttributesMatchLoop_iff, hmem]
  constructor
  · rintro ⟨hsub, hlength⟩
    refine (hnodup.subperm hsub).perm_of_length_le ?_
    rw [List.length_map, List.length_map]
    omega
  · intro hperm
    have hlength := hperm.length_eq
    rw [List.length_map, List.length_map] at hlength
    exact ⟨hperm.subset, by rw [hlength]; simp⟩

theorem isKind_iff (desired element : FormattingElement) :
    desired.isKind element = true ↔ element.tag = desired.tag ∧
      element.tagNamespace = desired.tagNamespace ∧
      (element.attributes.map GumboAttribute.key).Perm
        (desired.attributes.map GumboAttribute.key) := by
  rw [FormattingElement.isKind, nodeQualifiedTagIs, Bool.and_eq_true, Bool.and_eq_true,
    allAttributesMatch_iff, decide_eq_true_eq, decide_eq_true_eq, and_assoc]

/-- Elements of one kind have the same elements of their kind. -/
theorem isKind_congr {a b : FormattingElement} (h : a.isKind b = true) : a.isKind = b.isKind := by
  obtain ⟨htag, hnamespace, hperm⟩ := (isKind_iff a b).mp h
  funext element
  rw [Bool.eq_iff_iff, isKind_iff, isKind_iff, htag, hnamespace]
  exact and_congr_right' (and_congr_right' ⟨fun h => h.trans hperm.symm, fun h => h.trans hperm⟩)

/-! ### The parser's functions -/

/-- `kActiveFormattingScopeMarker`, of which all fields are 0. -/
def markerElement : FormattingElement where
  tagNamespace := .html
  tag := .html
  attributes := []
  distinct := List.nodup_nil
  counted := by decide

/-- What of the parser's state the list depends on. Nodes are numbered as they are
made. An entry without a node is the marker. -/
structure TreeBuilder where
  nodes : ℕ → FormattingElement
  nextNode : ℕ
  openElements : List ℕ
  activeFormattingElements : List (Option ℕ)

namespace TreeBuilder

def kinds (s : TreeBuilder) : List (Option FormattingElement) :=
  s.activeFormattingElements.map (Option.map s.nodes)

/-- A new node, the one the parser is in from now on. -/
def insertElement (element : FormattingElement) (s : TreeBuilder) : TreeBuilder :=
  { s with
    nodes := Function.update s.nodes s.nextNode element
    nextNode := s.nextNode + 1
    openElements := s.openElements ++ [s.nextNode] }

def popCurrentNode (s : TreeBuilder) : TreeBuilder :=
  { s with openElements := s.openElements.dropLast }

/-- `gumbo_vector_remove`, as the end tag of a form calls it for the open elements. -/
def removeOpenElement (node : ℕ) (s : TreeBuilder) : TreeBuilder :=
  { s with openElements := s.openElements.erase node }

/-- The loop of `find_last_anchor_index`, with `i` entries before it. -/
def findLastAnchorLoop (elements : List (Option FormattingElement)) : ℕ → Option ℕ
  | 0 => none
  | i + 1 =>
      match elements[i]? with
      | some (some element) =>
          if nodeQualifiedTagIs element .html .a then some i else findLastAnchorLoop elements i
      | _ => none

def findLastAnchorIndex (s : TreeBuilder) : Option ℕ :=
  findLastAnchorLoop s.kinds s.activeFormattingElements.length

/-- What the start tag of a link does about one the adoption agency has left in the
list. -/
def removeLastAnchor (s : TreeBuilder) : TreeBuilder :=
  match s.findLastAnchorIndex with
  | some lastA =>
      match s.activeFormattingElements[lastA]? with
      | some (some lastElement) =>
          { s with
            activeFormattingElements := s.activeFormattingElements.eraseIdx lastA
            openElements := s.openElements.erase lastElement }
      | _ => s
  | none => s

/-- The loop of `count_formatting_elements_of_tag`, with `i` entries before it: how
many there are, and where the earliest is. -/
def countLoop (desired : FormattingElement) (elements : List (Option FormattingElement)) :
    ℕ → ℕ × ℕ → ℕ × ℕ
  | 0, found => found
  | i + 1, found =>
      match elements[i]? with
      | some (some element) =>
          if desired.isKind element then countLoop desired elements i (found.1 + 1, i)
          else countLoop desired elements i found
      | _ => found

def countFormattingElementsOfTag (s : TreeBuilder) (desired : FormattingElement) : ℕ × ℕ :=
  countLoop desired s.kinds s.activeFormattingElements.length
    (0, s.activeFormattingElements.length)

def addFormattingElement (node : Option ℕ) (s : TreeBuilder) : TreeBuilder :=
  let desired := (node.map s.nodes).getD markerElement
  let identical := s.countFormattingElementsOfTag desired
  let elements :=
    if 3 ≤ identical.1 then s.activeFormattingElements.eraseIdx identical.2
    else s.activeFormattingElements
  { s with activeFormattingElements := elements ++ [node] }

/-- What an entry is not opened again for: a marker, or `is_open_element`. -/
def Settled (s : TreeBuilder) (entry : Option ℕ) : Prop :=
  ∀ node ∈ entry, node ∈ s.openElements

instance (s : TreeBuilder) (entry : Option ℕ) : Decidable (s.Settled entry) :=
  inferInstanceAs (Decidable (∀ node ∈ entry, _))

/-- Steps 4 to 6 of `reconstruct_active_formatting_elements`, from the `i`th entry
back, and the step forward behind them. -/
def rewind (s : TreeBuilder) : ℕ → ℕ
  | 0 => 0
  | i + 1 =>
      if ∀ entry ∈ s.activeFormattingElements[i]?, s.Settled entry then i + 1 else rewind s i

/-- Steps 7 to 10 for the `i`th entry: what `clone_node` makes takes its place. -/
def cloneEntry (i element : ℕ) (s : TreeBuilder) : TreeBuilder :=
  { s.insertElement (s.nodes element) with
    activeFormattingElements := s.activeFormattingElements.set i (some s.nextNode) }

/-- Steps 7 to 10, so many times from the `i`th entry on. -/
def reopen (i : ℕ) : ℕ → TreeBuilder → TreeBuilder
  | 0, s => s
  | rounds + 1, s =>
      match s.activeFormattingElements[i]? with
      | some (some element) => reopen (i + 1) rounds (s.cloneEntry i element)
      | _ => s

/-- `reconstruct_active_formatting_elements` -/
def reconstruct (s : TreeBuilder) : TreeBuilder :=
  let last := s.activeFormattingElements.length - 1
  match s.activeFormattingElements[last]? with
  | none => s
  | some entry =>
      if s.Settled entry then s
      else
        let i := s.rewind last
        s.reopen i (s.activeFormattingElements.length - i)

/-- `gumbo_vector_remove`, as the adoption agency calls it for the list in steps 6
and 10. -/
def removeFormattingElement (node : ℕ) (s : TreeBuilder) : TreeBuilder :=
  { s with activeFormattingElements := s.activeFormattingElements.erase (some node) }

/-- The loop of `clear_active_formatting_elements`. -/
def clearLoop : ℕ → List (Option ℕ) → List (Option ℕ)
  | 0, elements => elements
  | rounds + 1, elements =>
      match elements.getLast? with
      | some (some _) => clearLoop rounds elements.dropLast
      | _ => elements.dropLast

/-- `clear_active_formatting_elements` -/
def clear (s : TreeBuilder) : TreeBuilder :=
  { s with activeFormattingElements :=
      clearLoop s.activeFormattingElements.length s.activeFormattingElements }

/-! ### At most three of a kind -/

/-- An entry of the list that is an element of the kind. -/
def entryIsKind (desired : FormattingElement) (entry : Option FormattingElement) : Bool :=
  entry.any desired.isKind

/-- Between two markers there are at most three elements of a kind. -/
def Ark (kinds : List (Option FormattingElement)) : Prop :=
  ∀ seg, seg <:+: kinds → none ∉ seg → ∀ desired, seg.countP (entryIsKind desired) ≤ 3

variable {kinds front seg back : List (Option FormattingElement)} {desired : FormattingElement}
  {entry : Option FormattingElement}

theorem Ark.part (h : Ark kinds) (hpart : seg <:+: kinds) : Ark seg :=
  fun seg' hseg => h seg' (hseg.trans hpart)

/-- An element may be taken out anywhere, but not a marker. -/
theorem Ark.erase (h : Ark (front ++ entry :: back)) (hentry : entry ≠ none) :
    Ark (front ++ back) := by
  intro seg hseg hnone desired
  rcases List.infix_append_iff.mp hseg with hseg | hseg | ⟨l₁, l₂, rfl, hl₁, hl₂⟩
  · exact h.part (List.infix_append [] front _) seg hseg hnone desired
  · refine h.part (List.IsSuffix.isInfix ?_) seg hseg hnone desired
    exact ⟨front ++ [entry], by simp⟩
  · have hsub : (l₁ ++ l₂).countP (entryIsKind desired) ≤
        (l₁ ++ entry :: l₂).countP (entryIsKind desired) :=
      ((List.Sublist.refl l₁).append (List.sublist_cons_self entry l₂)).countP_le
    refine Nat.le_trans hsub (h _ ?_ ?_ desired)
    · obtain ⟨a, rfl⟩ := hl₁
      obtain ⟨b, rfl⟩ := hl₂
      exact ⟨a, b, by simp⟩
    · rw [List.mem_append, not_or] at hnone
      simp [hnone, Ne.symm hentry]

/-- The entries behind the last marker, and the earliest of the kind among them. -/
structure Found (desired : FormattingElement) (front seg : List (Option FormattingElement))
    (found : ℕ × ℕ) : Prop where
  noMarker : none ∉ seg
  marker : front = [] ∨ ∃ f, front = f ++ [none]
  count : found.1 = seg.countP (entryIsKind desired)
  earliest : 0 < found.1 → ∃ a entry b, seg = a ++ entry :: b ∧
    entryIsKind desired entry = true ∧ found.2 = front.length + a.length

theorem countLoop_found (desired : FormattingElement) (kinds : List (Option FormattingElement))
    {i : ℕ} (hi : i ≤ kinds.length) (later : List (Option FormattingElement)) (found : ℕ × ℕ)
    (hlater : none ∉ later) (hcount : found.1 = later.countP (entryIsKind desired))
    (hearliest : 0 < found.1 → ∃ a entry b, later = a ++ entry :: b ∧
      entryIsKind desired entry = true ∧ found.2 = i + a.length) :
    ∃ front seg, kinds.take i ++ later = front ++ seg ∧
      Found desired front seg (countLoop desired kinds i found) := by
  induction i generalizing later found with
  | zero =>
      rw [countLoop]
      exact ⟨[], later, by simp, hlater, .inl rfl, hcount, by simpa using hearliest⟩
  | succ i ih =>
      have htake : kinds.take (i + 1) ++ later = kinds.take i ++ kinds[i] :: later := by
        rw [← List.take_append_getElem (show i < kinds.length by omega), List.append_assoc,
          List.singleton_append]
      -- an entry that is looked at comes before those that have been
      have hshift : 0 < found.1 → ∀ entry, ∃ a entry' b, entry :: later = a ++ entry' :: b ∧
          entryIsKind desired entry' = true ∧ found.2 = i + a.length := by
        intro hpos entry
        obtain ⟨a, entry', b, rfl, hkind, hplace⟩ := hearliest hpos
        exact ⟨entry :: a, entry', b, rfl, hkind, by simp only [List.length_cons]; omega⟩
      rw [htake, countLoop, List.getElem?_eq_getElem (by omega)]
      cases hentry : kinds[i] with
      | none =>
          refine ⟨kinds.take i ++ [none], later, by simp, hlater, .inr ⟨_, rfl⟩, hcount, ?_⟩
          intro hpos
          obtain ⟨a, entry', b, hsplit, hkind, hplace⟩ := hearliest hpos
          refine ⟨a, entry', b, hsplit, hkind, ?_⟩
          rw [hplace, List.length_append, List.length_take, Nat.min_eq_left (by omega)]
          simp
      | some element =>
          dsimp only
          split_ifs with hkind
          · refine ih (by omega) (some element :: later) _ (by simp [hlater]) ?_ fun _ => ?_
            · rw [List.countP_cons_of_pos (by exact hkind), hcount]
            · exact ⟨[], some element, later, rfl, hkind, rfl⟩
          · refine ih (by omega) (some element :: later) _ (by simp [hlater]) ?_
              fun hpos => hshift hpos _
            rw [List.countP_cons_of_neg (by exact hkind), hcount]

/-- An element comes in at the end if there are two of its kind at most. -/
theorem Ark.concat (h : Ark kinds) (hentry : ∀ element ∈ entry, ∀ t, t <:+ kinds → none ∉ t →
    t.countP (entryIsKind element) ≤ 2) : Ark (kinds ++ [entry]) := by
  intro seg hseg hnone desired
  rcases List.infix_concat_iff.mp hseg with hseg | hseg
  · rcases List.suffix_concat_iff.mp hseg with rfl | ⟨t, rfl, ht⟩
    · simp
    · rw [List.mem_append, not_or] at hnone
      cases entry with
      | none => exact absurd (List.mem_singleton_self _) hnone.2
      | some element =>
          rw [List.countP_append, List.countP_singleton]
          split_ifs with hkind
          · have hsame : entryIsKind desired = entryIsKind element := by
              funext other
              rw [entryIsKind, entryIsKind, isKind_congr hkind]
            rw [hsame]
            exact Nat.add_le_add_right (hentry element rfl t ht hnone.1) 1
          · exact h t ht.isInfix hnone.1 desired
  · exact h seg hseg hnone desired

/-- What ends the list and has no marker is behind the last marker. -/
theorem Found.suffix {found : ℕ × ℕ} (h : Found desired front seg found)
    {s t : List (Option FormattingElement)} (ht : t <:+ front ++ s) (hnone : none ∉ t) :
    t <:+ s := by
  rcases List.suffix_or_suffix_of_suffix ht (List.suffix_append front s) with hts | ⟨u, rfl⟩
  · exact hts
  · obtain ⟨w, hw⟩ := ht
    have hu : u <:+ front := ⟨w, List.append_cancel_right (by rwa [List.append_assoc])⟩
    rcases h.marker with rfl | ⟨f, rfl⟩
    · rw [List.suffix_nil.mp hu]
      exact List.suffix_refl _
    · rcases List.suffix_concat_iff.mp hu with rfl | ⟨v, rfl, -⟩
      · exact List.suffix_refl _
      · exact absurd (by simp) hnone

/-- A fourth of a kind comes in where the first has gone. -/
theorem Ark.add (h : Ark kinds) {found : ℕ × ℕ} (hfound : Found desired front seg found)
    (hsplit : kinds = front ++ seg) (entry : Option FormattingElement)
    (hentry : ∀ element ∈ entry, element = desired) :
    Ark ((if 3 ≤ found.1 then kinds.eraseIdx found.2 else kinds) ++ [entry]) := by
  subst hsplit
  have hcount := hfound.count
  split_ifs with hthree
  · obtain ⟨a, first, b, rfl, hkind, hplace⟩ := hfound.earliest (by omega)
    have hle := h _ (List.suffix_append front _).isInfix hfound.noMarker desired
    have herase : (front ++ (a ++ first :: b)).eraseIdx found.2 = front ++ (a ++ b) := by
      rw [hplace, List.eraseIdx_append_of_length_le (by omega), Nat.add_sub_cancel_left,
        List.eraseIdx_append_of_length_le (Nat.le_refl _), Nat.sub_self, List.eraseIdx_cons_zero]
    have hfirst : first ≠ none := by
      rintro rfl
      exact Bool.false_ne_true hkind
    rw [List.countP_append, List.countP_cons_of_pos hkind] at hcount hle
    rw [herase]
    refine Ark.concat ?_ fun element helement t ht hnone => ?_
    · rw [← List.append_assoc] at h ⊢
      exact h.erase hfirst
    · rw [hentry element helement]
      refine Nat.le_trans (hfound.suffix ht hnone).sublist.countP_le ?_
      rw [List.countP_append]
      omega
  · refine h.concat fun element helement t ht hnone => ?_
    rw [hentry element helement]
    refine Nat.le_trans (hfound.suffix ht hnone).sublist.countP_le ?_
    omega

/-! ### The functions keep it -/

/-- The tags of the start tags that add an element to the list. -/
def formattingTags : List TagEnum :=
  [.a, .b, .big, .code, .em, .font, .i, .s, .small, .strike, .strong, .tt, .u, .nobr]

/-- An element of such a tag. -/
def IsFormatting (element : FormattingElement) : Prop :=
  element.tagNamespace = .html ∧ element.tag ∈ formattingTags

instance (element : FormattingElement) : Decidable (IsFormatting element) :=
  inferInstanceAs (Decidable (_ ∧ _))

/-- What holds in every state of the parser. -/
structure Sound (s : TreeBuilder) : Prop where
  listed : ∀ node, some node ∈ s.activeFormattingElements → node < s.nextNode
  opened : ∀ node ∈ s.openElements, node < s.nextNode
  distinct : s.openElements.Nodup
  nested : Nested s.activeFormattingElements s.openElements
  ark : Ark s.kinds
  formatting : ∀ element, some element ∈ s.kinds → IsFormatting element

variable {s : TreeBuilder}

@[simp] theorem length_kinds (s : TreeBuilder) :
    s.kinds.length = s.activeFormattingElements.length :=
  List.length_map _

/-- A new node is none of the list's. -/
theorem Sound.kinds_insertElement (h : Sound s) (element : FormattingElement) :
    (s.insertElement element).kinds = s.kinds := by
  refine List.map_congr_left fun entry hentry => ?_
  cases entry with
  | none => rfl
  | some node =>
      exact congrArg some (Function.update_of_ne (Nat.ne_of_lt (h.listed node hentry)) _ _)

/-- Entries are taken out of the list, and elements out of the open ones. -/
theorem Sound.sublist (h : Sound s) {opened : List ℕ} {list : List (Option ℕ)}
    (hopened : opened.Sublist s.openElements) (hlist : list.Sublist s.activeFormattingElements)
    (hark : Ark (list.map (Option.map s.nodes))) :
    Sound { s with openElements := opened, activeFormattingElements := list } where
  listed := fun node hnode => h.listed node (hlist.subset hnode)
  opened := fun node hnode => h.opened node (hopened.subset hnode)
  distinct := h.distinct.sublist hopened
  nested := h.nested.sublist hlist hopened
  ark := hark
  formatting := fun element helement => h.formatting element ((hlist.map _).subset helement)

theorem Sound.notMem_openElements (h : Sound s) : s.nextNode ∉ s.openElements :=
  fun hmem => Nat.lt_irrefl _ (h.opened _ hmem)

theorem Sound.insertElement (h : Sound s) (element : FormattingElement) :
    Sound (s.insertElement element) := by
  have hkinds := h.kinds_insertElement element
  refine
    { listed := fun node hnode => Nat.lt_succ_of_lt (h.listed node hnode)
      opened := List.forall_mem_append.mpr ⟨fun node hnode => ?_, ?_⟩
      distinct := List.nodup_append_comm.mpr (h.distinct.cons h.notMem_openElements)
      nested := h.nested.push fun node hnode => ?_
      ark := by rw [hkinds]; exact h.ark
      formatting := by rw [hkinds]; exact h.formatting }
  · exact Nat.lt_succ_of_lt (h.opened node hnode)
  · rw [List.forall_mem_singleton]
    exact Nat.lt_succ_self _
  · rw [List.mem_singleton.mp hnode]
    exact fun hmem => Nat.lt_irrefl _ (h.listed _ hmem)

theorem Sound.popCurrentNode (h : Sound s) : Sound s.popCurrentNode :=
  h.sublist (List.dropLast_sublist _) (List.Sublist.refl _) h.ark

theorem Sound.removeOpenElement (h : Sound s) (node : ℕ) : Sound (s.removeOpenElement node) :=
  h.sublist List.erase_sublist (List.Sublist.refl _) h.ark

theorem addFormattingElement_eq (s : TreeBuilder) (node : Option ℕ) :
    ∃ list, list.Sublist s.activeFormattingElements ∧
      s.addFormattingElement node = { s with activeFormattingElements := list ++ [node] } := by
  refine ⟨_, ?_, rfl⟩
  split_ifs
  · exact List.eraseIdx_sublist _ _
  · exact List.Sublist.refl _

theorem Sound.ark_addFormattingElement (h : Sound s) (node : Option ℕ) :
    Ark (s.addFormattingElement node).kinds := by
  obtain ⟨front, seg, hsplit, hfound⟩ := countLoop_found ((node.map s.nodes).getD markerElement)
    s.kinds (Nat.le_of_eq (length_kinds s).symm) [] (0, s.activeFormattingElements.length)
    (List.not_mem_nil) rfl (fun hpos => absurd hpos (Nat.lt_irrefl 0))
  rw [List.append_nil, ← length_kinds, List.take_length] at hsplit
  have hadd := h.ark.add hfound hsplit (node.map s.nodes) fun element helement => by
    rw [helement]
    rfl
  rw [kinds, TreeBuilder.addFormattingElement, List.map_append, apply_ite (List.map _),
    ← List.eraseIdx_map]
  exact hadd

theorem Sound.addMarker (h : Sound s) : Sound (s.addFormattingElement none) := by
  have hark := h.ark_addFormattingElement none
  obtain ⟨list, hlist, heq⟩ := s.addFormattingElement_eq none
  have hnested := h.nested.sublist hlist (List.Sublist.refl _)
  rw [heq] at hark ⊢
  refine
    { listed := fun node hnode => h.listed node (hlist.subset ?_)
      opened := h.opened
      distinct := h.distinct
      nested := hnested.marker
      ark := hark
      formatting := fun element helement => h.formatting element ((hlist.map _).subset ?_) }
  · simpa using hnode
  · simpa [kinds] using helement

/-- A formatting element that is not below one that is listed. -/
theorem Sound.addFormattingElement (h : Sound s) {node : ℕ} (hnode : node < s.nextNode)
    (hformatting : IsFormatting (s.nodes node))
    (hplace : ∀ x, some x ∈ s.activeFormattingElements →
      x ≠ node ∧ ¬[node, x].Sublist s.openElements) : Sound (s.addFormattingElement node) := by
  have hark := h.ark_addFormattingElement node
  obtain ⟨list, hlist, heq⟩ := s.addFormattingElement_eq node
  have hnested := h.nested.sublist hlist (List.Sublist.refl _)
  rw [heq] at hark ⊢
  refine
    { listed := fun n hn => ?_
      opened := h.opened
      distinct := h.distinct
      nested := hnested.append (by simp) fun x y hx hy => ?_
      ark := hark
      formatting := fun element helement => ?_ }
  · rcases List.mem_append.mp hn with hn | hn
    · exact h.listed n (hlist.subset hn)
    · obtain rfl : n = node := by simpa using hn
      exact hnode
  · obtain rfl : y = node := by simpa using hy
    exact hplace x (hlist.subset (hx.subset (by simp)))
  · rw [kinds, List.map_append, List.mem_append] at helement
    rcases helement with helement | helement
    · exact h.formatting element ((hlist.map _).subset helement)
    · obtain rfl : element = s.nodes node := by simpa using helement
      exact hformatting

/-- An entry that is an element is taken out, and perhaps elements out of the open
ones. -/
theorem Sound.erase (h : Sound s) {front back : List (Option ℕ)} {node : ℕ}
    (hsplit : s.activeFormattingElements = front ++ some node :: back) {opened : List ℕ}
    (hopened : opened.Sublist s.openElements) :
    Sound { s with openElements := opened, activeFormattingElements := front ++ back } := by
  have hark := h.ark
  rw [kinds, hsplit, List.map_append, List.map_cons] at hark
  refine h.sublist hopened ?_ ?_
  · rw [hsplit]
    exact (List.Sublist.refl front).append (List.sublist_cons_self _ back)
  · rw [List.map_append]
    exact hark.erase (Option.some_ne_none _)

theorem Sound.eraseIdx (h : Sound s) {i node : ℕ}
    (hentry : s.activeFormattingElements[i]? = some (some node)) {opened : List ℕ}
    (hopened : opened.Sublist s.openElements) :
    Sound { s with
      openElements := opened
      activeFormattingElements := s.activeFormattingElements.eraseIdx i } := by
  obtain ⟨hlt, hget⟩ := List.getElem?_eq_some_iff.mp hentry
  have hsplit : s.activeFormattingElements = s.activeFormattingElements.take i ++
      some node :: s.activeFormattingElements.drop (i + 1) := by
    rw [← hget, ← List.drop_eq_getElem_cons hlt, List.take_append_drop]
  rw [List.eraseIdx_eq_take_drop_succ]
  exact h.erase hsplit hopened

theorem Sound.removeLastAnchor (h : Sound s) : Sound s.removeLastAnchor := by
  rw [TreeBuilder.removeLastAnchor]
  split
  · split
    · rename_i hlast
      exact h.eraseIdx hlast List.erase_sublist
    · exact h
  · exact h

theorem Sound.removeFormattingElement (h : Sound s) (node : ℕ) :
    Sound (s.removeFormattingElement node) := by
  rw [TreeBuilder.removeFormattingElement]
  by_cases hmem : some node ∈ s.activeFormattingElements
  · obtain ⟨front, back, -, hsplit, herase⟩ := List.exists_erase_eq hmem
    rw [herase]
    exact h.erase hsplit (List.Sublist.refl _)
  · rwa [List.erase_of_not_mem hmem]

theorem clearLoop_prefix (rounds : ℕ) (elements : List (Option ℕ)) :
    clearLoop rounds elements <+: elements := by
  induction rounds generalizing elements with
  | zero => exact List.prefix_refl _
  | succ rounds ih =>
      rw [clearLoop]
      split
      · exact (ih _).trans (List.dropLast_prefix _)
      · exact List.dropLast_prefix _

theorem Sound.clear (h : Sound s) : Sound s.clear := by
  have hkept := clearLoop_prefix s.activeFormattingElements.length s.activeFormattingElements
  exact h.sublist (List.Sublist.refl _) hkept.sublist (h.ark.part (hkept.map _).isInfix)

/-! ### Opening again -/

/-- The entries `behind` are open again, as clones that are new. -/
structure Reopened (s s' : TreeBuilder) (kept : List (Option ℕ)) (behind : List ℕ) : Prop where
  list : s'.activeFormattingElements =
    kept ++ (List.range' s.nextNode behind.length).map some
  opened : s'.openElements = s.openElements ++ List.range' s.nextNode behind.length
  next : s'.nextNode = s.nextNode + behind.length
  clones : (List.range' s.nextNode behind.length).map s'.nodes = behind.map s.nodes
  old : ∀ node < s.nextNode, s'.nodes node = s.nodes node

theorem reopen_reopened {kept : List (Option ℕ)} {behind : List ℕ}
    (hlist : s.activeFormattingElements = kept ++ behind.map some)
    (hbehind : ∀ node ∈ behind, node < s.nextNode) :
    Reopened s (s.reopen kept.length behind.length) kept behind := by
  induction behind generalizing s kept with
  | nil => exact ⟨by simpa [reopen] using hlist, by simp [reopen], rfl, rfl, fun _ _ => rfl⟩
  | cons node behind ih =>
      have hentry : s.activeFormattingElements[kept.length]? = some (some node) := by
        simp [hlist]
      rw [List.forall_mem_cons] at hbehind
      rw [List.length_cons, reopen, hentry]
      have hlist₁ : (s.cloneEntry kept.length node).activeFormattingElements =
          (kept ++ [some s.nextNode]) ++ behind.map some := by
        simp [cloneEntry, hlist]
      have hold : ∀ n < s.nextNode, (s.cloneEntry kept.length node).nodes n = s.nodes n :=
        fun n hn => Function.update_of_ne (Nat.ne_of_lt hn) _ _
      have hclone : (s.cloneEntry kept.length node).nodes s.nextNode = s.nodes node :=
        Function.update_self _ _ _
      have hnext : (s.cloneEntry kept.length node).nextNode = s.nextNode + 1 := rfl
      have hopened : (s.cloneEntry kept.length node).openElements =
          s.openElements ++ [s.nextNode] := rfl
      have hrest := ih hlist₁ fun n hn => by
        rw [hnext]
        exact Nat.lt_succ_of_lt (hbehind.2 n hn)
      rw [List.length_append, List.length_singleton] at hrest
      have hlist' := hrest.list
      have hopened' := hrest.opened
      have hnext' := hrest.next
      have hclones' := hrest.clones
      rw [hnext] at hlist' hopened' hnext' hclones'
      refine ⟨?_, ?_, ?_, ?_, fun n hn => ?_⟩
      · rw [hlist', List.length_cons, List.range'_succ, List.map_cons, List.append_assoc,
          List.singleton_append]
      · rw [hopened', hopened, List.length_cons, List.range'_succ, List.append_assoc,
          List.singleton_append]
      · rw [hnext', List.length_cons]
        omega
      · rw [List.length_cons, List.range'_succ, List.map_cons, List.map_cons, hclones',
          hrest.old _ (by omega), hclone]
        congr 1
        exact List.map_congr_left fun n hn => hold n (hbehind.2 n hn)
      · rw [hrest.old n (by omega), hold n hn]

/-- It goes back to the last entry that is settled, or to the first. -/
theorem rewind_spec (s : TreeBuilder) {i : ℕ} (hi : i ≤ s.activeFormattingElements.length) :
    s.rewind i ≤ i ∧
      (∀ entry ∈ (s.activeFormattingElements.take (s.rewind i)).getLast?, s.Settled entry) ∧
      ∀ entry ∈ (s.activeFormattingElements.take i).drop (s.rewind i), ¬s.Settled entry := by
  induction i with
  | zero => simp [rewind]
  | succ i ih =>
      have hget := List.getElem?_eq_getElem (show i < s.activeFormattingElements.length by omega)
      have htake := List.take_append_getElem (show i < s.activeFormattingElements.length by omega)
      obtain ⟨hle, hlast, hrest⟩ := ih (by omega)
      rw [rewind, hget]
      split_ifs with hsettled
      · refine ⟨Nat.le_refl _, ?_, by simp⟩
        rw [← htake, List.getLast?_concat]
        exact hsettled
      · refine ⟨by omega, hlast, ?_⟩
        rw [← htake, List.drop_append_of_le_length (by rw [List.length_take]; omega)]
        intro entry hentry
        rcases List.mem_append.mp hentry with hentry | hentry
        · exact hrest entry hentry
        · rw [List.mem_singleton.mp hentry]
          simpa using hsettled

/-- Entries that are not settled are elements. -/
theorem exists_map_some {entries : List (Option ℕ)} (h : ∀ entry ∈ entries, ¬s.Settled entry) :
    ∃ behind : List ℕ, entries = behind.map some ∧ ∀ node ∈ behind, node ∉ s.openElements := by
  induction entries with
  | nil => exact ⟨[], rfl, by simp⟩
  | cons entry entries ih =>
      rw [List.forall_mem_cons] at h
      obtain ⟨behind, rfl, hbehind⟩ := ih h.2
      cases entry with
      | none => exact absurd (fun _ hmem => absurd hmem (Option.not_mem_none _)) h.1
      | some node =>
          refine ⟨node :: behind, rfl, List.forall_mem_cons.mpr ⟨fun hopen => h.1 ?_, hbehind⟩⟩
          rintro n hn
          rwa [← Option.some.inj hn]

theorem reconstruct_of_settled
    (h : ∀ entry ∈ s.activeFormattingElements.getLast?, s.Settled entry) :
    s.reconstruct = s := by
  rw [List.getLast?_eq_getElem?] at h
  rw [reconstruct]
  split
  · rfl
  · rename_i entry hentry
    exact if_pos (h entry hentry)

/-- The entries behind the last that is settled are opened again. -/
theorem reconstruct_reopened (h : Sound s) : ∃ kept behind,
    s.activeFormattingElements = kept ++ behind.map some ∧
      (∀ entry ∈ kept.getLast?, s.Settled entry) ∧
      (∀ node ∈ behind, node ∉ s.openElements) ∧ Reopened s s.reconstruct kept behind := by
  by_cases hsettled : ∀ entry ∈ s.activeFormattingElements.getLast?, s.Settled entry
  · refine ⟨s.activeFormattingElements, [], by simp, hsettled, by simp, ?_⟩
    rw [reconstruct_of_settled hsettled]
    exact ⟨by simp, by simp, rfl, rfl, fun _ _ => rfl⟩
  · obtain ⟨entry, hlast, hentry⟩ : ∃ entry ∈ s.activeFormattingElements.getLast?,
        ¬s.Settled entry := by simpa using hsettled
    obtain ⟨init, hlist⟩ := List.getLast?_eq_some_iff.mp hlast
    have hlength : s.activeFormattingElements.length - 1 = init.length := by simp [hlist]
    have hget : s.activeFormattingElements[init.length]? = some entry := by simp [hlist]
    obtain ⟨hle, hkept, hrest⟩ := s.rewind_spec (i := init.length) (by simp [hlist])
    have hunsettled : ∀ entry ∈ s.activeFormattingElements.drop (s.rewind init.length),
        ¬s.Settled entry := by
      have hinit : s.activeFormattingElements.take init.length = init := by simp [hlist]
      rw [hinit] at hrest
      rw [hlist, List.drop_append_of_le_length hle]
      exact List.forall_mem_append.mpr ⟨hrest, by simpa using hentry⟩
    obtain ⟨behind, hbehind, hclosed⟩ := exists_map_some hunsettled
    have hsplit : s.activeFormattingElements =
        s.activeFormattingElements.take (s.rewind init.length) ++ behind.map some := by
      rw [← hbehind, List.take_append_drop]
    have hkeptLength : (s.activeFormattingElements.take (s.rewind init.length)).length =
        s.rewind init.length := by
      rw [List.length_take, hlist, List.length_append]
      omega
    have hrounds : behind.length =
        s.activeFormattingElements.length - s.rewind init.length := by
      rw [← List.length_map (f := some), ← hbehind, List.length_drop]
    have hold : ∀ node ∈ behind, node < s.nextNode := fun node hnode =>
      h.listed node (by rw [hsplit]; simp [hnode])
    refine ⟨_, behind, hsplit, hkept, hclosed, ?_⟩
    have hreopened := reopen_reopened hsplit hold
    rw [hkeptLength, hrounds] at hreopened
    rw [reconstruct, hlength, hget]
    dsimp only
    rwa [if_neg hentry]

/-- A clone is of the kind of what it takes the place of. -/
theorem Reopened.kinds_eq {s' : TreeBuilder} {kept : List (Option ℕ)} {behind : List ℕ}
    (h : Reopened s s' kept behind) (hs : Sound s)
    (hsplit : s.activeFormattingElements = kept ++ behind.map some) : s'.kinds = s.kinds := by
  have hold : kept.map (Option.map s'.nodes) = kept.map (Option.map s.nodes) := by
    refine List.map_congr_left fun entry hentry => ?_
    cases entry with
    | none => rfl
    | some node =>
        refine congrArg some (h.old node (hs.listed node ?_))
        rw [hsplit]
        exact List.mem_append_left _ hentry
  have hclones := congrArg (List.map some) h.clones
  rw [List.map_map, List.map_map] at hclones
  rw [kinds, kinds, h.list, hsplit, List.map_append, List.map_append, hold, List.map_map,
    List.map_map]
  exact congrArg _ hclones

theorem Reopened.settled {s' : TreeBuilder} {kept : List (Option ℕ)} {behind : List ℕ}
    (h : Reopened s s' kept behind) (hkept : ∀ entry ∈ kept.getLast?, s.Settled entry) :
    ∀ entry ∈ s'.activeFormattingElements.getLast?, s'.Settled entry := by
  intro entry hentry node hnode
  rw [h.list] at hentry
  rw [h.opened, List.mem_append]
  cases behind with
  | nil =>
      rw [List.length_nil, List.range'_zero, List.map_nil, List.append_nil] at hentry
      exact .inl (hkept entry hentry node hnode)
  | cons first behind =>
      right
      have hmem := List.mem_of_getLast? hentry
      rw [List.getLast?_append_of_ne_nil _ (by simp)] at hentry
      obtain ⟨clone, hclone, rfl⟩ := List.mem_map.mp (List.mem_of_getLast? hentry)
      rwa [← Option.some.inj hnode]

theorem Sound.reconstruct (h : Sound s) : Sound s.reconstruct := by
  obtain ⟨kept, behind, hsplit, -, -, hreopened⟩ := reconstruct_reopened h
  have hclone : ∀ node ∈ List.range' s.nextNode behind.length,
      node < s.reconstruct.nextNode := by
    intro node hnode
    rw [hreopened.next]
    exact (List.mem_range'_1.mp hnode).2
  have hold : ∀ node < s.nextNode, node < s.reconstruct.nextNode := by
    intro node hnode
    rw [hreopened.next]
    omega
  have hnew : ∀ node ∈ List.range' s.nextNode behind.length,
      some node ∉ s.activeFormattingElements := fun node hnode hmem =>
    Nat.not_lt.mpr (List.mem_range'_1.mp hnode).1 (h.listed node hmem)
  have hkept : kept.Sublist s.activeFormattingElements := by
    rw [hsplit]
    exact List.sublist_append_left _ _
  refine
    { listed := fun node hnode => ?_
      opened := fun node hnode => ?_
      distinct := ?_
      nested := ?_
      ark := by rw [hreopened.kinds_eq h hsplit]; exact h.ark
      formatting := by rw [hreopened.kinds_eq h hsplit]; exact h.formatting }
  · rw [hreopened.list] at hnode
    rcases List.mem_append.mp hnode with hnode | hnode
    · exact hold node (h.listed node (hkept.subset hnode))
    · obtain ⟨clone, hmem, heq⟩ := List.mem_map.mp hnode
      exact Option.some.inj heq ▸ hclone clone hmem
  · rw [hreopened.opened] at hnode
    rcases List.mem_append.mp hnode with hnode | hnode
    · exact hold node (h.opened node hnode)
    · exact hclone node hnode
  · rw [hreopened.opened]
    refine h.distinct.append List.nodup_range' fun node hnode hmem => ?_
    exact Nat.not_lt.mpr (List.mem_range'_1.mp hmem).1 (h.opened node hnode)
  · rw [hreopened.list, hreopened.opened]
    have hbelow := (h.nested.sublist hkept (List.Sublist.refl _)).push
      fun node hnode hmem => hnew node hnode (hkept.subset hmem)
    refine hbelow.append (by simp) fun x y hx hy => ?_
    have hlisted : some x ∈ s.activeFormattingElements := hkept.subset (hx.subset (by simp))
    obtain ⟨clone, hmem, heq⟩ := List.mem_map.mp hy
    obtain rfl : clone = y := Option.some.inj heq
    refine ⟨fun heq => hnew clone hmem (heq ▸ hlisted), fun hsub => ?_⟩
    -- a clone is on the stack above all that was there
    have hfront := sublist_of_getLast?_notMem hsub fun x' hx' hmem' => by
      obtain rfl : x = x' := by simpa using hx'
      exact hnew x hmem' hlisted
    exact Nat.not_lt.mpr (List.mem_range'_1.mp hmem).1 (h.opened clone (hfront.subset (by simp)))

end TreeBuilder

end HtmlBenchmark.Gumbo
