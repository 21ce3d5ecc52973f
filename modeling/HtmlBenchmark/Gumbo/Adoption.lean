import HtmlBenchmark.Gumbo.Formatting
import Mathlib.Data.List.DropRight

/-!
The adoption agency, as in `gumbo-parser/parser.c`.

A formatting element that is closed inside of what was opened in it is taken
apart: clones take its place behind that, and the places of the formatting
elements in between. This is what it does to the list of active formatting
elements and to the open elements; the nodes it moves in the tree are left out.
Where an assertion fails, or nothing is there to be read, there is no result.
-/

namespace HtmlBenchmark.Gumbo

open Library

/-! ### Sets of tags -/

/-- `gumbo_tagset` -/
structure GumboTagset where
  html : List TagEnum
  mathml : List TagEnum
  svg : List TagEnum

/-- `TAGSET_INCLUDES` -/
def GumboTagset.includes (tags : GumboTagset) (tag : TagEnum) : GumboNamespace → Bool
  | .html => tags.html.contains tag
  | .mathml => tags.mathml.contains tag
  | .svg => tags.svg.contains tag

/-- `node_tag_in_set`, of an element -/
def nodeTagInSet (element : FormattingElement) (tags : GumboTagset) : Bool :=
  tags.includes element.tag element.tagNamespace

def isSpecialNode (element : FormattingElement) : Bool :=
  nodeTagInSet element
    { html := [
        .address, .applet, .area, .article, .aside, .base, .basefont, .bgsound, .blockquote,
        .body, .br, .button, .caption, .center, .col, .colgroup, .menuitem, .dd, .details, .dir,
        .div, .dl, .dt, .embed, .fieldset, .figcaption, .figure, .footer, .form, .frame,
        .frameset, .h1, .h2, .h3, .h4, .h5, .h6, .head, .header, .hgroup, .hr, .html, .iframe,
        .img, .input, .isindex, .li, .link, .listing, .marquee, .menu, .metaTag, .nav, .noembed,
        .noframes, .noscript, .object, .ol, .p, .param, .plaintext, .pre, .script, .sectionTag,
        .select, .style, .summary, .table, .tbody, .td, .template, .textarea, .tfoot, .th,
        .thead, .title, .tr, .ul, .wbr, .xmp]
      mathml := [.mi, .mo, .mn, .ms, .mtext, .annotationXml]
      svg := [.foreignobject, .desc] }

/-- The loop of `has_an_element_in_specific_scope`, for one tag and not negated, from
the last open element on. -/
def inSpecificScope (tag : TagEnum) (tags : GumboTagset) : List FormattingElement → Bool
  | [] => false
  | element :: elements =>
      if nodeQualifiedTagIs element .html tag then true
      else if nodeTagInSet element tags then false
      else inSpecificScope tag tags elements

namespace TreeBuilder

def hasAnElementInScope (s : TreeBuilder) (tag : TagEnum) : Bool :=
  inSpecificScope tag
    { html := [.applet, .caption, .html, .table, .td, .th, .marquee, .object, .template]
      mathml := [.mi, .mo, .mn, .ms, .mtext, .annotationXml]
      svg := [.foreignobject, .desc, .title] }
    (s.openElements.reverse.map s.nodes)

/-! ### The algorithm -/

/-- `clone_node` -/
def cloneNode (element : ℕ) (s : TreeBuilder) : TreeBuilder :=
  { s with
    nodes := Function.update s.nodes s.nextNode (s.nodes element)
    nextNode := s.nextNode + 1 }

/-- Step 5, with `i` entries before the one looked at. -/
def formattingNode (s : TreeBuilder) (subject : TagEnum) : ℕ → Option ℕ
  | 0 => none
  | i + 1 =>
      match s.activeFormattingElements[i]? with
      | some (some currentNode) =>
          if nodeQualifiedTagIs (s.nodes currentNode) .html subject then some currentNode
          else s.formattingNode subject i
      | _ => none

/-- What the loop of step 13 goes on with. -/
structure Adoption where
  parser : TreeBuilder
  node : ℕ
  lastNode : ℕ
  savedNodeIndex : ℕ
  bookmark : ℕ

/-- Step 13.5: the element is no longer listed. -/
def Adoption.unlist (node nodeIndex formattingIndex : ℕ) (a : Adoption) : Adoption :=
  { a with
    parser := { a.parser with
      activeFormattingElements := a.parser.activeFormattingElements.eraseIdx formattingIndex }
    node := node
    savedNodeIndex := nodeIndex
    bookmark := if formattingIndex < a.bookmark then a.bookmark - 1 else a.bookmark }

/-- Step 13.6: it is no longer open. -/
def Adoption.close (node nodeIndex : ℕ) (a : Adoption) : Adoption :=
  { a with
    parser := { a.parser with openElements := a.parser.openElements.eraseIdx nodeIndex }
    node := node
    savedNodeIndex := nodeIndex }

/-- Steps 13.7 to 13.10: a clone takes its places. -/
def Adoption.replace (furthestBlock node nodeIndex formattingIndex : ℕ) (a : Adoption) :
    Adoption :=
  let clone := a.parser.nextNode
  { parser := { a.parser.cloneNode node with
      openElements := a.parser.openElements.set nodeIndex clone
      activeFormattingElements :=
        a.parser.activeFormattingElements.set formattingIndex (some clone) }
    node := clone
    lastNode := clone
    savedNodeIndex := nodeIndex
    bookmark := if a.lastNode = furthestBlock then formattingIndex + 1 else a.bookmark }

/-- Steps 13.5 to 13.10 in round `j`, at the open element `node`. -/
def Adoption.next (furthestBlock j node nodeIndex : ℕ) (a : Adoption) : Adoption :=
  match a.parser.activeFormattingElements.idxOf? (some node) with
  | none => a.close node nodeIndex
  | some formattingIndex =>
      if 3 < j then a.unlist node nodeIndex formattingIndex
      else a.replace furthestBlock node nodeIndex formattingIndex

/-- The loop of step 13, for so many rounds and behind round `j`. -/
def adoptionLoop (formattingNode furthestBlock : ℕ) : ℕ → ℕ → Adoption → Option Adoption
  | 0, _, _ => none
  | rounds + 1, j, a =>
      let nodeIndex := (a.parser.openElements.idxOf? a.node).getD a.savedNodeIndex - 1
      if nodeIndex = 0 then none
      else
        match a.parser.openElements[nodeIndex]? with
        | none => none
        | some node =>
            if node = formattingNode then some a
            else
              adoptionLoop formattingNode furthestBlock rounds (j + 1)
                (a.next furthestBlock (j + 1) node nodeIndex)

/-- Steps 15, 18 and 19. -/
def Adoption.finish (formattingNode furthestBlock : ℕ) (a : Adoption) : Option TreeBuilder :=
  let newFormattingNode := a.parser.nextNode
  let s := a.parser.cloneNode formattingNode
  match s.activeFormattingElements.idxOf? (some formattingNode) with
  | none => none
  | some formattingNodeIndex =>
      let bookmark :=
        if formattingNodeIndex < a.bookmark then a.bookmark - 1 else a.bookmark
      let elements := s.activeFormattingElements.eraseIdx formattingNodeIndex
      if elements.length < bookmark then none
      else
        let opened := s.openElements.erase formattingNode
        let insertAt := (opened.idxOf? furthestBlock).elim 0 (· + 1)
        some { s with
          openElements := opened.insertIdx insertAt newFormattingNode
          activeFormattingElements := elements.insertIdx bookmark (some newFormattingNode) }

/-- Steps 11 to 19. -/
def adopt (formattingNode furthestBlock : ℕ) (s : TreeBuilder) : Option TreeBuilder :=
  match s.activeFormattingElements.idxOf? (some formattingNode),
    s.openElements.idxOf? furthestBlock with
  | some formattingIndex, some savedNodeIndex =>
      (adoptionLoop formattingNode furthestBlock s.openElements.length 0
        { parser := s
          node := furthestBlock
          lastNode := furthestBlock
          savedNodeIndex := savedNodeIndex
          bookmark := formattingIndex + 1 }).bind (Adoption.finish formattingNode furthestBlock)
  | _, _ => none

/-- Step 10: what is open from the formatting element on is closed. -/
def closeFormatting (formattingNode : ℕ) (s : TreeBuilder) : TreeBuilder :=
  { s.removeFormattingElement formattingNode with
    openElements := (s.openElements.rdropWhile (· ≠ formattingNode)).dropLast }

/-- Steps 5 to 19, and whether there is another round. -/
def adoptionRound (subject : TagEnum) (s : TreeBuilder) : Option (TreeBuilder × Bool) :=
  match s.formattingNode subject s.activeFormattingElements.length with
  | none => some (s, false)
  | some formattingNode =>
      match s.openElements.idxOf? formattingNode with
      | none => some (s.removeFormattingElement formattingNode, false)
      | some formattingIndex =>
          if !s.hasAnElementInScope (s.nodes formattingNode).tag then some (s, false)
          else if nodeQualifiedTagIs (s.nodes formattingNode) .html .html ||
              nodeQualifiedTagIs (s.nodes formattingNode) .html .body || formattingIndex = 0 then
            none
          else
            match (s.openElements.drop formattingIndex).find? fun node =>
              isSpecialNode (s.nodes node) with
            | none => some (s.closeFormatting formattingNode, false)
            | some furthestBlock =>
                if nodeQualifiedTagIs (s.nodes furthestBlock) .html .html then none
                else (s.adopt formattingNode furthestBlock).map fun s => (s, true)

/-- Steps 2 to 20, for so many rounds. -/
def adoptionRounds (subject : TagEnum) : ℕ → TreeBuilder → Option (TreeBuilder × Bool)
  | 0, s => some (s, true)
  | rounds + 1, s =>
      match s.adoptionRound subject with
      | none => none
      | some (s, false) => some (s, false)
      | some (s, true) => adoptionRounds subject rounds s

/-- `adoption_agency_algorithm`; what it returns is whether all rounds were made. -/
def adoptionAgencyAlgorithm (subject : TagEnum) (s : TreeBuilder) : Option (TreeBuilder × Bool) :=
  match s.openElements.getLast? with
  | none => none
  | some currentNode =>
      if nodeQualifiedTagIs (s.nodes currentNode) .html subject &&
          some currentNode ∉ s.activeFormattingElements then
        some (s.popCurrentNode, false)
      else adoptionRounds subject 8 s

/-! ### One round of the loop -/

/-- The segment behind the last marker may be put in another order. -/
theorem Ark.rearrange {front seg seg' : List (Option FormattingElement)} (h : Ark (front ++ seg))
    (hfront : front = [] ∨ ∃ f, front = f ++ [none]) (hnone : none ∉ seg)
    (hperm : seg'.Perm seg) : Ark (front ++ seg') := by
  have hseg' : ∀ t : List (Option FormattingElement), t.Sublist seg' → ∀ desired,
      t.countP (entryIsKind desired) ≤ 3 := by
    intro t ht desired
    refine Nat.le_trans ht.countP_le ?_
    rw [hperm.countP_eq]
    exact h seg (List.suffix_append front seg).isInfix hnone desired
  intro t ht hmarker desired
  rcases List.infix_append_iff.mp ht with ht | ht | ⟨l₁, l₂, rfl, hl₁, hl₂⟩
  · exact h.part (List.infix_append [] front _) t ht hmarker desired
  · exact hseg' t ht.sublist desired
  · rcases hfront with rfl | ⟨f, rfl⟩
    · rw [List.suffix_nil.mp hl₁]
      exact hseg' l₂ hl₂.sublist desired
    · rcases List.suffix_concat_iff.mp hl₁ with rfl | ⟨u, rfl, -⟩
      · exact hseg' l₂ hl₂.sublist desired
      · exact absurd (by simp) hmarker

variable {s : TreeBuilder}

@[simp] theorem cloneNode_nodes_self (s : TreeBuilder) (element : ℕ) :
    (s.cloneNode element).nodes s.nextNode = s.nodes element :=
  Function.update_self _ _ _

theorem cloneNode_nodes_of_lt {n : ℕ} (hn : n < s.nextNode) (element : ℕ) :
    (s.cloneNode element).nodes n = s.nodes n :=
  Function.update_of_ne (Nat.ne_of_lt hn) _ _

theorem Sound.kinds_cloneNode (h : Sound s) (element : ℕ) :
    (s.cloneNode element).kinds = s.kinds :=
  h.kinds_insertElement (s.nodes element)

/-- A clone takes the places of a node in the list and among the open elements. -/
theorem Sound.replace (h : Sound s) {i k node : ℕ}
    (hi : s.activeFormattingElements[i]? = some (some node)) (hk : s.openElements[k]? = some node) :
    Sound { s.cloneNode node with
      openElements := s.openElements.set k s.nextNode
      activeFormattingElements := s.activeFormattingElements.set i (some s.nextNode) } := by
  have hkinds : (s.activeFormattingElements.set i (some s.nextNode)).map
      (Option.map (s.cloneNode node).nodes) = s.kinds := by
    have hentry : s.kinds[i]? = some (some (s.nodes node)) := by simp [kinds, hi]
    rw [List.map_set, Option.map_some, cloneNode_nodes_self]
    exact (congrArg (List.set · i _) (h.kinds_cloneNode node)).trans (set_of_getElem? hentry)
  refine
    { listed := fun n hn => ?_
      opened := fun n hn => ?_
      distinct := h.distinct.set h.notMem_openElements
      nested := h.nested.set hi hk (fun hn => Nat.lt_irrefl _ (h.listed _ hn)) h.notMem_openElements
      ark := by rw [kinds, hkinds]; exact h.ark
      formatting := by rw [kinds, hkinds]; exact h.formatting }
  · rcases List.mem_or_eq_of_mem_set hn with hn | hn
    · exact Nat.lt_succ_of_lt (h.listed n hn)
    · rw [Option.some.inj hn]
      exact Nat.lt_succ_self _
  · rcases List.mem_or_eq_of_mem_set hn with hn | rfl
    · exact Nat.lt_succ_of_lt (h.opened n hn)
    · exact Nat.lt_succ_self _

/-- `html` comes first, and only there. -/
def RootFirst : List FormattingElement → Prop
  | [] => False
  | root :: rest => nodeQualifiedTagIs root .html .html = true ∧
      ∀ element ∈ rest, nodeQualifiedTagIs element .html .html = false

instance : DecidablePred RootFirst
  | [] => inferInstanceAs (Decidable False)
  | _ :: _ => inferInstanceAs (Decidable (_ ∧ _))

/-- The elements that are open. -/
def opens (s : TreeBuilder) : List FormattingElement :=
  s.openElements.map s.nodes

theorem RootFirst.rest {below upper : List FormattingElement} (h : RootFirst (below ++ upper))
    (hbelow : below ≠ []) : ∀ element ∈ upper, nodeQualifiedTagIs element .html .html = false := by
  obtain ⟨root, below, rfl⟩ := List.exists_cons_of_ne_nil hbelow
  exact fun element helement => h.2 element (List.mem_append_right _ helement)

theorem RootFirst.subset {below upper upper' : List FormattingElement}
    (h : RootFirst (below ++ upper)) (hbelow : below ≠ []) (hsubset : upper' ⊆ upper) :
    RootFirst (below ++ upper') := by
  obtain ⟨root, below, rfl⟩ := List.exists_cons_of_ne_nil hbelow
  refine ⟨h.1, List.forall_mem_append.mpr ⟨?_, ?_⟩⟩
  · exact fun element helement => h.2 element (List.mem_append_left _ helement)
  · exact fun element helement => h.2 element (List.mem_append_right _ (hsubset helement))

theorem Sound.opens_cloneNode (h : Sound s) (element : ℕ) :
    s.openElements.map (s.cloneNode element).nodes = s.opens :=
  List.map_congr_left fun _ hn => cloneNode_nodes_of_lt (h.opened _ hn) element

/-- What the loop keeps: it is about to come to the open elements `between`, the last
of them first, and then to the formatting element. That stands behind the last
marker of the list, and so does the bookmark. -/
structure Walking (rooted : Prop) (formattingNode furthestBlock : ℕ) (front : List (Option ℕ))
    (below between : List ℕ) (a : Adoption) : Prop where
  sound : Sound a.parser
  marker : front = [] ∨ ∃ f, front = f ++ [none]
  list : ∃ seg, a.parser.activeFormattingElements = front ++ seg ∧ none ∉ seg ∧
    some formattingNode ∈ seg
  behindMarker : front.length ≤ a.bookmark
  inList : a.bookmark ≤ a.parser.activeFormattingElements.length
  opened : ∃ behind, a.parser.openElements = below ++ formattingNode :: (between ++ behind) ∧
    furthestBlock ∈ behind
  place : (a.parser.openElements.idxOf? a.node).getD a.savedNodeIndex =
    below.length + 1 + between.length
  bottom : below ≠ []
  root : rooted → RootFirst a.parser.opens

section Walking

variable {rooted : Prop} {formattingNode furthestBlock : ℕ} {front : List (Option ℕ)}
  {below between : List ℕ} {a : Adoption}

theorem length_walked (below between : List ℕ) (formattingNode : ℕ) :
    (below ++ formattingNode :: between).length = below.length + 1 + between.length := by
  simp only [List.length_append, List.length_cons]
  omega

/-- The open element the loop comes to. -/
theorem Walking.arrived {node : ℕ}
    (h : Walking rooted formattingNode furthestBlock front below (between ++ [node]) a) :
    ∃ behind, a.parser.openElements = (below ++ formattingNode :: between) ++ node :: behind ∧
      furthestBlock ∈ behind ∧ node ∉ below ++ formattingNode :: between ∧ node ∉ behind ∧
      some node ∉ front := by
  obtain ⟨seg, hlist, -, hmem⟩ := h.list
  obtain ⟨behind, hopened, hblock⟩ := h.opened
  have hopened' : a.parser.openElements =
      (below ++ formattingNode :: between) ++ node :: behind := by simp [hopened]
  obtain ⟨-, hnodup, hdisjoint⟩ := List.nodup_append.mp (hopened' ▸ h.sound.distinct)
  refine ⟨behind, hopened', hblock, fun hin => ?_, (List.nodup_cons.mp hnodup).1, ?_⟩
  · exact hdisjoint node hin node (List.mem_cons_self ..) rfl
  · refine (hlist ▸ h.sound.nested).notMem_front h.marker hmem (.inr ?_)
    rw [hopened']
    exact (List.singleton_sublist.mpr (by simp)).append (List.singleton_sublist.mpr (by simp))

/-- Where it is listed. -/
theorem Walking.listed {node i : ℕ}
    (h : Walking rooted formattingNode furthestBlock front below (between ++ [node]) a)
    (hi : a.parser.activeFormattingElements.idxOf? (some node) = some i) :
    ∃ seg₁ seg₂, a.parser.activeFormattingElements = front ++ seg₁ ++ some node :: seg₂ ∧
      none ∉ seg₁ ++ seg₂ ∧ some formattingNode ∈ seg₁ ++ seg₂ ∧
      i = (front ++ seg₁).length := by
  obtain ⟨seg, hlist, hnone, hmem⟩ := h.list
  obtain ⟨behind, -, -, hdistinct, -, hfront⟩ := h.arrived
  have hin : some node ∈ seg := by
    have hlisted : some node ∈ front ++ seg := by
      rw [← hlist]
      by_contra hnot
      rw [List.idxOf?_eq_none_iff.mpr hnot] at hi
      cases hi
    exact (List.mem_append.mp hlisted).resolve_left hfront
  obtain ⟨seg₁, seg₂, rfl, hfirst⟩ := List.eq_append_cons_of_mem hin
  rw [← List.append_assoc] at hlist
  rw [hlist, idxOf?_append_cons (by simp [hfront, hfirst])] at hi
  have hne : formattingNode ≠ node := by
    rintro rfl
    exact hdistinct (by simp)
  refine ⟨seg₁, seg₂, hlist, ?_, ?_, (Option.some.inj hi).symm⟩
  · rw [List.mem_append, List.mem_cons] at hnone
    rw [List.mem_append]
    exact fun hin => hnone (hin.imp_right .inr)
  · rw [List.mem_append, List.mem_cons] at hmem
    rw [List.mem_append]
    refine hmem.imp_right fun hin => hin.resolve_left fun heq => hne (Option.some.inj heq)

theorem Walking.unlist {node i : ℕ}
    (h : Walking rooted formattingNode furthestBlock front below (between ++ [node]) a)
    (hi : a.parser.activeFormattingElements.idxOf? (some node) = some i) :
    Walking rooted formattingNode furthestBlock front below between
      (a.unlist node (below.length + 1 + between.length) i) := by
  obtain ⟨behind, hopened, hblock, hdistinct, -, -⟩ := h.arrived
  obtain ⟨seg₁, seg₂, hlist, hnone, hmem, rfl⟩ := h.listed hi
  have hbehind := h.behindMarker
  have hin := h.inList
  have herase : a.parser.activeFormattingElements.eraseIdx (front ++ seg₁).length =
      front ++ (seg₁ ++ seg₂) := by
    rw [hlist, eraseIdx_append_cons, List.append_assoc]
  have hentry : a.parser.activeFormattingElements[(front ++ seg₁).length]? = some (some node) :=
    hlist ▸ getElem?_append_cons _ _ _
  refine
    { sound := h.sound.eraseIdx hentry (List.Sublist.refl _)
      marker := h.marker
      list := ⟨seg₁ ++ seg₂, herase, hnone, hmem⟩
      behindMarker := ?_
      inList := ?_
      opened := ⟨node :: behind, by simp [Adoption.unlist, hopened], List.mem_cons_of_mem _ hblock⟩
      place := ?_
      bottom := h.bottom
      root := h.root }
  · simp only [Adoption.unlist, List.length_append]
    split_ifs <;> omega
  · have hlength := congrArg List.length hlist
    simp only [List.length_append, List.length_cons] at hlength
    have hrest := congrArg List.length herase
    simp only [List.length_append] at hrest
    simp only [Adoption.unlist, List.length_append]
    split_ifs <;> omega
  · simp only [Adoption.unlist, hopened, idxOf?_append_cons hdistinct, Option.getD_some,
      length_walked]

theorem Walking.close {node : ℕ}
    (h : Walking rooted formattingNode furthestBlock front below (between ++ [node]) a) :
    Walking rooted formattingNode furthestBlock front below between
      (a.close node (below.length + 1 + between.length)) := by
  obtain ⟨behind, hopened, hblock, hdistinct, hlast, -⟩ := h.arrived
  have herase : a.parser.openElements.eraseIdx (below.length + 1 + between.length) =
      (below ++ formattingNode :: between) ++ behind := by
    rw [hopened, ← length_walked below between formattingNode, eraseIdx_append_cons]
  refine
    { sound := h.sound.sublist (List.eraseIdx_sublist _ _) (List.Sublist.refl _) h.sound.ark
      marker := h.marker
      list := h.list
      behindMarker := h.behindMarker
      inList := h.inList
      opened := ⟨behind, by simp [Adoption.close, herase], hblock⟩
      place := ?_
      bottom := h.bottom
      root := fun hrooted => ?_ }
  · have hgone : node ∉ (below ++ formattingNode :: between) ++ behind := by
      rw [List.mem_append]
      exact fun hin => hin.elim hdistinct hlast
    simp only [Adoption.close, herase, List.idxOf?_eq_none_iff.mpr hgone, Option.getD_none]
  · have hroot := h.root hrooted
    rw [opens, hopened, List.append_assoc, List.map_append] at hroot
    rw [opens, Adoption.close, herase, List.append_assoc, List.map_append]
    refine hroot.subset (by simpa using h.bottom) (List.map_subset _ ?_)
    exact ((List.Sublist.refl _).append (List.sublist_cons_self node behind)).subset

theorem Walking.replace {node i : ℕ}
    (h : Walking rooted formattingNode furthestBlock front below (between ++ [node]) a)
    (hi : a.parser.activeFormattingElements.idxOf? (some node) = some i) :
    Walking rooted formattingNode furthestBlock front below between
      (a.replace furthestBlock node (below.length + 1 + between.length) i) := by
  obtain ⟨behind, hopened, hblock, hdistinct, -, -⟩ := h.arrived
  obtain ⟨seg₁, seg₂, hlist, hnone, hmem, rfl⟩ := h.listed hi
  have hlength := length_walked below between formattingNode
  have hset : a.parser.activeFormattingElements.set (front ++ seg₁).length
      (some a.parser.nextNode) = front ++ (seg₁ ++ some a.parser.nextNode :: seg₂) := by
    rw [hlist, set_append_cons, List.append_assoc]
  have hsetOpen : a.parser.openElements.set (below.length + 1 + between.length)
      a.parser.nextNode = (below ++ formattingNode :: between) ++ a.parser.nextNode :: behind := by
    rw [hopened, ← hlength, set_append_cons]
  have hentry : a.parser.activeFormattingElements[(front ++ seg₁).length]? = some (some node) :=
    hlist ▸ getElem?_append_cons _ _ _
  have hopen : a.parser.openElements[below.length + 1 + between.length]? = some node := by
    rw [hopened, ← hlength, getElem?_append_cons]
  have hnew : a.parser.nextNode ∉ below ++ formattingNode :: between := fun hin =>
    h.sound.notMem_openElements (by rw [hopened]; exact List.mem_append_left _ hin)
  have hbehind := h.behindMarker
  have hin := h.inList
  refine
    { sound := h.sound.replace hentry hopen
      marker := h.marker
      list := ⟨_, hset, ?_, ?_⟩
      behindMarker := ?_
      inList := ?_
      opened := ⟨a.parser.nextNode :: behind, by simp [Adoption.replace, hsetOpen],
        List.mem_cons_of_mem _ hblock⟩
      place := ?_
      bottom := h.bottom
      root := fun hrooted => ?_ }
  · simpa using hnone
  · simp only [List.mem_append, List.mem_cons] at hmem ⊢
    exact hmem.imp_right .inr
  · simp only [Adoption.replace, List.length_append]
    split_ifs <;> omega
  · have hlength := congrArg List.length hlist
    simp only [List.length_append, List.length_cons] at hlength
    simp only [Adoption.replace, List.length_set, List.length_append]
    split_ifs <;> omega
  · simp only [Adoption.replace, hsetOpen, idxOf?_append_cons hnew, Option.getD_some,
      length_walked]
  · have hold := cloneNode_nodes_of_lt (h.sound.opened node (List.mem_of_getElem? hopen)) node
    have hroot := h.root hrooted
    rw [← h.sound.opens_cloneNode node, hopened, List.map_append, List.map_cons, hold,
      ← cloneNode_nodes_self] at hroot
    rw [opens, Adoption.replace, hsetOpen, List.map_append, List.map_cons]
    exact hroot

/-- The round at `node`. -/
theorem Walking.next {node : ℕ}
    (h : Walking rooted formattingNode furthestBlock front below (between ++ [node]) a) (j : ℕ) :
    Walking rooted formattingNode furthestBlock front below between
      (a.next furthestBlock j node (below.length + 1 + between.length)) := by
  rw [Adoption.next]
  split
  · exact h.close
  · rename_i i hi
    split_ifs
    · exact h.unlist hi
    · exact h.replace hi

/-- The loop comes to the formatting element, if that is not the first open one. -/
theorem Walking.adoptionLoop (h : Walking rooted formattingNode furthestBlock front below between a)
    {rounds : ℕ} (hrounds : between.length < rounds) (j : ℕ) :
    ∃ a', adoptionLoop formattingNode furthestBlock rounds j a = some a' ∧
      Walking rooted formattingNode furthestBlock front below [] a' := by
  have hpos : 0 < below.length := List.length_pos_iff.mpr h.bottom
  induction rounds generalizing between a j with
  | zero => omega
  | succ rounds ih =>
      have hplace := h.place
      rw [TreeBuilder.adoptionLoop, hplace]
      have hindex : ¬below.length + 1 + between.length - 1 = 0 := by omega
      rw [if_neg hindex]
      rcases List.eq_nil_or_concat' between with rfl | ⟨between, node, rfl⟩
      · obtain ⟨behind, hopened, -⟩ := h.opened
        have hget : a.parser.openElements[below.length + 1 + 0 - 1]? = some formattingNode := by
          rw [hopened]
          simp
        rw [List.length_nil, hget]
        exact ⟨a, if_pos rfl, h⟩
      · obtain ⟨behind, hopened, -, hdistinct, -⟩ := h.arrived
        have hlength : below.length + 1 + (between ++ [node]).length - 1 =
            (below ++ formattingNode :: between).length := by
          simp only [List.length_append, List.length_cons, List.length_nil]
          omega
        have hget : a.parser.openElements[(below ++ formattingNode :: between).length]? =
            some node := hopened ▸ getElem?_append_cons _ _ _
        have hne : node ≠ formattingNode := by
          rintro rfl
          exact hdistinct (by simp)
        rw [hlength, hget]
        simp only [if_neg hne]
        rw [length_walked]
        refine ih (h.next (j + 1)) ?_ (j + 1)
        rw [List.length_append, List.length_singleton] at hrounds
        omega

end Walking

/-! ### One round of the algorithm -/

/-- A clone of a formatting element, somewhere behind the last marker and above a node
that was opened in it, replaces that element. -/
theorem Sound.adopted (h : Sound s) {front seg seg' rest : List (Option ℕ)}
    (hlist : s.activeFormattingElements = front ++ seg)
    (hmarker : front = [] ∨ ∃ f, front = f ++ [none]) (hnone : none ∉ seg) {formattingNode : ℕ}
    (hseg : seg.Perm (some formattingNode :: rest)) (hseg' : seg'.Perm (some s.nextNode :: rest))
    {below inner above : List ℕ}
    (hopened : s.openElements = below ++ formattingNode :: (inner ++ above)) :
    Sound { s.cloneNode formattingNode with
      openElements := (below ++ inner) ++ s.nextNode :: above
      activeFormattingElements := front ++ seg' } := by
  have hlisted : ∀ {x}, some x ∈ front ++ seg → x < s.nextNode := fun {x} hx =>
    h.listed x (by rwa [hlist])
  have hmem : some formattingNode ∈ seg := hseg.mem_iff.mpr (List.mem_cons_self ..)
  have hrest : ∀ {entry}, entry ∈ rest → entry ∈ seg := fun hin =>
    hseg.mem_iff.mpr (List.mem_cons_of_mem _ hin)
  have hold : (below ++ inner ++ above).Sublist s.openElements := by
    rw [hopened, List.append_assoc]
    exact (List.Sublist.refl _).append (List.sublist_cons_self _ _)
  have hnested := hlist ▸ h.nested
  -- the list with the element still in it, beside the new stack
  have hnested' : Nested (front ++ seg) ((below ++ inner) ++ s.nextNode :: above) :=
    (hnested.sublist (List.Sublist.refl _) hold).insert fun hin => Nat.lt_irrefl _ (hlisted hin)
  have hkinds : (front ++ seg).map (Option.map (s.cloneNode formattingNode).nodes) = s.kinds :=
    hlist ▸ h.kinds_cloneNode formattingNode
  have hperm : (seg'.map (Option.map (s.cloneNode formattingNode).nodes)).Perm
      (seg.map (Option.map (s.cloneNode formattingNode).nodes)) := by
    refine (hseg'.map _).trans (.trans ?_ (hseg.map _).symm)
    rw [List.map_cons, List.map_cons, Option.map_some, Option.map_some, cloneNode_nodes_self,
      cloneNode_nodes_of_lt (hlisted (List.mem_append_right _ hmem))]
  have hark := h.ark
  rw [← hkinds, List.map_append] at hark
  have hnew : s.nextNode ∉ below ++ inner ++ above := fun hin =>
    h.notMem_openElements (hold.subset hin)
  refine
    { listed := fun n hn => ?_
      opened := fun n hn => ?_
      distinct := ?_
      nested := (hnested'.sublist (List.sublist_append_left _ _) (List.Sublist.refl _)).append
        ?_ fun x y hx hy => ?_
      ark := ?_
      formatting := fun element helement => ?_ }
  · rcases List.mem_append.mp hn with hn | hn
    · exact Nat.lt_succ_of_lt (hlisted (List.mem_append_left _ hn))
    · rcases List.mem_cons.mp (hseg'.mem_iff.mp hn) with hn | hn
      · rw [Option.some.inj hn]
        exact Nat.lt_succ_self _
      · exact Nat.lt_succ_of_lt (hlisted (List.mem_append_right _ (hrest hn)))
  · rcases List.mem_cons.mp (List.perm_middle.mem_iff.mp hn) with rfl | hn
    · exact Nat.lt_succ_self _
    · exact Nat.lt_succ_of_lt (h.opened n (hold.subset hn))
  · exact List.perm_middle.nodup_iff.mpr ((h.distinct.sublist hold).cons hnew)
  · intro hin
    rcases List.mem_cons.mp (hseg'.mem_iff.mp hin) with hin | hin
    · cases hin
    · exact hnone (hrest hin)
  · rcases List.mem_cons.mp (hseg'.mem_iff.mp hy) with hy | hy
    · obtain rfl : y = s.nextNode := Option.some.inj hy
      have hxlisted : some x ∈ front := hx.subset (by simp)
      refine ⟨Nat.ne_of_lt (hlisted (List.mem_append_left _ hxlisted)), fun habove => ?_⟩
      -- what is above the clone is above the formatting element
      have hx' := sublist_of_head?_notMem habove fun n hn => by
        obtain rfl : s.nextNode = n := by simpa using hn
        exact fun hin => hnew (List.mem_append_left _ hin)
      have hxabove : x ∈ above := List.singleton_sublist.mp (List.cons_sublist_cons.mp hx')
      refine (hnested.behind hx hmem).2 ?_
      rw [hopened]
      refine (List.nil_sublist below).append ?_
      exact List.cons_sublist_cons.mpr (List.singleton_sublist.mpr (by simp [hxabove]))
    · exact hnested'.behind hx (hrest hy)
  · rw [kinds, List.map_append]
    refine hark.rearrange ?_ (by simpa using hnone) hperm
    rcases hmarker with rfl | ⟨f, rfl⟩
    · exact .inl rfl
    · exact .inr ⟨f.map _, by rw [List.map_append]; rfl⟩
  · refine h.formatting element ?_
    rw [kinds, List.map_append] at helement
    rw [← hkinds, List.map_append]
    exact (hperm.append_left _).mem_iff.mp helement

/-- Behind the loop no assertion fails. -/
theorem Walking.finish {rooted : Prop} {formattingNode furthestBlock : ℕ}
    {front : List (Option ℕ)} {below : List ℕ} {a : Adoption}
    (h : Walking rooted formattingNode furthestBlock front below [] a) :
    ∃ s', a.finish formattingNode furthestBlock = some s' ∧ Sound s' ∧
      (rooted → RootFirst s'.opens) := by
  obtain ⟨seg, hlist, hnone, hmem⟩ := h.list
  obtain ⟨behind, hopened, hblock⟩ := h.opened
  have hfront : some formattingNode ∉ front :=
    (hlist ▸ h.sound.nested).notMem_front h.marker hmem (.inl rfl)
  obtain ⟨seg₁, seg₂, rfl, hfirst⟩ := List.eq_append_cons_of_mem hmem
  obtain ⟨inner, above, rfl, hinner⟩ := List.eq_append_cons_of_mem hblock
  obtain ⟨-, hnodup, hdisjoint⟩ := List.nodup_append.mp (hopened ▸ h.sound.distinct)
  have hbelow : formattingNode ∉ below := fun hin =>
    hdisjoint _ hin _ (List.mem_cons_self ..) rfl
  have hbelow' : furthestBlock ∉ below := fun hin => hdisjoint _ hin _ (by simp) rfl
  have hindex : a.parser.activeFormattingElements.idxOf? (some formattingNode) =
      some (front ++ seg₁).length := by
    rw [hlist, ← List.append_assoc]
    exact idxOf?_append_cons (by simp [hfront, hfirst]) _
  have herase : a.parser.activeFormattingElements.eraseIdx (front ++ seg₁).length =
      front ++ (seg₁ ++ seg₂) := by
    rw [hlist, ← List.append_assoc, eraseIdx_append_cons, List.append_assoc]
  have hclosed : a.parser.openElements.erase formattingNode =
      (below ++ inner) ++ furthestBlock :: above := by
    rw [hopened, List.erase_append_right _ hbelow, List.erase_cons_head, List.nil_append,
      List.append_assoc]
  have hplace : ((below ++ inner) ++ furthestBlock :: above).idxOf? furthestBlock =
      some (below ++ inner).length :=
    idxOf?_append_cons (by simp [hbelow', hinner]) _
  have hinsert : ((below ++ inner) ++ furthestBlock :: above).insertIdx
      ((below ++ inner).length + 1) a.parser.nextNode =
        (below ++ (inner ++ [furthestBlock])) ++ a.parser.nextNode :: above := by
    rw [insertIdx_append, List.insertIdx_succ_cons, List.insertIdx_zero]
    simp
  obtain ⟨k, hk, hle⟩ : ∃ k, (if (front ++ seg₁).length < a.bookmark then a.bookmark - 1
      else a.bookmark) = front.length + k ∧ k ≤ (seg₁ ++ seg₂).length := by
    have hbehind := h.behindMarker
    have hin := h.inList
    rw [hlist] at hin
    simp only [List.length_append, List.length_cons] at hin ⊢
    refine ⟨(if front.length + seg₁.length < a.bookmark then a.bookmark - 1 else a.bookmark) -
      front.length, ?_, ?_⟩ <;> split_ifs <;> omega
  have hperm : ((seg₁ ++ seg₂).insertIdx k (some a.parser.nextNode)).Perm
      (some a.parser.nextNode :: (seg₁ ++ seg₂)) := List.perm_insertIdx _ _ hle
  have hopened' : a.parser.openElements =
      below ++ formattingNode :: ((inner ++ [furthestBlock]) ++ above) := by simp [hopened]
  have hsound := h.sound.adopted hlist h.marker hnone List.perm_middle hperm hopened'
  refine ⟨_, ?_, hsound, fun hrooted => ?_⟩
  · rw [Adoption.finish]
    dsimp only [cloneNode]
    rw [hindex]
    dsimp only
    rw [herase, hk, hclosed, hplace, Option.elim_some, hinsert, insertIdx_append, if_neg]
    rw [List.length_append]
    omega
  · have hroot := h.root hrooted
    have hold := cloneNode_nodes_of_lt (h.sound.opened formattingNode (by simp [hopened]))
      formattingNode
    rw [← h.sound.opens_cloneNode formattingNode, hopened, List.map_append] at hroot
    rw [opens, List.append_assoc, List.map_append]
    refine hroot.subset (by simpa using h.bottom) fun element helement => ?_
    simp only [List.map_append, List.map_cons, List.map_nil, List.mem_append, List.mem_cons,
      List.not_mem_nil, cloneNode_nodes_self, hold] at helement ⊢
    tauto

/-- Steps 11 to 19, where something is open above the formatting element. -/
theorem Sound.adopt (h : Sound s) {formattingNode furthestBlock : ℕ} {pre post : List (Option ℕ)}
    (hlist : s.activeFormattingElements = pre ++ some formattingNode :: post) (hpost : none ∉ post)
    {below between above : List ℕ}
    (hopened : s.openElements = below ++ formattingNode :: (between ++ furthestBlock :: above))
    (hbelow : below ≠ []) :
    ∃ s', s.adopt formattingNode furthestBlock = some s' ∧ Sound s' ∧
      (RootFirst s.opens → RootFirst s'.opens) := by
  obtain ⟨front, seg, rfl, hseg, hmarker⟩ := exists_segment pre
  rw [List.append_assoc] at hlist
  have hmem : some formattingNode ∈ seg ++ some formattingNode :: post := by simp
  have hnone : none ∉ seg ++ some formattingNode :: post := by simp [hseg, hpost]
  have hfront : some formattingNode ∉ front :=
    (hlist ▸ h.nested).notMem_front hmarker hmem (.inl rfl)
  obtain ⟨i, hindex, hle, hlt⟩ : ∃ i, s.activeFormattingElements.idxOf? (some formattingNode) =
      some i ∧ front.length ≤ i ∧ i < s.activeFormattingElements.length := by
    obtain ⟨seg₁, seg₂, hsplit, hfirst⟩ := List.eq_append_cons_of_mem hmem
    rw [hlist, hsplit, ← List.append_assoc]
    refine ⟨_, idxOf?_append_cons (by simp [hfront, hfirst]) _, ?_, ?_⟩ <;> simp
  have hblock : furthestBlock ∉ below ++ formattingNode :: between := by
    have hsplit : s.openElements =
        (below ++ formattingNode :: between) ++ furthestBlock :: above := by simp [hopened]
    exact fun hin => (List.nodup_append.mp (hsplit ▸ h.distinct)).2.2 _ hin _
      (List.mem_cons_self ..) rfl
  have hplace : s.openElements.idxOf? furthestBlock = some (below.length + 1 + between.length) := by
    rw [← length_walked below between formattingNode, ← idxOf?_append_cons hblock above, hopened]
    simp
  have hwalking : Walking (RootFirst s.opens) formattingNode furthestBlock front below between
      { parser := s
        node := furthestBlock
        lastNode := furthestBlock
        savedNodeIndex := below.length + 1 + between.length
        bookmark := i + 1 } :=
    { sound := h
      marker := hmarker
      list := ⟨_, hlist, hnone, hmem⟩
      behindMarker := Nat.le_succ_of_le hle
      inList := hlt
      opened := ⟨_, hopened, List.mem_cons_self ..⟩
      place := by rw [hplace, Option.getD_some]
      bottom := hbelow
      root := id }
  have hrounds : between.length < s.openElements.length := by
    rw [hopened]
    simp only [List.length_append, List.length_cons]
    omega
  obtain ⟨a, hloop, hwalked⟩ := hwalking.adoptionLoop hrounds 0
  obtain ⟨s', hfinish, hsound, hroot⟩ := hwalked.finish
  refine ⟨s', ?_, hsound, hroot⟩
  rw [TreeBuilder.adopt, hindex, hplace]
  dsimp only
  rw [hloop, Option.bind_some, hfinish]

/-- The last entry of the tag, if there is no marker behind it. -/
theorem formattingNode_spec {subject : TagEnum} {i node : ℕ}
    (hi : i ≤ s.activeFormattingElements.length)
    (hnode : s.formattingNode subject i = some node) :
    ∃ pre post, s.activeFormattingElements.take i = pre ++ some node :: post ∧ none ∉ post := by
  induction i with
  | zero => cases hnode
  | succ i ih =>
      have htake := List.take_append_getElem (show i < s.activeFormattingElements.length by omega)
      rw [formattingNode, List.getElem?_eq_getElem (by omega)] at hnode
      rw [← htake]
      cases hentry : s.activeFormattingElements[i] with
      | none =>
          rw [hentry] at hnode
          cases hnode
      | some currentNode =>
          rw [hentry] at hnode
          dsimp only at hnode
          split_ifs at hnode
          · cases hnode
            exact ⟨_, [], rfl, List.not_mem_nil⟩
          · obtain ⟨pre, post, hsplit, hnone⟩ := ih (by omega) hnode
            refine ⟨pre, post ++ [some currentNode], by simp [hsplit], by simp [hnone]⟩

theorem isSpecialNode_of_isFormatting {element : FormattingElement} (h : IsFormatting element) :
    isSpecialNode element = false := by
  have htags : ∀ tag ∈ formattingTags,
      isSpecialNode { markerElement with tag := tag } = false := by decide
  obtain ⟨hnamespace, htag⟩ := h
  have helement := htags _ htag
  rw [isSpecialNode, nodeTagInSet] at helement ⊢
  rw [hnamespace]
  exact helement

theorem IsFormatting.tag_ne {element : FormattingElement} (h : IsFormatting element) {tag : TagEnum}
    (htag : tag ∉ formattingTags) : nodeQualifiedTagIs element .html tag = false := by
  have hne : element.tag ≠ tag := fun heq => htag (heq ▸ h.2)
  simp [nodeQualifiedTagIs, hne]

theorem closeFormatting_openElements {formattingNode : ℕ} {below upper : List ℕ}
    (hopened : s.openElements = below ++ formattingNode :: upper)
    (hupper : formattingNode ∉ upper) :
    (s.closeFormatting formattingNode).openElements = below := by
  have hdrop : (upper.reverse ++ formattingNode :: below.reverse).dropWhile
      (fun node => decide (node ≠ formattingNode)) = formattingNode :: below.reverse := by
    rw [List.dropWhile_append_of_pos]
    · rw [List.dropWhile_cons_of_neg (by simp)]
    · intro node hnode
      rw [decide_eq_true_eq]
      rintro rfl
      exact hupper (List.mem_reverse.mp hnode)
  rw [closeFormatting]
  dsimp only
  rw [hopened, List.rdropWhile, List.reverse_append, List.reverse_cons, List.append_assoc,
    List.singleton_append, hdrop]
  simp

/-- Either a round keeps what holds, or it fails an assertion, and `html` is not the
first open element alone. -/
theorem Sound.adoptionRound (h : Sound s) (subject : TagEnum) :
    (∃ s' goesOn, s.adoptionRound subject = some (s', goesOn) ∧ Sound s' ∧
      (RootFirst s.opens → RootFirst s'.opens)) ∨
    s.adoptionRound subject = none ∧ ¬RootFirst s.opens := by
  rw [TreeBuilder.adoptionRound]
  split
  · exact .inl ⟨_, _, rfl, h, id⟩
  rename_i node hnode
  obtain ⟨pre, post, hlist, hpost⟩ := formattingNode_spec (Nat.le_refl _) hnode
  rw [List.take_length] at hlist
  have hformatting : IsFormatting (s.nodes node) :=
    h.formatting _ (List.mem_map.mpr ⟨some node, by simp [hlist], rfl⟩)
  split
  · exact .inl ⟨_, _, rfl, h.removeFormattingElement node, id⟩
  rename_i i hi
  obtain ⟨below, upper, hopened, -, rfl⟩ := exists_of_idxOf? hi
  split_ifs with hscope hassert
  · exact .inl ⟨_, _, rfl, h, id⟩
  · refine .inr ⟨rfl, fun hroot => ?_⟩
    rw [hformatting.tag_ne (by decide), hformatting.tag_ne (by decide), Bool.false_or,
      Bool.false_or, decide_eq_true_eq, List.length_eq_zero_iff] at hassert
    subst hassert
    rw [opens, hopened, List.nil_append, List.map_cons] at hroot
    have hhtml := hroot.1
    rw [hformatting.tag_ne (by decide)] at hhtml
    cases hhtml
  have hbelow : below ≠ [] := by
    rintro rfl
    simp at hassert
  have hupper : node ∉ upper := by
    have hnodup := hopened ▸ h.distinct
    exact (List.nodup_cons.mp (List.nodup_append.mp hnodup).2.1).1
  have hopens : s.opens = below.map s.nodes ++ s.nodes node :: upper.map s.nodes := by
    rw [opens, hopened, List.map_append, List.map_cons]
  split
  · refine .inl ⟨_, _, rfl, ?_, fun hroot => ?_⟩
    · refine (h.removeFormattingElement node).sublist ?_ (List.Sublist.refl _)
        (h.removeFormattingElement node).ark
      exact (List.dropLast_sublist _).trans (List.rdropWhile_prefix _ _).sublist
    · rw [hopens] at hroot
      rw [opens, closeFormatting_openElements hopened hupper, ← List.append_nil (below.map _)]
      exact hroot.subset (by simpa using hbelow) (List.nil_subset _)
  · rename_i furthestBlock hfind
    rw [hopened, List.drop_left] at hfind
    obtain ⟨hspecial, between, above, hsplit, -⟩ := List.find?_eq_some_iff_append.mp hfind
    cases between with
    | nil =>
        obtain ⟨rfl, -⟩ := List.cons.inj hsplit
        rw [isSpecialNode_of_isFormatting hformatting] at hspecial
        cases hspecial
    | cons first between =>
        obtain ⟨rfl, rfl⟩ := List.cons.inj hsplit
        split_ifs with hhtml
        · refine .inr ⟨rfl, fun hroot => ?_⟩
          rw [hopens] at hroot
          have hrest := hroot.rest (by simpa using hbelow) (s.nodes furthestBlock) (by simp)
          rw [hrest] at hhtml
          cases hhtml
        · obtain ⟨s', hadopt, hsound, hroot⟩ := h.adopt hlist hpost hopened hbelow
          exact .inl ⟨s', true, by rw [hadopt]; rfl, hsound, hroot⟩

theorem Sound.adoptionRounds (h : Sound s) (subject : TagEnum) (rounds : ℕ) :
    (∃ s' success, adoptionRounds subject rounds s = some (s', success) ∧ Sound s' ∧
      (RootFirst s.opens → RootFirst s'.opens)) ∨
    adoptionRounds subject rounds s = none ∧ ¬RootFirst s.opens := by
  induction rounds generalizing s with
  | zero => exact .inl ⟨_, _, rfl, h, id⟩
  | succ rounds ih =>
      rw [TreeBuilder.adoptionRounds]
      rcases h.adoptionRound subject with ⟨s', goesOn, hround, hsound, hroot⟩ | ⟨hround, hroot⟩
      · rw [hround]
        cases goesOn with
        | false => exact .inl ⟨_, _, rfl, hsound, hroot⟩
        | true =>
            rcases ih hsound with ⟨s'', success, hrounds, hsound', hroot'⟩ | ⟨hrounds, hroot'⟩
            · exact .inl ⟨s'', success, hrounds, hsound', fun h => hroot' (hroot h)⟩
            · exact .inr ⟨hrounds, fun h => hroot' (hroot h)⟩
      · rw [hround]
        exact .inr ⟨rfl, hroot⟩

/-- Either the algorithm keeps what holds, or it fails an assertion, and `html` is not
the first open element alone. -/
theorem Sound.adoptionAgencyAlgorithm (h : Sound s) {subject : TagEnum}
    (hsubject : subject ∈ formattingTags) :
    (∃ s' success, s.adoptionAgencyAlgorithm subject = some (s', success) ∧ Sound s' ∧
      (RootFirst s.opens → RootFirst s'.opens)) ∨
    s.adoptionAgencyAlgorithm subject = none ∧ ¬RootFirst s.opens := by
  rw [TreeBuilder.adoptionAgencyAlgorithm]
  rcases List.eq_nil_or_concat' s.openElements with hnil | ⟨init, currentNode, hopened⟩
  · rw [hnil]
    refine .inr ⟨rfl, fun hroot => ?_⟩
    rw [opens, hnil] at hroot
    exact hroot
  rw [hopened, List.getLast?_concat]
  dsimp only
  split_ifs with hcurrent
  · refine .inl ⟨_, _, rfl, h.popCurrentNode, fun hroot => ?_⟩
    rw [Bool.and_eq_true, nodeQualifiedTagIs, Bool.and_eq_true, decide_eq_true_eq] at hcurrent
    rw [opens, hopened, List.map_append] at hroot
    have hinit : init ≠ [] := by
      rintro rfl
      have hhtml := hroot.1
      rw [nodeQualifiedTagIs, Bool.and_eq_true, decide_eq_true_eq, hcurrent.1.1] at hhtml
      exact absurd (hhtml.1 ▸ hsubject) (by decide)
    rw [opens, TreeBuilder.popCurrentNode, hopened, List.dropLast_concat,
      ← List.append_nil (init.map _)]
    exact hroot.subset (by simpa using hinit) (List.nil_subset _)
  · exact h.adoptionRounds subject 8


end TreeBuilder

end HtmlBenchmark.Gumbo
