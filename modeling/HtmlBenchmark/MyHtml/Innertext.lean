import HtmlBenchmark.MyHtml.Adapter
import HtmlBenchmark.Library.Lists

/-!
The text MyHTML's walk collects.

The walk is along a list of siblings, and is begun at the body; so it goes on
to what stands behind the body. It takes whatever `myhtml_node_text` returns a
text for, which a comment is too. What it collects below an element is copied
once more, as a string of C, and so loses what stands behind a 0.
-/

namespace HtmlBenchmark.MyHtml

open Library

/-! ### The walk -/

/-- What the loop appends from a node on. -/
def gathered : TreeNode → List UInt8
  | .null => []
  | .node (some text) _ next => copied text ++ gathered next
  | .node none child next => copied (gathered child) ++ gathered next

theorem innertextLoop_spec (node : TreeNode) {contents : StringT} (hc : contents.Valid) :
    (innertextLoop node contents).Valid ∧
      (innertextLoop node contents).contents = contents.contents ++ gathered node := by
  induction node generalizing contents with
  | null => exact ⟨hc, (List.append_nil _).symm⟩
  | node text child next ihChild ihNext =>
      cases text with
      | some text =>
          obtain ⟨hvalid, hcontents⟩ := ihNext (stringAppend_valid hc (cstr text) text.length)
          refine ⟨hvalid, hcontents.trans ?_⟩
          rw [stringAppend_cstr hc, gathered, List.append_assoc]
      | none =>
          cases child with
          | null => exact ihNext hc
          | node text child' next' =>
              obtain ⟨htmp, htmpContents⟩ := ihChild stringInit_valid
              rw [stringInit_contents, List.nil_append] at htmpContents
              obtain ⟨hvalid, hcontents⟩ := ihNext (stringAppend_valid hc _ _)
              refine ⟨hvalid, hcontents.trans ?_⟩
              rw [stringAppend_copied hc htmp, htmpContents, gathered, List.append_assoc]

theorem innertext_contents (node : TreeNode) : (innertext node).contents = gathered node := by
  cases node with
  | null => rfl
  | node text child next => exact (innertextLoop_spec _ stringInit_valid).2

/-! ### Trees -/

/-- A text or a comment, with its bytes. -/
inductive LeafData
  | text (data : List UInt8)
  | comment (data : List UInt8)

def LeafData.data : LeafData → List UInt8
  | .text data => data
  | .comment data => data

/-- The bytes that belong to the text of the page. -/
def LeafData.ofText : LeafData → List UInt8
  | .text data => data
  | .comment _ => []

/-- A node with everything below it. -/
abbrev HtmlNode := OrderedTree LeafData Unit

/-- `myhtml_node_text` of a leaf; there is none without a byte. -/
def myhtmlNodeText (a : LeafData) : Option (List UInt8) := if a.data = [] then none else some a.data

mutual

/-- A node linked to its children and its next sibling. -/
def linkNode : HtmlNode → TreeNode → TreeNode
  | .leaf a, next => .node (myhtmlNodeText a) .null next
  | .inner _ ts, next => .node none (link ts .null) next

def link : List HtmlNode → TreeNode → TreeNode
  | [], next => next
  | t :: ts, next => linkNode t (link ts next)

end

/-- All bytes of the leaves of the nodes. -/
def dataIn (nodes : List HtmlNode) : List UInt8 :=
  (OrderedTree.fringeAll nodes).flatMap LeafData.data

def textIn (nodes : List HtmlNode) : List UInt8 :=
  (OrderedTree.fringeAll nodes).flatMap LeafData.ofText

mutual

theorem gathered_linkNode : ∀ (node : HtmlNode) (next : TreeNode),
    gathered (linkNode node next) = copied (node.fringe.flatMap LeafData.data) ++ gathered next
  | .leaf a, next => by
      rw [linkNode, myhtmlNodeText, OrderedTree.fringe, List.flatMap_singleton]
      split_ifs with hdata
      · rw [hdata]
        rfl
      · rfl
  | .inner _ ts, next => by
      rw [linkNode, gathered, gathered_link ts .null, OrderedTree.fringe, gathered, List.append_nil,
        copied_flatMap_copied, OrderedTree.fringeAll_eq_flatMap, List.flatMap_assoc]

theorem gathered_link : ∀ (nodes : List HtmlNode) (next : TreeNode),
    gathered (link nodes next) =
      (nodes.flatMap fun node => copied (node.fringe.flatMap LeafData.data)) ++ gathered next
  | [], _ => rfl
  | node :: nodes, next => by
      rw [link, gathered_linkNode node, gathered_link nodes, List.flatMap_cons, List.append_assoc]

end

/-! ### The body -/

/-- What `innertext` returns for a body with these children and nodes behind
it. -/
theorem innertext_body (children behind : List HtmlNode) :
    (innertext (link (.inner () children :: behind) .null)).contents =
      copied (dataIn children) ++
        behind.flatMap fun node => copied (node.fringe.flatMap LeafData.data) := by
  rw [innertext_contents, gathered_link, gathered, List.append_nil]
  rfl

/-- The copies are as long as the data. -/
theorem length_innertext_body (children behind : List HtmlNode) :
    (innertext (link (.inner () children :: behind) .null)).contents.length =
      (dataIn children).length + (dataIn behind).length := by
  have hbehind : (behind.flatMap fun node => copied (node.fringe.flatMap LeafData.data)).length =
      (dataIn behind).length := by
    rw [dataIn, OrderedTree.fringeAll_eq_flatMap, List.flatMap_assoc, List.length_flatMap,
      List.length_flatMap]
    simp only [length_copied]
  rw [innertext_body, List.length_append, length_copied, hbehind]

theorem length_ofText_le (a : LeafData) : a.ofText.length ≤ a.data.length := by
  cases a with
  | text data => exact Nat.le_refl _
  | comment data => exact Nat.zero_le _

theorem length_textIn_le (nodes : List HtmlNode) :
    (textIn nodes).length ≤ (dataIn nodes).length := by
  rw [textIn, dataIn, List.length_flatMap, List.length_flatMap]
  exact sum_map_le fun a _ => length_ofText_le a

/-- There is no comment with data exactly if all data is text. -/
theorem length_textIn_eq_iff (nodes : List HtmlNode) :
    (textIn nodes).length = (dataIn nodes).length ↔
      ∀ a ∈ OrderedTree.fringeAll nodes, a.ofText = a.data := by
  rw [textIn, dataIn, List.length_flatMap, List.length_flatMap,
    sum_map_eq_iff fun a _ => length_ofText_le a]
  refine forall₂_congr fun a _ => ?_
  cases a with
  | text data => exact iff_of_true rfl rfl
  | comment data => exact ⟨fun h => (List.length_eq_zero_iff.mp h.symm).symm, congrArg List.length⟩

theorem dataIn_eq_nil_iff (nodes : List HtmlNode) :
    dataIn nodes = [] ↔ ∀ a ∈ OrderedTree.fringeAll nodes, a.data = [] :=
  List.flatMap_eq_nil_iff

/-- Nodes without data add nothing. -/
theorem copied_eq_nil_of_no_data {nodes : List HtmlNode}
    (h : ∀ a ∈ OrderedTree.fringeAll nodes, a.data = []) :
    (nodes.flatMap fun node => copied (node.fringe.flatMap LeafData.data)) = [] := by
  rw [List.flatMap_eq_nil_iff]
  intro node hnode
  have hempty : node.fringe.flatMap LeafData.data = [] := by
    rw [List.flatMap_eq_nil_iff]
    intro a ha
    refine h a ?_
    rw [OrderedTree.fringeAll_eq_flatMap]
    exact List.mem_flatMap.mpr ⟨node, hnode, ha⟩
  rw [hempty, copied_nil]

/-- **The text of the body** is collected, and nothing else, exactly if no comment
of the body has data, no leaf behind the body has, and nothing but zeros stands
behind a 0 of the text. -/
theorem innertext_eq_textIn_iff (children behind : List HtmlNode) :
    (innertext (link (.inner () children :: behind) .null)).contents = textIn children ↔
      (∀ a ∈ OrderedTree.fringeAll children, a.ofText = a.data) ∧
        (∀ a ∈ OrderedTree.fringeAll behind, a.data = []) ∧ ZerosLast (textIn children) := by
  have hdata : (∀ a ∈ OrderedTree.fringeAll children, a.ofText = a.data) →
      textIn children = dataIn children := List.flatMap_congr
  constructor
  · intro h
    -- Nothing can be missing: what is collected is at least as long as the data of the body.
    have hlength := congrArg List.length h
    have hle := length_textIn_le children
    rw [length_innertext_body] at hlength
    have hchildren := (length_textIn_eq_iff children).mp (by omega)
    have hbehind := List.length_eq_zero_iff.mp (show (dataIn behind).length = 0 by omega)
    have hzeros : copied (textIn children) = textIn children := by
      rw [innertext_body, ← hdata hchildren] at h
      exact (List.append_inj (h.trans (List.append_nil _).symm) (length_copied _)).1
    exact ⟨hchildren, (dataIn_eq_nil_iff behind).mp hbehind, (copied_eq_self_iff _).mp hzeros⟩
  · rintro ⟨hchildren, hbehind, hzeros⟩
    rw [innertext_body, copied_eq_nil_of_no_data hbehind, List.append_nil, ← hdata hchildren]
    exact (copied_eq_self_iff _).mpr hzeros

/-- A comment in the body is collected. -/
theorem not_forall_innertext_eq_textIn :
    ¬∀ children behind : List HtmlNode,
      (innertext (link (.inner () children :: behind) .null)).contents = textIn children := by
  intro h
  exact absurd (h [.leaf (.comment (bytes "a"))] []) (by decide)

end HtmlBenchmark.MyHtml
