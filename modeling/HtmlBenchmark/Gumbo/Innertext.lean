import HtmlBenchmark.Gumbo.Adapter
import HtmlBenchmark.Library.Lists

/-!
The text gumbo's walk collects.

An element is to have the texts of its children with a space between them, those
without a text left out. The walk puts the space in front of every text but that
of the first child, whether or not there is a text before it. So a text is
preceded by a space that separates it from nothing when the first child has no
text, and by one space between two texts otherwise, however many children
without a text stand between them.
-/

namespace HtmlBenchmark.Gumbo

open Library

/-- The elements the walk goes into. -/
def Visible (e : GumboElement) : Prop :=
  e.type = .element ∧ e.tag ≠ .script ∧ e.tag ≠ .style ∧ e.tag ≠ .title

instance (e : GumboElement) : Decidable (Visible e) := inferInstanceAs (Decidable (_ ∧ _ ∧ _ ∧ _))

mutual

/-- There is something for the walk to collect. -/
def hasText : GumboNode → Bool
  | .leaf t => t.type = .text ∧ t.text.bytes ≠ []
  | .inner e children => Visible e ∧ anyText children

def anyText : List GumboNode → Bool
  | [] => false
  | child :: children => hasText child || anyText children

end

/-- The texts of those nodes that have one. -/
def texts (nodes : List GumboNode) : List (List UInt8) :=
  (nodes.map fun node => (innertext node).contents).filter (· ≠ [])

def sizes (nodes : List GumboNode) : List ℕ :=
  (nodes.map fun node => (innertext node).size).filter (· ≠ 0)

/-- What the text of a node should be, given the texts of its children. -/
def joined : GumboNode → List UInt8
  | .leaf t => if t.type = .text then t.text.bytes else []
  | .inner e children => if Visible e then (bytes " ").intercalate (texts children) else []

/-- What its size should be, given the sizes of theirs. -/
def joinedSize : GumboNode → ℕ
  | .leaf t => if t.type = .text then t.text.bytes.length else 0
  | .inner e children =>
      if Visible e then (sizes children).sum + ((sizes children).length - 1) else 0

/-- The node has the text it should have. -/
structure JoinedAt (node : GumboNode) : Prop where
  contents : (innertext node).contents = joined node
  size : (innertext node).size = joinedSize node

/-- The first child has no text, and a later one has. -/
def LeadingGap : GumboNode → Prop
  | .inner e (child :: children) => Visible e ∧ hasText child = false ∧ anyText children
  | _ => False

/-! ### One round of the loop -/

/-- What the loop does to `contents` at the child at `i`. -/
def joinText (i : ℕ) (contents text : StringT) : StringT :=
  let contents :=
    if i ≠ 0 ∧ text.size ≠ 0 then stringAppend contents (cstr (bytes " ")) 1 else contents
  if text.size ≠ 0 then stringAppend contents (cstr text.data) text.size else contents

theorem joinChildren_cons (i : ℕ) (child : GumboNode) (children : List GumboNode)
    (contents : StringT) : joinChildren i (child :: children) contents =
      joinChildren (i + 1) children (joinText i contents (innertext child)) := by
  rw [joinChildren]
  rfl

theorem innertext_inner (e : GumboElement) (children : List GumboNode) :
    innertext (.inner e children) =
      if Visible e then joinChildren 0 children stringInit else stringNil := by
  rw [innertext]
  rfl

theorem size_joinText (i : ℕ) (contents text : StringT) :
    (joinText i contents text).size ≠ 0 ↔ contents.size ≠ 0 ∨ text.size ≠ 0 := by
  rw [joinText]
  by_cases hsize : text.size = 0
  · simp [hsize]
  · simp [hsize]

/-- No string, or one in order. -/
def Returned (d : StringT) : Prop := d.size ≠ 0 → Clean d

theorem Returned.length_contents {d : StringT} (h : Returned d) : d.contents.length = d.size := by
  by_cases hsize : d.size = 0
  · rw [StringT.contents, hsize]
    rfl
  · exact (h hsize).valid.length_contents

theorem Returned.contents_eq_nil {d : StringT} (h : Returned d) :
    d.contents = [] ↔ d.size = 0 := by
  rw [← List.length_eq_zero_iff, h.length_contents]

/-- A text that is not empty is appended, behind a space unless the child is
the first. -/
theorem joinText_spec {contents text : StringT} (hc : Clean contents) (ht : Returned text)
    (i : ℕ) :
    Clean (joinText i contents text) ∧
      (joinText i contents text).contents = contents.contents ++
        if text.contents = [] then [] else (if i ≠ 0 then bytes " " else []) ++ text.contents := by
  have hspace : (0 : UInt8) ∉ bytes " " := by decide
  rw [joinText]
  by_cases hsize : text.size = 0
  · simp only [hsize, ne_eq, not_true_eq_false, and_false, if_false, ht.contents_eq_nil, if_true]
    exact ⟨hc, (List.append_nil _).symm⟩
  · have htext := ht hsize
    simp only [ne_eq, hsize, not_false_eq_true, and_true, if_true, ht.contents_eq_nil, if_false]
    by_cases hi : i = 0
    · simp only [hi, not_true_eq_false, if_false, List.nil_append]
      exact hc.appendString htext
    · obtain ⟨hclean, hcontents⟩ := hc.append hspace
      obtain ⟨hclean', hcontents'⟩ := hclean.appendString htext
      simp only [hi, not_false_eq_true, if_true]
      refine ⟨hclean', hcontents'.trans ?_⟩
      rw [hcontents, List.append_assoc]

/-! ### What a call returns -/

mutual

theorem returned_innertext : ∀ node : GumboNode, Returned (innertext node)
  | .leaf t => by
      rw [innertext]
      split_ifs
      · exact fun _ => (clean_stringInit.append t.text.noNul).1
      · exact fun h => absurd rfl h
  | .inner e children => by
      rw [innertext_inner]
      split_ifs
      · exact fun _ => clean_joinChildren 0 children clean_stringInit
      · exact fun h => absurd rfl h

theorem clean_joinChildren (i : ℕ) : ∀ (children : List GumboNode) {contents : StringT},
    Clean contents → Clean (joinChildren i children contents)
  | [], _, hc => hc
  | child :: children, _, hc => by
      rw [joinChildren_cons]
      exact clean_joinChildren (i + 1) children (joinText_spec hc (returned_innertext child) i).1

end

mutual

theorem size_innertext_ne_zero : ∀ node : GumboNode, (innertext node).size ≠ 0 ↔ hasText node
  | .leaf t => by
      rw [innertext, hasText]
      split_ifs with htype
      · simp [htype, stringInit]
      · simp [htype, stringNil]
  | .inner e children => by
      rw [innertext_inner, hasText]
      split_ifs with hvisible
      · rw [size_joinChildren_ne_zero 0 children stringInit]
        simp [hvisible, stringInit]
      · simp [hvisible, stringNil]

theorem size_joinChildren_ne_zero (i : ℕ) : ∀ (children : List GumboNode) (contents : StringT),
    (joinChildren i children contents).size ≠ 0 ↔ contents.size ≠ 0 ∨ anyText children
  | [], contents => by simp [joinChildren, anyText]
  | child :: children, contents => by
      rw [joinChildren_cons, size_joinChildren_ne_zero (i + 1) children, size_joinText,
        size_innertext_ne_zero child, anyText, Bool.or_eq_true, or_assoc]

end

theorem contents_innertext_eq_nil (node : GumboNode) :
    (innertext node).contents = [] ↔ hasText node = false := by
  rw [(returned_innertext node).contents_eq_nil, ← Bool.not_eq_true, ← size_innertext_ne_zero,
    not_not]

theorem texts_cons (child : GumboNode) (children : List GumboNode) :
    texts (child :: children) =
      if hasText child then (innertext child).contents :: texts children else texts children := by
  have hempty := contents_innertext_eq_nil child
  rw [texts, List.map_cons, List.filter_cons]
  cases htext : hasText child with
  | false => simp [hempty.mpr htext, texts]
  | true => simp [hempty, htext, texts]

theorem texts_eq_nil_iff (nodes : List GumboNode) : texts nodes = [] ↔ anyText nodes = false := by
  induction nodes with
  | nil => simp [texts, anyText]
  | cons node nodes ih =>
      rw [texts_cons, anyText]
      cases hasText node <;> simp [ih]

theorem sizes_eq (nodes : List GumboNode) : sizes nodes = (texts nodes).map List.length := by
  have hsize : ∀ node : GumboNode, (innertext node).size = (innertext node).contents.length :=
    fun node => (returned_innertext node).length_contents.symm
  induction nodes with
  | nil => rfl
  | cons node nodes ih =>
      rw [sizes] at ih
      have hnonzero := size_innertext_ne_zero node
      rw [texts_cons, sizes, List.map_cons, List.filter_cons, ih]
      cases htext : hasText node with
      | false => simp_all
      | true => simp_all

/-- Behind the first child every text has a space in front of it. -/
theorem contents_joinChildren (children : List GumboNode) {contents : StringT}
    (hc : Clean contents) (i : ℕ) (hi : i ≠ 0) :
    (joinChildren i children contents).contents =
      contents.contents ++ (texts children).flatMap (bytes " " ++ ·) := by
  induction children generalizing contents i with
  | nil => exact (List.append_nil _).symm
  | cons child children ih =>
      obtain ⟨hclean, hcontents⟩ := joinText_spec hc (returned_innertext child) i
      have hempty := contents_innertext_eq_nil child
      rw [joinChildren_cons, ih hclean (i + 1) (by omega), hcontents, texts_cons, if_pos hi]
      cases htext : hasText child with
      | false => simp [hempty.mpr htext]
      | true => simp [hempty, htext]

theorem contents_innertext_inner {e : GumboElement} (hvisible : Visible e) (child : GumboNode)
    (children : List GumboNode) : (innertext (.inner e (child :: children))).contents =
      (innertext child).contents ++ (texts children).flatMap (bytes " " ++ ·) := by
  obtain ⟨hclean, hcontents⟩ := joinText_spec clean_stringInit (returned_innertext child) 0
  rw [innertext_inner, if_pos hvisible, joinChildren_cons,
    contents_joinChildren children hclean 1 (by omega), hcontents]
  split_ifs with hnil <;> simp_all

/-! ### The separators -/

/-- A space in front of the first text makes the text longer than it should be. -/
theorem flatMap_eq_intercalate_iff (texts : List (List UInt8)) :
    texts.flatMap (bytes " " ++ ·) = (bytes " ").intercalate texts ↔ texts = [] := by
  cases texts with
  | nil => exact iff_of_true rfl rfl
  | cons text rest =>
      rw [intercalate_cons_eq, List.flatMap_cons]
      refine iff_of_false (fun h => ?_) (List.cons_ne_nil _ _)
      have hlength := congrArg List.length h
      have hspace : (bytes " ").length = 1 := rfl
      simp only [List.length_append, hspace] at hlength
      omega

theorem contents_inner_eq_joined_iff {e : GumboElement} (hvisible : Visible e) (child : GumboNode)
    (children : List GumboNode) :
    (innertext (.inner e (child :: children))).contents = joined (.inner e (child :: children)) ↔
      ¬LeadingGap (.inner e (child :: children)) := by
  rw [joined, if_pos hvisible, contents_innertext_inner hvisible, texts_cons, LeadingGap,
    and_iff_right hvisible]
  cases htext : hasText child with
  | true =>
      rw [if_pos rfl, intercalate_cons_eq]
      simp
  | false =>
      rw [(contents_innertext_eq_nil child).mpr htext, List.nil_append, if_neg (by simp),
        and_iff_right rfl, Bool.not_eq_true, ← texts_eq_nil_iff]
      exact flatMap_eq_intercalate_iff (texts children)

theorem contents_eq_joined_iff (node : GumboNode) :
    (innertext node).contents = joined node ↔ ¬LeadingGap node := by
  cases node with
  | leaf t =>
      rw [innertext, joined]
      refine iff_of_true ?_ not_false
      split_ifs
      · exact (clean_stringInit.append t.text.noNul).2
      · rfl
  | inner e children =>
      by_cases hvisible : Visible e
      · cases children with
        | nil =>
            rw [innertext_inner, joined, if_pos hvisible, if_pos hvisible]
            exact iff_of_true rfl not_false
        | cons child children => exact contents_inner_eq_joined_iff hvisible child children
      · have hgap : ¬LeadingGap (.inner e children) := by
          cases children with
          | nil => exact not_false
          | cons child children => exact fun h => hvisible h.1
        rw [innertext_inner, joined, if_neg hvisible, if_neg hvisible]
        exact iff_of_true rfl hgap

theorem length_joined (node : GumboNode) : (joined node).length = joinedSize node := by
  cases node with
  | leaf t =>
      rw [joined, joinedSize]
      split_ifs <;> rfl
  | inner e children =>
      have hspace : (bytes " ").length = 1 := rfl
      rw [joined, joinedSize]
      split_ifs
      · rw [length_intercalate, sizes_eq, List.length_map, hspace, Nat.mul_one]
      · rfl

theorem joinedAt_iff (node : GumboNode) : JoinedAt node ↔ ¬LeadingGap node := by
  rw [← contents_eq_joined_iff]
  refine ⟨JoinedAt.contents, fun h => ⟨h, ?_⟩⟩
  rw [← (returned_innertext node).length_contents, h, length_joined]

/-- **The separators.** Every node of a tree has the texts of its children with
a space between them exactly when no element of the tree begins with a child
without a text and has one with a text. -/
theorem forall_joinedAt_iff (root : GumboNode) :
    (∀ node ∈ root.subtrees, JoinedAt node) ↔ ∀ node ∈ root.subtrees, ¬LeadingGap node :=
  forall₂_congr fun node _ => joinedAt_iff node

def paragraph (children : List GumboNode) : GumboNode :=
  .inner { type := .element, tag := .other, attributes := [] } children

def blankLeaf : GumboNode := .leaf { type := .whitespace, text := ⟨bytes " ", by decide⟩ }

def textLeaf : GumboNode := .leaf { type := .text, text := nameA }

/-- White space in front of a text, and it begins with a space. -/
theorem not_forall_joinedAt :
    ¬∀ root : GumboNode, ∀ node ∈ root.subtrees, JoinedAt node := by
  intro h
  have hsize := (h (paragraph [blankLeaf, textLeaf]) _ (OrderedTree.mem_subtrees_self _)).size
  exact absurd hsize (by decide)

end HtmlBenchmark.Gumbo
