import HtmlBenchmark.Gumbo.Innertext
import HtmlBenchmark.Libxml2.Chunks
import HtmlBenchmark.Library.Lists
import HtmlBenchmark.MyHtml.Innertext

/-!
The text three adapters collect from one document.

The libxml2 handlers are an automaton over the events, the gumbo walk recurses
over the elements, the MyHTML walk follows sibling lists. Up to blanks each of
them takes the document leaf by leaf, and whether it takes a leaf depends only
on the context of the leaf: what was opened and closed before it, what is
around it. So the three agree as soon as they agree about every leaf that holds
more than blanks.
-/

namespace HtmlBenchmark.Agreement

open Library

/-- The characters of a text that are not blank. -/
def ink (s : List UInt8) : List UInt8 := s.filter fun c => !isspace c

/-- `html` with its `head`, its `body`, and the comments behind the body. -/
structure Document where
  html : Element
  head : Element
  body : Element
  headChildren : List Node
  bodyChildren : List Node
  comments : List CString
  htmlName : html.name = nameHtml
  headName : head.name = nameHead
  bodyName : body.name = nameBody

def Document.fromBody (doc : Document) : List Node :=
  .inner doc.body doc.bodyChildren :: doc.comments.map fun data => .leaf (.comment data)

def Document.root (doc : Document) : Node :=
  .inner doc.html (.inner doc.head doc.headChildren :: doc.fromBody)

/-! ### Which leaves are taken -/

abbrev Leaf := Context Content Element

def Content.isText : Content → Bool
  | .text _ _ => true
  | .comment _ => false

/-- Of the elements `name`, more recently one was opened than closed. -/
def insideAfter (name : CString) (past : List (Event Content Element)) : Bool :=
  past.foldl (fun inside event =>
    match event with
    | .start e => if e.name = name then true else inside
    | .finish e => if e.name = name then false else inside
    | .leaf _ => inside) false

/-- Text inside a body and not inside a script, going by the last tag of each. -/
def libxml2Takes (c : Leaf) : Bool :=
  Content.isText c.leaf && insideAfter nameBody c.past && !insideAfter nameScript c.past

def hidden (e : Element) : Bool :=
  e.name = nameScript || e.name = nameStyle || e.name = nameTitle

/-- Text with no `script`, `style` or `title` around it. -/
def gumboTakes (c : Leaf) : Bool := Content.isText c.leaf && !c.path.any hidden

/-- Whatever is inside the body of the document or behind it. -/
def myHtmlTakes (c : Leaf) : Bool :=
  match c.path with
  | _ :: e :: _ => e.name = nameBody
  | _ => true

def inkTaken (takes : Leaf → Bool) (cs : List Leaf) : List UInt8 :=
  cs.flatMap fun c => if takes c then ink (MyHtml.textOf c.leaf) else []

/-- All three adapters take the leaf, or none does, or there is nothing but
blanks in it. -/
def SameForAll (c : Leaf) : Prop :=
  ink (MyHtml.textOf c.leaf) = [] ∨
    libxml2Takes c = gumboTakes c ∧ gumboTakes c = myHtmlTakes c

instance (c : Leaf) : Decidable (SameForAll c) := inferInstanceAs (Decidable (_ ∨ _ ∧ _))

@[simp] theorem ink_append (s t : List UInt8) : ink (s ++ t) = ink s ++ ink t :=
  List.filter_append ..

theorem ink_eq_nil {s : List UInt8} (h : s.all isspace) : ink s = [] := by
  rw [ink, List.filter_eq_nil_iff]
  intro c hc
  simp [List.all_eq_true.mp h c hc]

@[simp] theorem inkTaken_append (takes : Leaf → Bool) (cs cs' : List Leaf) :
    inkTaken takes (cs ++ cs') = inkTaken takes cs ++ inkTaken takes cs' :=
  List.flatMap_append

@[simp] theorem inkTaken_singleton (takes : Leaf → Bool) (c : Leaf) :
    inkTaken takes [c] = if takes c then ink (MyHtml.textOf c.leaf) else [] :=
  List.append_nil _

theorem inkTaken_eq_nil {takes : Leaf → Bool} {cs : List Leaf} (h : ∀ c ∈ cs, takes c = false) :
    inkTaken takes cs = [] := by
  rw [inkTaken, List.flatMap_eq_nil_iff]
  intro c hc
  simp [h c hc]

theorem inkTaken_congr {takes takes' : Leaf → Bool} {cs : List Leaf}
    (h : ∀ c ∈ cs, ink (MyHtml.textOf c.leaf) = [] ∨ takes c = takes' c) :
    inkTaken takes cs = inkTaken takes' cs := by
  rw [inkTaken, inkTaken]
  refine List.flatMap_congr fun c hc => ?_
  rcases h c hc with hblank | heq
  · simp [hblank]
  · rw [heq]

/-- Where one of two takes no more than the other and they end up with the
same ink, they take the same. -/
theorem takes_eq_of_inkTaken_eq {takes takes' : Leaf → Bool} {cs : List Leaf}
    (hle : ∀ c ∈ cs, ink (MyHtml.textOf c.leaf) ≠ [] → takes c → takes' c)
    (h : inkTaken takes cs = inkTaken takes' cs) :
    ∀ c ∈ cs, ink (MyHtml.textOf c.leaf) = [] ∨ takes c = takes' c := by
  have hlength := congrArg List.length h
  rw [inkTaken, inkTaken, List.length_flatMap, List.length_flatMap, sum_map_eq_iff] at hlength
  · intro c hc
    by_cases hink : ink (MyHtml.textOf c.leaf) = []
    · exact Or.inl hink
    · have hpos := List.length_pos_iff.mpr hink
      have heq := hlength c hc
      refine Or.inr ?_
      cases htakes : takes c <;> cases htakes' : takes' c <;> simp_all
  · intro c hc
    by_cases hink : ink (MyHtml.textOf c.leaf) = []
    · simp [hink]
    · have himp := hle c hc hink
      cases htakes : takes c <;> cases htakes' : takes' c <;> simp_all

/-! ### The handlers of libxml2 -/

section Libxml2

open Libxml2

theorem insideAfter_append (name : CString) (past : List (Event Content Element))
    (event : Event Content Element) :
    insideAfter name (past ++ [event]) =
      match event with
      | .start e => if e.name = name then true else insideAfter name past
      | .finish e => if e.name = name then false else insideAfter name past
      | .leaf _ => insideAfter name past := by
  rw [insideAfter, List.foldl_append]
  rfl

/-- The flags say what was last opened or closed. -/
structure FlagsAfter (past : List (Event Content Element)) (state : ParserState) : Prop where
  body : state.insideBody = insideAfter nameBody past
  script : state.insideScript = insideAfter nameScript past
  valid : state.innertext.Valid

theorem FlagsAfter.calls {past : List (Event Content Element)} {state : ParserState}
    (h : FlagsAfter past state) (event : Event Content Element) :
    FlagsAfter (past ++ [event]) (state.calls (callsOf event)) := by
  refine ⟨?_, ?_, calls_valid h.valid _⟩
  · rw [insideAfter_append]
    cases event with
    | start e =>
        show (startElement state e.name (attsOf e.attributes)).insideBody = _
        rw [startElement_insideBody, h.body]
        by_cases hname : e.name = nameBody <;> simp [hname]
    | leaf a =>
        cases a with
        | text data hdata => exact (characters_sameFlags state data.bytes).insideBody.trans h.body
        | comment data => exact h.body
    | finish e =>
        show (endElement state e.name).insideBody = _
        rw [endElement_insideBody, h.body]
        by_cases hname : e.name = nameBody <;> simp [hname]
  · rw [insideAfter_append]
    cases event with
    | start e =>
        show (startElement state e.name (attsOf e.attributes)).insideScript = _
        rw [startElement_insideScript, h.script]
        by_cases hname : e.name = nameScript <;> simp [hname]
    | leaf a =>
        cases a with
        | text data hdata =>
            exact (characters_sameFlags state data.bytes).insideScript.trans h.script
        | comment data => exact h.script
    | finish e =>
        show (endElement state e.name).insideScript = _
        rw [endElement_insideScript, h.script]
        by_cases hname : e.name = nameScript <;> simp [hname]

/-- The ink the handlers add for a leaf with that past. -/
def libxml2Ink (leaf : List (Event Content Element) × Content) : List UInt8 :=
  if libxml2Takes { past := leaf.1, path := [], leaf := leaf.2 } then ink (MyHtml.textOf leaf.2)
  else []

/-- A callback adds the ink of its text, or none of it. -/
theorem ink_added {past : List (Event Content Element)} {state : ParserState}
    (h : FlagsAfter past state) (data : CString) (hdata : data.bytes ≠ []) :
    ink (added state data.bytes) = libxml2Ink (past, .text data hdata) := by
  have hcollects : state.collects =
      libxml2Takes { past := past, path := [], leaf := .text data hdata } := by
    rw [ParserState.collects, h.body, h.script]
    rfl
  rw [added, libxml2Ink, ← hcollects]
  split_ifs with hc hblank htext
  · -- Blanks become one space or nothing, and neither has ink.
    rw [MyHtml.textOf, ink_eq_nil hblank]
    rfl
  · rw [MyHtml.textOf, ink_eq_nil hblank]
    rfl
  · rw [MyHtml.textOf, copied_of_noNul data.noNul]
  · rfl

theorem ink_calls_event {past : List (Event Content Element)} {state : ParserState}
    (h : FlagsAfter past state) (event : Event Content Element) :
    ink (state.calls (callsOf event)).innertext.contents =
      ink state.innertext.contents ++ (OrderedTree.leaves past [event]).flatMap libxml2Ink := by
  cases event with
  | start e =>
      show ink (startElement state e.name (attsOf e.attributes)).innertext.contents = _
      rw [startElement_innertext]
      exact (List.append_nil _).symm
  | finish e =>
      show ink (endElement state e.name).innertext.contents = _
      rw [endElement_innertext]
      exact (List.append_nil _).symm
  | leaf a =>
      cases a with
      | comment data => exact (List.append_nil _).symm
      | text data hdata =>
          show ink (characters state data.bytes).innertext.contents = _
          rw [characters_contents h.valid, ink_append, ink_added h data hdata]
          exact congrArg _ (List.append_nil _).symm

theorem ink_calls {past : List (Event Content Element)} {state : ParserState}
    (h : FlagsAfter past state) (events : List (Event Content Element)) :
    ink (state.calls (events.flatMap callsOf)).innertext.contents =
      ink state.innertext.contents ++ (OrderedTree.leaves past events).flatMap libxml2Ink := by
  induction events generalizing past state with
  | nil => exact (List.append_nil _).symm
  | cons event events ih =>
      have hsplit : OrderedTree.leaves past (event :: events) =
          OrderedTree.leaves past [event] ++ OrderedTree.leaves (past ++ [event]) events :=
        OrderedTree.leaves_append past [event] events
      -- the invariant carried along the events is `FlagsAfter`
      rw [List.flatMap_cons, calls_append, ih (h.calls event), ink_calls_event h, hsplit,
        List.flatMap_append, List.append_assoc]

theorem ink_libxml2 (result : TestResult) (node : Node) :
    ink ((initial result).calls (callsFor node)).innertext.contents =
      inkTaken libxml2Takes (node.contexts [] []) := by
  have hinitial : FlagsAfter [] (initial result) := ⟨rfl, rfl, stringInit_valid⟩
  rw [callsFor, ink_calls hinitial, OrderedTree.leaves_events [], List.flatMap_map]
  rfl

end Libxml2

/-! ### The walk of gumbo -/

section Gumbo

open Gumbo

/-- What a call of `innertext` returns, with that ink. -/
structure Gathered (d : StringT) (w : List UInt8) : Prop where
  returned : Returned d
  ink : ink d.contents = w

theorem gathered_stringNil : Gathered stringNil [] := ⟨fun h => absurd rfl h, rfl⟩

theorem ink_joinText {contents text : StringT} {w : List UInt8} (hc : Clean contents)
    (ht : Gathered text w) (i : ℕ) :
    Clean (joinText i contents text) ∧
      ink (joinText i contents text).contents = ink contents.contents ++ w := by
  obtain ⟨hclean, hcontents⟩ := joinText_spec hc ht.returned i
  refine ⟨hclean, ?_⟩
  have hblank : ink (bytes " ") = [] := by decide
  rw [hcontents, ink_append, ← ht.ink]
  split_ifs with hnil
  · rw [hnil]
  · rw [ink_append, hblank, List.nil_append]
  · rw [List.nil_append]

theorem visible_ofElement_iff (e : Element) : Visible (ofElement e) ↔ hidden e = false := by
  -- The five names `tagOf` asks for are different from each other.
  have hnames : [nameA, nameImg, nameScript, nameStyle, nameTitle].Nodup := by decide
  simp only [List.nodup_cons, List.mem_cons, not_or] at hnames
  simp only [Visible, ofElement, tagOf, hidden]
  split_ifs <;> grind

theorem inkTaken_hidden {past : List (Event Content Element)} {path : List Element}
    (h : path.any hidden) (ts : List Node) :
    inkTaken gumboTakes (OrderedTree.contextsAll past path ts) = [] := by
  apply inkTaken_eq_nil
  intro c hc
  obtain ⟨rest, hrest⟩ := OrderedTree.path_prefixAll path past ts c hc
  simp [gumboTakes, ← hrest, List.any_append, h]

mutual

/-- Where nothing around a node is hidden, the walk gathers the ink of the
leaves it takes. -/
theorem gathered_innertext (path : List Element) (hpath : path.any hidden = false) :
    ∀ (past : List (Event Content Element)) (node : Node),
      Gathered (innertext (ofNode node)) (inkTaken gumboTakes (node.contexts past path))
  | past, .leaf (.text data hdata) => by
      have htakes : inkTaken gumboTakes
          (OrderedTree.contexts past path (.leaf (.text data hdata))) = ink data.bytes := by
        simp only [OrderedTree.contexts, inkTaken_singleton, gumboTakes, hpath]
        rfl
      obtain ⟨hclean, hcontents⟩ := clean_stringInit.append data.noNul
      rw [htakes, ofNode, OrderedTree.map, innertext, ofContent]
      by_cases hblank : data.bytes.all isspace
      · rw [if_pos hblank, if_neg (by simp), ink_eq_nil hblank]
        exact gathered_stringNil
      · rw [if_neg hblank, if_pos rfl]
        exact ⟨fun _ => hclean, by rw [hcontents]; rfl⟩
  | past, .leaf (.comment data) => by
      have htakes : inkTaken gumboTakes
          (OrderedTree.contexts past path (.leaf (.comment data))) = [] := by
        simp only [OrderedTree.contexts, inkTaken_singleton, gumboTakes]
        rfl
      rw [htakes, ofNode, OrderedTree.map, innertext, ofContent, if_neg (by simp)]
      exact gathered_stringNil
  | past, .inner e children => by
      rw [ofNode, OrderedTree.map, innertext_inner, OrderedTree.contexts]
      by_cases hhidden : hidden e
      · rw [if_neg, inkTaken_hidden (by simp [hhidden])]
        · exact gathered_stringNil
        · rw [visible_ofElement_iff]
          simp [hhidden]
      · have hvisible : hidden e = false := by simpa using hhidden
        have hinner : (path ++ [e]).any hidden = false := by simp [hpath, hvisible]
        rw [if_pos ((visible_ofElement_iff e).mpr hvisible)]
        obtain ⟨hclean, hink⟩ := clean_joinChildren (path ++ [e]) hinner (past ++ [.start e])
          children 0 clean_stringInit
        exact ⟨fun _ => hclean, hink⟩

theorem clean_joinChildren (path : List Element) (hpath : path.any hidden = false) :
    ∀ (past : List (Event Content Element)) (nodes : List Node) (i : ℕ) {contents : StringT},
      Clean contents →
        Clean (joinChildren i (OrderedTree.mapAll ofContent ofElement nodes) contents) ∧
          ink (joinChildren i (OrderedTree.mapAll ofContent ofElement nodes) contents).contents =
            ink contents.contents ++ inkTaken gumboTakes (OrderedTree.contextsAll past path nodes)
  | _, [], _, _, hc => ⟨hc, (List.append_nil _).symm⟩
  | past, node :: nodes, i, contents, hc => by
      obtain ⟨hd, hink⟩ := ink_joinText hc (gathered_innertext path hpath past node) i
      obtain ⟨hclean, hrest⟩ := clean_joinChildren path hpath (past ++ node.events) nodes (i + 1) hd
      rw [OrderedTree.mapAll, OrderedTree.contextsAll, inkTaken_append, ← List.append_assoc, ← hink,
        joinChildren_cons]
      exact ⟨hclean, hrest⟩

end

theorem ink_gumbo (node : Node) :
    ink (innertext (ofNode node)).contents = inkTaken gumboTakes (node.contexts [] []) :=
  (gathered_innertext [] rfl [] node).ink

end Gumbo

/-! ### The walk of MyHTML -/

section MyHtml

open MyHtml

def written (cs : List Leaf) : List UInt8 := cs.flatMap fun c => textOf c.leaf

theorem textOf_noNul (a : Content) : 0 ∉ textOf a := by
  cases a with
  | text data hdata => exact data.noNul
  | comment data => exact data.noNul

theorem written_noNul (cs : List Leaf) : 0 ∉ written cs := by
  intro h
  obtain ⟨c, -, hc⟩ := List.mem_flatMap.mp h
  exact textOf_noNul c.leaf hc

mutual

theorem gathered_ofNode (path : List Element) :
    ∀ (past : List (Event Content Element)) (node : Node) (next : TreeNode),
      gathered (ofNode node next) = written (node.contexts past path) ++ gathered next
  | past, .leaf a, next => by
      rw [ofNode, gathered, copied_of_noNul (textOf_noNul a)]
      exact congrArg (· ++ gathered next) (List.append_nil _).symm
  | past, .inner e ts, next => by
      rw [ofNode, gathered, gathered_ofNodes (path ++ [e]) (past ++ [.start e]) ts .null, gathered,
        List.append_nil, copied_of_noNul (written_noNul _), OrderedTree.contexts]

theorem gathered_ofNodes (path : List Element) :
    ∀ (past : List (Event Content Element)) (nodes : List Node) (next : TreeNode),
      gathered (ofNodes nodes next) =
        written (OrderedTree.contextsAll past path nodes) ++ gathered next
  | _, [], _ => rfl
  | past, node :: nodes, next => by
      rw [ofNodes, gathered_ofNode path past node,
        gathered_ofNodes path (past ++ node.events) nodes, OrderedTree.contextsAll, written,
        written, written, List.flatMap_append, List.append_assoc]

end

theorem ink_written {takes : Leaf → Bool} {cs : List Leaf} (h : ∀ c ∈ cs, takes c) :
    ink (written cs) = inkTaken takes cs := by
  rw [ink, written, List.filter_flatMap, inkTaken]
  refine List.flatMap_congr fun c hc => ?_
  rw [if_pos (h c hc), ink]

theorem not_myHtmlTakes_head (doc : Document) (past : List (Event Content Element)) :
    ∀ c ∈ OrderedTree.contexts past [doc.html] (.inner doc.head doc.headChildren),
      myHtmlTakes c = false := by
  have hne : nameHead ≠ nameBody := by decide
  intro c hc
  rw [OrderedTree.contexts] at hc
  obtain ⟨rest, hrest⟩ := OrderedTree.path_prefixAll _ _ _ c hc
  simp [myHtmlTakes, ← hrest, doc.headName, hne]

theorem myHtmlTakes_fromBody (doc : Document) (past : List (Event Content Element)) :
    ∀ c ∈ OrderedTree.contextsAll past [doc.html] doc.fromBody, myHtmlTakes c := by
  intro c hc
  rw [Document.fromBody, OrderedTree.contextsAll, List.mem_append, OrderedTree.contexts] at hc
  rcases hc with hc | hc
  · obtain ⟨rest, hrest⟩ := OrderedTree.path_prefixAll _ _ _ c hc
    simp [myHtmlTakes, ← hrest, doc.bodyName]
  · have hpath := OrderedTree.path_leaves [doc.html] (doc.comments.map Content.comment) _ c
      (by rw [List.map_map]; exact hc)
    simp [myHtmlTakes, hpath]

theorem ink_myHtml (doc : Document) :
    ink (innertext (ofNodes doc.fromBody .null)).contents =
      inkTaken myHtmlTakes (doc.root.contexts [] []) := by
  have hwalk := gathered_ofNodes [doc.html]
    ([.start doc.html] ++ OrderedTree.events (.inner doc.head doc.headChildren)) doc.fromBody .null
  have hhead := inkTaken_eq_nil (not_myHtmlTakes_head doc [.start doc.html])
  rw [innertext_contents, hwalk, gathered, List.append_nil,
    ink_written (myHtmlTakes_fromBody doc _), Document.root, OrderedTree.contexts,
    OrderedTree.contextsAll, inkTaken_append]
  simp only [List.nil_append, hhead]

end MyHtml

/-! ### The three of them -/

/-- The three adapters collect the same characters, blanks apart. -/
def TextsAgree (result : TestResult) (doc : Document) : Prop :=
  ink ((Libxml2.initial result).calls (Libxml2.callsFor doc.root)).innertext.contents =
      ink (Gumbo.innertext (Gumbo.ofNode doc.root)).contents ∧
    ink (Gumbo.innertext (Gumbo.ofNode doc.root)).contents =
      ink (MyHtml.innertext (MyHtml.ofNodes doc.fromBody .null)).contents

instance (result : TestResult) (doc : Document) : Decidable (TextsAgree result doc) :=
  inferInstanceAs (Decidable (_ ∧ _))

theorem textsAgree_iff_inkTaken (result : TestResult) (doc : Document) :
    TextsAgree result doc ↔
      inkTaken libxml2Takes (doc.root.contexts [] []) =
          inkTaken gumboTakes (doc.root.contexts [] []) ∧
        inkTaken gumboTakes (doc.root.contexts [] []) =
          inkTaken myHtmlTakes (doc.root.contexts [] []) := by
  rw [TextsAgree, ink_libxml2, ink_gumbo, ink_myHtml]

/-- **The collected text.** The three adapters collect the same characters,
blanks apart, of a document in which each leaf with more than blanks is taken by
all of them or by none. -/
theorem textsAgree_of_sameForAll (result : TestResult) (doc : Document)
    (h : ∀ c ∈ doc.root.contexts [] [], SameForAll c) : TextsAgree result doc := by
  rw [textsAgree_iff_inkTaken]
  refine ⟨inkTaken_congr fun c hc => ?_, inkTaken_congr fun c hc => ?_⟩
  · exact (h c hc).imp id And.left
  · exact (h c hc).imp id And.right

/-- What gumbo takes libxml2 takes, and what libxml2 takes MyHTML takes. -/
def TakenInTurn (c : Leaf) : Prop :=
  (gumboTakes c → libxml2Takes c) ∧ (libxml2Takes c → myHtmlTakes c)

/-- Where the adapters can only go wrong one way, they collect the same only if
they take the same. -/
theorem sameForAll_of_textsAgree (result : TestResult) (doc : Document)
    (hturn : ∀ c ∈ doc.root.contexts [] [], ink (MyHtml.textOf c.leaf) ≠ [] → TakenInTurn c)
    (h : TextsAgree result doc) : ∀ c ∈ doc.root.contexts [] [], SameForAll c := by
  rw [textsAgree_iff_inkTaken] at h
  have hgumbo := takes_eq_of_inkTaken_eq (fun c hc hink => (hturn c hc hink).1) h.1.symm
  have hmyHtml := takes_eq_of_inkTaken_eq
    (fun c hc hink htakes => (hturn c hc hink).2 ((hturn c hc hink).1 htakes)) h.2
  intro c hc
  by_cases hink : ink (MyHtml.textOf c.leaf) = []
  · exact Or.inl hink
  · exact Or.inr ⟨((hgumbo c hc).resolve_left hink).symm, (hmyHtml c hc).resolve_left hink⟩

def plain (name : CString) (lower : Lower name) : Element :=
  { name := name, attributes := [], lower := lower, distinct := List.nodup_nil }

def page (headChildren bodyChildren : List Node) : Document where
  html := plain nameHtml (by decide)
  head := plain nameHead (by decide)
  body := plain nameBody (by decide)
  headChildren := headChildren
  bodyChildren := bodyChildren
  comments := []
  htmlName := rfl
  headName := rfl
  bodyName := rfl

/-- A title that none of them takes, and a link whose text all of them take. -/
theorem textsAgree_title_link :
    (∀ c ∈ (page [.inner (plain nameTitle (by decide)) [.leaf (.text nameA (by decide))]]
        [.inner (plain nameA (by decide)) [.leaf (.text nameA (by decide))]]).root.contexts [] [],
      SameForAll c) ∧
    TextsAgree {} (page [.inner (plain nameTitle (by decide)) [.leaf (.text nameA (by decide))]]
        [.inner (plain nameA (by decide)) [.leaf (.text nameA (by decide))]]) :=
  ⟨by decide +kernel, textsAgree_of_sameForAll {} _ (by decide +kernel)⟩

/-- A comment in the body is text to MyHTML alone. -/
theorem not_forall_textsAgree :
    ¬∀ (result : TestResult) (doc : Document), TextsAgree result doc := by
  intro h
  exact absurd (h {} (page [] [.leaf (.comment nameA)])) (by decide +kernel)

/-- Two leaves can make up for each other: text in the head, which gumbo alone
takes, and the same text in a `style`, which gumbo alone leaves out. -/
example : TextsAgree {} (page [.leaf (.text nameA (by decide))]
    [.inner (plain nameStyle (by decide)) [.leaf (.text nameA (by decide))]]) := by
  decide +kernel

end HtmlBenchmark.Agreement
