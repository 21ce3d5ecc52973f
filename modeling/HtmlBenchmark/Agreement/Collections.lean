import HtmlBenchmark.Agreement.Links
import HtmlBenchmark.MyHtml.Collections

/-!
Links and images in the MyHTML adapter and in the gumbo adapter.

MyHTML's tree is walked by its pointers, once for the links and once for the
images, and what is counted is in the two collections; gumbo's tree is walked
once, by recursion. Over the same document every element adds to one collection
what it adds in the walk, if the walk comes to it: it goes into no template.
-/

namespace HtmlBenchmark.Agreement

open Library MyHtml

def myhtmlTagOf (name : CString) : MyhtmlTag :=
  if name = nameA then .MyHTML_TAG_A else if name = nameImg then .MyHTML_TAG_IMG else .other

/-- What the parser has put into the nodes: texts and comments at the leaves, and
elements with the keys of their attributes. -/
structure Delivers {ν : Type*} (tree : MyHtml.Tree ν) (t : OrderedTree ν ν)
    (element : ν → Element) : Prop where
  leaves : ∀ v ∈ t.fringe,
    tree.tagId v = .MyHTML_TAG__TEXT ∨ tree.tagId v = .MyHTML_TAG__COMMENT
  tags : ∀ v ∈ t.labels, tree.tagId v = myhtmlTagOf (element v).name
  keys : ∀ v ∈ t.labels, (tree.token v).getD [] = attributeNames (element v)

/-! ### One element -/

def linkGain (e : Element) : Gain := { href := (walkGain e).href }

def imageGain (e : Element) : Gain := { src := (walkGain e).src, alt := (walkGain e).alt }

theorem linkGain_add_imageGain (e : Element) : (linkGain e).add (imageGain e) = walkGain e := by
  simp [linkGain, imageGain, Gain.add, walkGain, gainOfNames]

theorem myhtmlTagOf_eq_a (name : CString) : myhtmlTagOf name = .MyHTML_TAG_A ↔ name = nameA := by
  simp only [myhtmlTagOf]
  split_ifs <;> simp_all

theorem myhtmlTagOf_eq_img (name : CString) :
    myhtmlTagOf name = .MyHTML_TAG_IMG ↔ name = nameImg := by
  have hne : nameA ≠ nameImg := by decide
  simp only [myhtmlTagOf]
  split_ifs <;> simp_all

theorem Gain.sum_map_add {α : Type*} (f g : α → Gain) (l : List α) :
    (Gain.sum (l.map f)).add (Gain.sum (l.map g)) = Gain.sum (l.map fun a => (f a).add (g a)) := by
  simp only [Gain.sum_eq, Gain.add, List.map_map, Function.comp_def, List.sum_map_add]

section Tree

variable {ν : Type*} {tree : MyHtml.Tree ν} {t : OrderedTree ν ν} {element : ν → Element}

theorem isSome_myhtmlAttributeByKey {v : ν}
    (hkeys : (tree.token v).getD [] = attributeNames (element v)) (key : CString) :
    (myhtmlAttributeByKey tree v key).isSome ↔ key ∈ attributeNames (element v) := by
  have hfind : myhtmlAttributeByKey tree v key =
      myhtmlTokenAttrByName (attributeNames (element v)) key := by
    rw [← hkeys, myhtmlAttributeByKey]
    cases tree.token v <;> rfl
  rw [hfind, myhtmlTokenAttrByName, List.find?_isSome]
  constructor
  · rintro ⟨x, hx, hsame⟩
    rw [Bool.and_eq_true, strcmp, decide_eq_true_eq, decide_eq_true_eq] at hsame
    exact hsame.2 ▸ hx
  · exact fun hmem => ⟨key, hmem, by simp [strcmp]⟩

theorem countLink_eq {v : ν} (hkeys : (tree.token v).getD [] = attributeNames (element v))
    (hname : (element v).name = nameA) (r : TestResult) :
    countLink r (fun key => (myhtmlAttributeByKey tree v key).isSome) =
      r.add (linkGain (element v)) := by
  simp only [countLink, isSome_myhtmlAttributeByKey hkeys, linkGain, walkGain, gainOfNames, hname,
    if_true, count_attributeNames]
  split_ifs <;> rfl

theorem countImage_eq {v : ν} (hkeys : (tree.token v).getD [] = attributeNames (element v))
    (hname : (element v).name = nameImg) (r : TestResult) :
    countImage r (fun key => (myhtmlAttributeByKey tree v key).isSome) =
      r.add (imageGain (element v)) := by
  simp only [countImage, isSome_myhtmlAttributeByKey hkeys, imageGain, walkGain, gainOfNames,
    hname, if_true, count_attributeNames]
  split_ifs <;> rfl

/-! ### The document -/

/-- A loop over the nodes of a tag, when another element adds nothing. -/
theorem foldl_filter_eq {tagged : ν → Bool} {count : TestResult → ν → TestResult}
    {gain : Element → Gain} {vs : List ν}
    (hcount : ∀ v ∈ vs, tagged v → ∀ r, count r v = r.add (gain (element v)))
    (hnone : ∀ v ∈ vs, tagged v = false → gain (element v) = {}) (r : TestResult) :
    (vs.filter tagged).foldl count r = r.add (Gain.sum (vs.map fun v => gain (element v))) := by
  induction vs generalizing r with
  | nil => rfl
  | cons v vs ih =>
      obtain ⟨hv, hvs⟩ := List.forall_mem_cons.mp hcount
      obtain ⟨hv', hvs'⟩ := List.forall_mem_cons.mp hnone
      rw [List.map_cons, Gain.sum_cons, ← TestResult.add_add]
      cases htag : tagged v with
      | true => rw [List.filter_cons_of_pos htag, List.foldl_cons, hv htag, ih hvs hvs']
      | false =>
          rw [List.filter_cons_of_neg (by simp [htag]), hv' htag, TestResult.add_zero, ih hvs hvs']

theorem Delivers.filter_nodes (h : Delivers tree t element) {tag : MyhtmlTag}
    (htext : tag ≠ .MyHTML_TAG__TEXT) (hcomment : tag ≠ .MyHTML_TAG__COMMENT) :
    t.nodes.filter (tree.tagId · = tag) = t.labels.filter (tree.tagId · = tag) := by
  refine OrderedTree.filter_nodes fun v hv => ?_
  rcases h.leaves v hv with hleaf | hleaf
  · simp [hleaf, htext.symm]
  · simp [hleaf, hcomment.symm]

end Tree

/-- The loops over the two collections count every element of the document. -/
theorem countCollections_eq {ν : Type*} [DecidableEq ν] {kids : ν → List ν} {tree : MyHtml.Tree ν}
    (hforest : IsForest tree.links kids) {t : OrderedTree ν ν} (hshape : t.Shape kids)
    (hhtml : tree.nodeHtml = some t.root) {element : ν → Element}
    (hdelivers : Delivers tree t element) (result : TestResult)
    {rounds : ℕ} (hrounds : 2 * t.nodes.length ≤ rounds) :
    countCollections (fun _ => true) rounds tree result =
      some (result.add (Gain.sum (t.labels.map fun v => walkGain (element v)))) := by
  have hcollected : ∀ tag, tag ≠ .MyHTML_TAG__TEXT → tag ≠ .MyHTML_TAG__COMMENT →
      ∃ c, myhtmlGetNodesByTagId true (fun _ => true) rounds tree none tag =
          some (.collection c true) ∧ c.list = t.labels.filter (tree.tagId · = tag) := by
    intro tag htext hcomment
    obtain ⟨c, terminated, found, hreturned, hlist, -, hfound, hgrown⟩ :=
      myhtmlGetNodesByTagId_eq hforest hshape hhtml (fun _ => true)
        { list := [], size := 1024, room := Nat.zero_lt_succ _ } tag hrounds true
    obtain rfl : terminated = true := (hgrown 0 (grown_create _)).mpr fun _ _ _ => rfl
    rw [List.nil_append, hfound rfl, hdelivers.filter_nodes htext hcomment] at hlist
    exact ⟨c, hreturned, hlist⟩
  obtain ⟨links, hlinks, hlinkList⟩ := hcollected .MyHTML_TAG_A (by decide) (by decide)
  obtain ⟨images, himages, himageList⟩ := hcollected .MyHTML_TAG_IMG (by decide) (by decide)
  have hfoldLinks : ∀ r, (t.labels.filter (tree.tagId · = .MyHTML_TAG_A)).foldl
      (fun r node => countLink r fun key => (myhtmlAttributeByKey tree node key).isSome) r =
        r.add (Gain.sum (t.labels.map fun v => linkGain (element v))) := by
    refine foldl_filter_eq (fun v hv htag r => ?_) fun v hv htag => ?_
    · rw [decide_eq_true_eq, hdelivers.tags v hv, myhtmlTagOf_eq_a] at htag
      exact countLink_eq (hdelivers.keys v hv) htag r
    · rw [decide_eq_false_iff_not, hdelivers.tags v hv, myhtmlTagOf_eq_a] at htag
      simp [linkGain, walkGain, gainOfNames, htag]
  have hfoldImages : ∀ r, (t.labels.filter (tree.tagId · = .MyHTML_TAG_IMG)).foldl
      (fun r node => countImage r fun key => (myhtmlAttributeByKey tree node key).isSome) r =
        r.add (Gain.sum (t.labels.map fun v => imageGain (element v))) := by
    refine foldl_filter_eq (fun v hv htag r => ?_) fun v hv htag => ?_
    · rw [decide_eq_true_eq, hdelivers.tags v hv, myhtmlTagOf_eq_img] at htag
      exact countImage_eq (hdelivers.keys v hv) htag r
    · rw [decide_eq_false_iff_not, hdelivers.tags v hv, myhtmlTagOf_eq_img] at htag
      simp [imageGain, walkGain, gainOfNames, htag]
  simp only [countCollections, hlinks, himages, hlinkList, himageList, hfoldLinks, hfoldImages]
  rw [TestResult.add_add, Gain.sum_map_add]
  simp only [linkGain_add_imageGain]

/-! ### Templates -/

theorem countLinks_ofHtmlElement (e : Element) (result : TestResult) :
    Gumbo.countLinks (Gumbo.ofHtmlElement e) result = result.add (walkGain e) :=
  countLinks_eq e result

mutual

/-- The walk counts what stands outside the templates. -/
theorem searchForLinks_ofHtmlNode : ∀ (node : Node) (result : TestResult),
    Gumbo.searchForLinks (Gumbo.ofHtmlNode node) result =
      result.add (Gain.sum ((node.outside Gumbo.isTemplate).map walkGain))
  | .leaf _, _ => rfl
  | .inner e ts, result => by
      rw [Gumbo.ofHtmlNode, OrderedTree.map, Gumbo.searchForLinks, OrderedTree.outside]
      cases htemplate : Gumbo.isTemplate e with
      | true => rw [if_pos (by simp [Gumbo.ofHtmlElement, htemplate]), if_pos rfl]; rfl
      | false =>
          rw [if_neg (by simp [Gumbo.ofHtmlElement, htemplate]), if_neg (by simp),
            searchChildren_ofHtmlNode ts, countLinks_ofHtmlElement, TestResult.add_add,
            List.map_cons, Gain.sum_cons]

theorem searchChildren_ofHtmlNode : ∀ (ts : List Node) (result : TestResult),
    Gumbo.searchChildren (OrderedTree.mapAll Gumbo.ofContent Gumbo.ofHtmlElement ts) result =
      result.add (Gain.sum ((OrderedTree.outsideAll Gumbo.isTemplate ts).map walkGain))
  | [], _ => rfl
  | t :: ts, result => by
      have ht := searchForLinks_ofHtmlNode t result
      rw [Gumbo.ofHtmlNode] at ht
      rw [OrderedTree.mapAll, Gumbo.searchChildren, ht, searchChildren_ofHtmlNode ts,
        TestResult.add_add, OrderedTree.outsideAll, List.map_append, Gain.sum_append]

end

/-- Nothing is counted at an element: it is no link with an `href` and no image
with a `src` or an `alt`. -/
def CountsNothing (e : Element) : Prop :=
  (e.name = nameA → nameHref ∉ attributeNames e) ∧
    (e.name = nameImg → nameSrc ∉ attributeNames e ∧ nameAlt ∉ attributeNames e)

instance (e : Element) : Decidable (CountsNothing e) := inferInstanceAs (Decidable (_ ∧ _))

theorem walkGain_eq_iff (e : Element) : walkGain e = {} ↔ CountsNothing e := by
  simp only [walkGain, gainOfNames, Gain.mk.injEq, CountsNothing, and_true, count_attributeNames]
  split_ifs <;> simp_all

theorem sum_walkGain_append_iff (es es' : List Element) :
    Gain.sum ((es ++ es').map walkGain) = Gain.sum (es.map walkGain) ↔
      ∀ e ∈ es', CountsNothing e := by
  have hsum : ∀ f : Element → ℕ, (es.map f).sum + (es'.map f).sum = (es.map f).sum ↔
      ∀ e ∈ es', f e = 0 := by
    intro f
    rw [Nat.add_eq_left, List.sum_eq_zero_iff_forall_eq_nat, List.forall_mem_map]
  have hzero : ∀ g : Gain, g = {} ↔ g.href = 0 ∧ g.src = 0 ∧ g.alt = 0 ∧ g.innertextBytes = 0 :=
    fun g => Gain.mk.injEq .. ▸ Iff.rfl
  simp only [Gain.sum_eq, Gain.mk.injEq, List.map_append, List.sum_append, List.map_map, hsum,
    Function.comp_apply, ← forall₂_and, ← walkGain_eq_iff, hzero]

/-- **Links and images.** Over the same document, and when no allocation fails,
the loops over the two collections count what the walk over gumbo's tree counts
exactly if nothing is to be counted in a template. -/
theorem countCollections_eq_iff {ν : Type*} [DecidableEq ν] {kids : ν → List ν}
    {tree : MyHtml.Tree ν} (hforest : IsForest tree.links kids) {t : OrderedTree ν ν}
    (hshape : t.Shape kids) (hhtml : tree.nodeHtml = some t.root) {element : ν → Element}
    (hdelivers : Delivers tree t element) (content : ν → Content) (result : TestResult)
    {rounds : ℕ} (hrounds : 2 * t.nodes.length ≤ rounds) :
    countCollections (fun _ => true) rounds tree result =
        some (Gumbo.searchForLinks (Gumbo.ofHtmlNode (t.map content element)) result) ↔
      ∀ e ∈ (t.map content element).inside Gumbo.isTemplate, CountsNothing e := by
  have hlabels : t.labels.map (fun v => walkGain (element v)) =
      (t.map content element).labels.map walkGain := by
    rw [OrderedTree.labels_map, List.map_map]
    rfl
  have hperm := (t.map content element).labels_perm Gumbo.isTemplate
  have hsum : Gain.sum ((t.map content element).labels.map walkGain) =
      Gain.sum (((t.map content element).outside Gumbo.isTemplate ++
        (t.map content element).inside Gumbo.isTemplate).map walkGain) := by
    simp only [Gain.sum_eq, ((hperm.map walkGain).map _).sum_eq]
  rw [countCollections_eq hforest hshape hhtml hdelivers result hrounds,
    searchForLinks_ofHtmlNode, Option.some.injEq, TestResult.add_inj, hlabels, hsum]
  exact sum_walkGain_append_iff _ _

/-- `html` with a link in it, and a text in the link. -/
def linkOps : List (NodeOp ℕ) := [.addChild 0 1, .addChild 1 2]

def linkTree : MyHtml.Tree ℕ where
  links := (linkOps.foldlM NodeOp.call (cleaned ℕ)).getD (cleaned ℕ)
  tagId := fun v => if v = 1 then .MyHTML_TAG_A else if v = 2 then .MyHTML_TAG__TEXT else .other
  token := fun v => if v = 1 then some [nameHref] else none
  nodeHtml := some 0

theorem lower_nameHtml : Lower nameHtml := by decide

def linkElement (v : ℕ) : Element :=
  if v = 1 then
    { name := nameA
      attributes := [{ name := nameHref, value := none, lower := by decide }]
      lower := by decide
      distinct := by decide }
  else { name := nameHtml, attributes := [], lower := lower_nameHtml, distinct := List.nodup_nil }

theorem countCollections_link :
    countCollections (fun _ => true) 6 linkTree {} = some { totalHref := 1 } := by
  have hops : NodeOp.AllAdmissible (fun _ => []) linkOps := by
    refine ⟨⟨fun p => List.not_mem_nil, not_below_of_childless rfl (by decide)⟩,
      ⟨fun p => ?_, not_below_of_childless rfl (by decide)⟩, trivial⟩
    by_cases hp : p = 0 <;> simp [NodeOp.apply, hp]
  obtain ⟨l, hrun, hforest⟩ := NodeOp.foldlM_call (isForest_cleaned ℕ) hops
  have hlinks : linkTree.links = l := by
    rw [linkTree, hrun]
    rfl
  have hshape : (OrderedTree.inner 0 [.inner 1 [.leaf 2]] : OrderedTree ℕ ℕ).Shape
      (linkOps.foldl NodeOp.apply fun _ => []) := ⟨rfl, ⟨rfl, rfl, trivial⟩, trivial⟩
  have hdelivers : Delivers linkTree (.inner 0 [.inner 1 [.leaf 2]]) linkElement :=
    ⟨by decide, by decide, by decide⟩
  have hcount := (countCollections_eq_iff (hlinks ▸ hforest) hshape rfl hdelivers
    (fun _ => .comment nameA) {} (Nat.le_refl 6)).mpr (by decide +kernel)
  exact hcount.trans (by decide +kernel)

end HtmlBenchmark.Agreement
