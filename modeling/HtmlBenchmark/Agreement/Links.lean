import HtmlBenchmark.Gumbo.Adapter
import HtmlBenchmark.Library.Lists
import HtmlBenchmark.Libxml2.Adapter

/-!
Links and images in the libxml2 adapter and in the gumbo adapter.

Both count element by element, so either total is a sum over the elements of
the document, one of the gains the handler reads off the attribute array, the
other of the gains the tree walk looks up. The handler stops at the first
attribute without a value and sees nothing behind it; an element can therefore
only lose against the look-up, and the sums agree exactly when no element does.
-/

namespace HtmlBenchmark.Agreement

open Library Libxml2 Gumbo

/-! ### One element -/

def attributeNames (e : Element) : List CString := e.attributes.map Attribute.name

def seenNames (e : Element) : List CString :=
  (e.attributes.takeWhile fun a => a.value.isSome).map Attribute.name

/-- What attributes of these names add in an element `name`. -/
def gainOfNames (name : CString) (names : List CString) : Gain :=
  { href := if name = nameA then names.count nameHref else 0
    src := if name = nameImg then names.count nameSrc else 0
    alt := if name = nameImg then names.count nameAlt else 0 }

def saxGain (e : Element) : Gain := gainOfNames e.name (seenNames e)

def walkGain (e : Element) : Gain := gainOfNames e.name (attributeNames e)

theorem gainOfNames_cons (name att : CString) (names : List CString) :
    gainOfNames name (att :: names) = (gainOfNames name [att]).add (gainOfNames name names) := by
  have hcount : ∀ key : CString, (att :: names).count key = [att].count key + names.count key := by
    intro key
    rw [← List.count_append, List.singleton_append]
  simp only [gainOfNames, Gain.add, hcount]
  split_ifs <;> simp

theorem gainOfNames_of_ne {name : CString} (ha : name ≠ nameA) (himg : name ≠ nameImg)
    (names : List CString) : gainOfNames name names = {} := by
  simp [gainOfNames, ha, himg]

theorem countAttribute_eq (name att : CString) (result : TestResult) :
    countAttribute name att result = result.add (gainOfNames name [att]) := by
  have hsrc : nameSrc ≠ nameAlt := by decide
  simp only [countAttribute, strcmp, gainOfNames, List.count_singleton, beq_iff_eq,
    decide_eq_true_eq]
  split_ifs <;> simp_all [TestResult.add]

theorem attributeLoop_eq (name : CString) (atts : List Attribute) (result : TestResult) :
    attributeLoop name (atts.flatMap (fun a => [some a.name, a.value]) ++ [none, none]) result =
      result.add (gainOfNames name
        ((atts.takeWhile fun a => a.value.isSome).map Attribute.name)) := by
  induction atts generalizing result with
  | nil =>
      have hnil : gainOfNames name [] = {} := by simp [gainOfNames]
      rw [List.takeWhile_nil, List.map_nil, hnil, TestResult.add_zero]
      rfl
  | cons a atts ih =>
      rw [List.flatMap_cons, List.append_assoc, List.takeWhile_cons]
      cases hvalue : a.value with
      | none =>
          have hnil : gainOfNames name [] = {} := by simp [gainOfNames]
          simp only [Option.isSome_none, Bool.false_eq_true, if_false, List.map_nil, hnil]
          rfl
      | some value =>
          simp only [Option.isSome_some, if_true, List.map_cons]
          refine (ih (countAttribute name a.name result)).trans ?_
          rw [countAttribute_eq, TestResult.add_add, ← gainOfNames_cons]

theorem startElement_result (state : ParserState) (e : Element) :
    (startElement state e.name (attsOf e.attributes)).result = state.result.add (saxGain e) := by
  have hskip : ∀ name ∈ [nameTitle, nameBody, nameScript], e.name = name → saxGain e = {} := by
    intro name hname he
    rw [saxGain, he]
    refine gainOfNames_of_ne ?_ ?_ _ <;> rintro rfl <;> revert hname <;> decide
  simp only [startElement, strcmp, decide_eq_true_eq]
  split_ifs with htitle hbody hscript
  · rw [hskip _ (by simp) htitle, TestResult.add_zero]
  · rw [hskip _ (by simp) hbody, TestResult.add_zero]
  · rw [hskip _ (by simp) hscript, TestResult.add_zero]
  · cases hatts : e.attributes with
    | nil =>
        have hzero : saxGain e = {} := by simp [saxGain, seenNames, hatts, gainOfNames]
        rw [hzero, TestResult.add_zero]
        rfl
    | cons a atts =>
        rw [saxGain, seenNames, hatts]
        exact attributeLoop_eq e.name (a :: atts) state.result

theorem isSome_gumboGetAttribute (e : Element) {key : CString} (hkey : Lower key) :
    (gumboGetAttribute (ofElement e).attributes key).isSome ↔ key ∈ attributeNames e := by
  rw [gumboGetAttribute, List.find?_isSome, attributeNames, List.mem_map]
  constructor
  · rintro ⟨x, hx, hname⟩
    obtain ⟨a, ha, rfl⟩ := List.mem_map.mp hx
    have heq : strcasecmp a.name key := hname
    rw [strcasecmp_of_lower a.lower hkey, strcmp, decide_eq_true_eq] at heq
    exact ⟨a, ha, heq⟩
  · rintro ⟨a, ha, rfl⟩
    refine ⟨ofAttribute a, List.mem_map_of_mem ha, ?_⟩
    simp [ofAttribute, strcasecmp]

theorem tagOf_eq_a (name : CString) : tagOf name = .a ↔ name = nameA := by
  simp only [tagOf]
  split_ifs <;> simp_all

theorem tagOf_eq_img (name : CString) : tagOf name = .img ↔ name = nameImg := by
  have hne : nameA ≠ nameImg := by decide
  simp only [tagOf]
  split_ifs <;> simp_all

/-- An attribute occurs once or not at all. -/
theorem count_attributeNames (e : Element) (key : CString) :
    (attributeNames e).count key = if key ∈ attributeNames e then 1 else 0 :=
  List.Nodup.count e.distinct

theorem countLinks_eq (e : Element) (result : TestResult) :
    countLinks (ofElement e) result = result.add (walkGain e) := by
  simp only [countLinks, walkGain, gainOfNames, count_attributeNames,
    isSome_gumboGetAttribute e (show Lower nameHref by decide),
    isSome_gumboGetAttribute e (show Lower nameSrc by decide),
    isSome_gumboGetAttribute e (show Lower nameAlt by decide),
    show (ofElement e).tag = tagOf e.name from rfl, tagOf_eq_a, tagOf_eq_img]
  split_ifs <;> simp_all [TestResult.add]

/-! ### The whole document -/

theorem calls_result (state : ParserState) (events : List (Event Content Element)) :
    (state.calls (events.flatMap callsOf)).result =
      state.result.add (Gain.sum ((OrderedTree.starts events).map saxGain)) := by
  induction events generalizing state with
  | nil => rfl
  | cons event events ih =>
      rw [List.flatMap_cons, calls_append, ih]
      cases event with
      | start e =>
          rw [OrderedTree.starts, List.map_cons, Gain.sum_cons, ← TestResult.add_add]
          exact congrArg (fun r : TestResult => r.add _) (startElement_result state e)
      | leaf a =>
          cases a with
          | text data nonempty =>
              exact congrArg (fun r : TestResult => r.add _) (characters_result state data.bytes)
          | comment data => rfl
      | finish e =>
          exact congrArg (fun r : TestResult => r.add _) (endElement_result state e.name)

mutual

theorem searchForLinks_eq : ∀ (node : Node) (result : TestResult),
    searchForLinks (ofNode node) result = result.add (Gain.sum (node.labels.map walkGain))
  | .leaf _, _ => rfl
  | .inner e ts, result => by
      rw [ofNode, OrderedTree.map, searchForLinks, if_neg (by simp [ofElement]),
        searchChildren_eq ts,
        countLinks_eq, TestResult.add_add, OrderedTree.labels, List.map_cons, Gain.sum_cons]

theorem searchChildren_eq : ∀ (ts : List Node) (result : TestResult),
    searchChildren (OrderedTree.mapAll ofContent ofElement ts) result =
      result.add (Gain.sum ((OrderedTree.labelsAll ts).map walkGain))
  | [], _ => rfl
  | t :: ts, result => by
      have ht := searchForLinks_eq t result
      rw [ofNode] at ht
      rw [OrderedTree.mapAll, searchChildren, ht, searchChildren_eq ts, TestResult.add_add,
        OrderedTree.labelsAll, List.map_append, Gain.sum_append]

end

/-! ### Agreement -/

/-- If the element has the attribute, it is seen: neither it nor an attribute
before it is without a value. -/
def SeenIfPresent (e : Element) (key : CString) : Prop :=
  key ∈ attributeNames e → key ∈ seenNames e

instance (e : Element) (key : CString) : Decidable (SeenIfPresent e key) :=
  inferInstanceAs (Decidable (_ → _))

/-- What is counted at an element is seen. -/
def CountsSeen (e : Element) : Prop :=
  (e.name = nameA → SeenIfPresent e nameHref) ∧
    (e.name = nameImg → SeenIfPresent e nameSrc ∧ SeenIfPresent e nameAlt)

instance (e : Element) : Decidable (CountsSeen e) := inferInstanceAs (Decidable (_ ∧ _))

theorem count_seenNames_le (e : Element) (key : CString) :
    (seenNames e).count key ≤ (attributeNames e).count key :=
  ((List.takeWhile_sublist _).map _).count_le _

theorem count_seenNames_eq_iff (e : Element) (key : CString) :
    (seenNames e).count key = (attributeNames e).count key ↔ SeenIfPresent e key := by
  have hle := count_seenNames_le e key
  have hpos := List.count_pos_iff (a := key) (l := seenNames e)
  rw [count_attributeNames] at hle ⊢
  rw [SeenIfPresent]
  split_ifs at hle ⊢ with hmem
  · rw [← hpos]
    simp only [hmem, forall_const]
    omega
  · simp only [hmem, IsEmpty.forall_iff, iff_true]
    omega

theorem saxGain_eq_iff (e : Element) : saxGain e = walkGain e ↔ CountsSeen e := by
  have hne : nameA ≠ nameImg := by decide
  simp only [saxGain, walkGain, gainOfNames, Gain.mk.injEq, CountsSeen, and_true,
    ← count_seenNames_eq_iff]
  split_ifs <;> simp_all

theorem Gain.sum_eq (gains : List Gain) :
    Gain.sum gains =
      { href := (gains.map Gain.href).sum
        src := (gains.map Gain.src).sum
        alt := (gains.map Gain.alt).sum
        innertextBytes := (gains.map Gain.innertextBytes).sum } := by
  induction gains with
  | nil => rfl
  | cons gain gains ih =>
      rw [Gain.sum_cons, ih]
      rfl

theorem saxGain_le (e : Element) :
    (saxGain e).href ≤ (walkGain e).href ∧ (saxGain e).src ≤ (walkGain e).src ∧
      (saxGain e).alt ≤ (walkGain e).alt := by
  simp only [saxGain, walkGain, gainOfNames]
  have hhref := count_seenNames_le e nameHref
  have hsrc := count_seenNames_le e nameSrc
  have halt := count_seenNames_le e nameAlt
  split_ifs <;> omega

theorem sum_saxGain_eq_iff (es : List Element) :
    Gain.sum (es.map saxGain) = Gain.sum (es.map walkGain) ↔ ∀ e ∈ es, CountsSeen e := by
  have hhref := sum_map_eq_iff (f := fun e => (saxGain e).href) (g := fun e => (walkGain e).href)
    (l := es) fun e _ => (saxGain_le e).1
  have hsrc := sum_map_eq_iff (f := fun e => (saxGain e).src) (g := fun e => (walkGain e).src)
    (l := es) fun e _ => (saxGain_le e).2.1
  have halt := sum_map_eq_iff (f := fun e => (saxGain e).alt) (g := fun e => (walkGain e).alt)
    (l := es) fun e _ => (saxGain_le e).2.2
  have hinner : (es.map fun e => (saxGain e).innertextBytes).sum =
      (es.map fun e => (walkGain e).innertextBytes).sum := rfl
  rw [Gain.sum_eq, Gain.sum_eq]
  simp only [Gain.mk.injEq, List.map_map, Function.comp_def, hhref, hsrc, halt, hinner, and_true]
  constructor
  · rintro ⟨hhref, hsrc, halt⟩ e he
    rw [← saxGain_eq_iff, Gain.mk.injEq]
    exact ⟨hhref e he, hsrc e he, halt e he, rfl⟩
  · intro h
    have heq : ∀ e ∈ es, saxGain e = walkGain e := fun e he => (saxGain_eq_iff e).mpr (h e he)
    exact ⟨fun e he => by rw [heq e he], fun e he => by rw [heq e he],
      fun e he => by rw [heq e he]⟩

/-- **Links and images.** Over the same document and from the same result, the
handlers and the tree walk count the same exactly when, in every link with an
`href` and in every image with a `src` or `alt`, neither that attribute nor one
before it is without a value. -/
theorem result_eq_iff (node : Node) (result : TestResult) :
    ((initial result).calls (callsFor node)).result = searchForLinks (ofNode node) result ↔
      ∀ e ∈ node.labels, CountsSeen e := by
  rw [callsFor, calls_result, searchForLinks_eq, OrderedTree.starts_events, ← sum_saxGain_eq_iff]
  exact TestResult.add_inj result

/-- An image without anything but an empty `alt` in front of its source. -/
def bareAlt : Node :=
  .inner { name := nameImg
           attributes := [{ name := nameAlt, value := none, lower := by decide },
             { name := nameSrc, value := some nameA, lower := by decide }]
           lower := by decide
           distinct := by decide } []

/-- Behind `alt` the handler does not see `src`. -/
theorem not_forall_result_eq :
    ¬∀ (node : Node) (result : TestResult),
      ((initial result).calls (callsFor node)).result = searchForLinks (ofNode node) result := by
  intro h
  exact absurd (h bareAlt {}) (by decide +kernel)

end HtmlBenchmark.Agreement
