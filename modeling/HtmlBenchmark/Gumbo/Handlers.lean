import HtmlBenchmark.Gumbo.Adoption

/-!
What the handlers of the tokens do to the list of active formatting elements and
to the open elements, as in `gumbo-parser/parser.c`, in any order.

In every state they come to, the entries of the list before a marker are not open
above those behind it. So the adoption agency never moves an entry past a marker,
and between two markers there are never more than three elements of a kind.
-/

namespace HtmlBenchmark.Gumbo

open Library

namespace TreeBuilder

variable {s : TreeBuilder}

/-! ### The steps of the handlers -/

/-- The steps of the handlers that change the two lists. -/
inductive Op
  | insertElement (element : FormattingElement)
  | popCurrentNode
  | removeOpenElement (node : ℕ)
  /-- the head is opened again, for one token -/
  | openHead (head : ℕ)
  | startFormatting (element : FormattingElement) (formatting : IsFormatting element)
  | startAnchor (element : FormattingElement) (formatting : IsFormatting element)
  | startNobr (element : FormattingElement) (formatting : IsFormatting element)
  | startScope (element : FormattingElement)
  | addMarker
  | reconstruct
  | endFormatting (subject : TagEnum) (formatting : subject ∈ formattingTags)
  | clear

/-- `reconstruct_active_formatting_elements`, and a new element that is added. -/
def startFormatting (element : FormattingElement) (s : TreeBuilder) : TreeBuilder :=
  let s := s.reconstruct
  (s.insertElement element).addFormattingElement (some s.nextNode)

/-- The start tag of a link; one in the list is closed first. -/
def startAnchor (element : FormattingElement) (s : TreeBuilder) : Option TreeBuilder :=
  match s.findLastAnchorIndex with
  | none => some (s.startFormatting element)
  | some _ =>
      (s.adoptionAgencyAlgorithm .a).map fun r => r.1.removeLastAnchor.startFormatting element

/-- The start tag of a `nobr`; one in scope is closed first. -/
def startNobr (element : FormattingElement) (s : TreeBuilder) : Option TreeBuilder :=
  let s' := s.reconstruct
  if s'.hasAnElementInScope .nobr then
    (s'.adoptionAgencyAlgorithm .nobr).map fun r => r.1.startFormatting element
  else some ((s'.insertElement element).addFormattingElement (some s'.nextNode))

/-- The head is not open when it is opened again. -/
def openHead (head : ℕ) (s : TreeBuilder) : Option TreeBuilder :=
  if head < s.nextNode ∧ (s.nodes head).tag = .head ∧ head ∉ s.openElements then
    some { s with openElements := s.openElements ++ [head] }
  else none

def Op.apply (s : TreeBuilder) : Op → Option TreeBuilder
  | .insertElement element => some (s.insertElement element)
  | .popCurrentNode => some s.popCurrentNode
  | .removeOpenElement node => some (s.removeOpenElement node)
  | .openHead head => s.openHead head
  | .startFormatting element _ => some (s.startFormatting element)
  | .startAnchor element _ => s.startAnchor element
  | .startNobr element _ => s.startNobr element
  | .startScope element => some ((s.reconstruct.insertElement element).addFormattingElement none)
  | .addMarker => some (s.addFormattingElement none)
  | .reconstruct => some s.reconstruct
  | .endFormatting subject _ => (s.adoptionAgencyAlgorithm subject).map Prod.fst
  | .clear => some s.clear

def start : TreeBuilder where
  nodes _ := markerElement
  nextNode := 0
  openElements := []
  activeFormattingElements := []

/-- No result if an assertion fails on the way. -/
def run (ops : List Op) : Option TreeBuilder := ops.foldlM Op.apply start

theorem sound_start : Sound start where
  listed := by simp [start]
  opened := by simp [start]
  distinct := List.nodup_nil
  nested := nested_nil _
  ark := fun seg hseg _ _ => by
    rw [List.infix_nil.mp hseg]
    exact Nat.zero_le _
  formatting := by simp [start, kinds]

/-- A new element is above all that is listed. -/
theorem Sound.insertFormatting (h : Sound s) {element : FormattingElement}
    (helement : IsFormatting element) :
    Sound ((s.insertElement element).addFormattingElement (some s.nextNode)) := by
  have hnew : (s.insertElement element).nodes s.nextNode = element := Function.update_self _ _ _
  refine (h.insertElement element).addFormattingElement (Nat.lt_succ_self _) ?_ fun x hx => ?_
  · rwa [hnew]
  · have hlt : x < s.nextNode := h.listed x hx
    refine ⟨Nat.ne_of_lt hlt, fun habove => h.notMem_openElements ?_⟩
    have hold := sublist_of_getLast?_notMem habove fun y hy => by
      obtain rfl : x = y := by simpa using hy
      simpa using Nat.ne_of_lt hlt
    exact hold.subset (by simp)

theorem Sound.startFormatting (h : Sound s) {element : FormattingElement}
    (helement : IsFormatting element) : Sound (s.startFormatting element) :=
  h.reconstruct.insertFormatting helement

theorem Sound.openHead (h : Sound s) {head : ℕ} {s' : TreeBuilder}
    (hhead : s.openHead head = some s') : Sound s' := by
  rw [TreeBuilder.openHead] at hhead
  split_ifs at hhead with hcond
  cases hhead
  refine
    { h with
      opened := List.forall_mem_append.mpr ⟨h.opened, by simpa using hcond.1⟩
      distinct := List.nodup_append_comm.mpr (h.distinct.cons hcond.2.2)
      nested := h.nested.push fun node hnode hmem => ?_ }
  obtain rfl := List.mem_singleton.mp hnode
  have hformatting := h.formatting _ (List.mem_map.mpr ⟨some node, hmem, rfl⟩)
  exact absurd (hcond.2.1 ▸ hformatting.2) (by decide)

theorem Sound.of_adoption (h : Sound s) {subject : TagEnum} (hsubject : subject ∈ formattingTags)
    {r : TreeBuilder × Bool} (hr : s.adoptionAgencyAlgorithm subject = some r) : Sound r.1 := by
  rcases h.adoptionAgencyAlgorithm hsubject with ⟨s', success, heq, hsound, -⟩ | ⟨heq, -⟩
  · rw [heq] at hr
    cases hr
    exact hsound
  · rw [heq] at hr
    cases hr

theorem Sound.apply (h : Sound s) {op : Op} {s' : TreeBuilder} (hop : op.apply s = some s') :
    Sound s' := by
  cases op with
  | insertElement element =>
      cases hop
      exact h.insertElement element
  | popCurrentNode =>
      cases hop
      exact h.popCurrentNode
  | removeOpenElement node =>
      cases hop
      exact h.removeOpenElement node
  | openHead head => exact h.openHead hop
  | startFormatting element helement =>
      cases hop
      exact h.startFormatting helement
  | startAnchor element helement =>
      rw [Op.apply, startAnchor] at hop
      split at hop
      · cases hop
        exact h.startFormatting helement
      · obtain ⟨r, hr, rfl⟩ := Option.map_eq_some_iff.mp hop
        exact (h.of_adoption (by decide) hr).removeLastAnchor.startFormatting helement
  | startNobr element helement =>
      simp only [Op.apply, startNobr] at hop
      split_ifs at hop with hscope
      · obtain ⟨r, hr, rfl⟩ := Option.map_eq_some_iff.mp hop
        exact (h.reconstruct.of_adoption (by decide) hr).startFormatting helement
      · cases hop
        exact h.reconstruct.insertFormatting helement
  | startScope element =>
      cases hop
      exact (h.reconstruct.insertElement element).addMarker
  | addMarker =>
      cases hop
      exact h.addMarker
  | reconstruct =>
      cases hop
      exact h.reconstruct
  | endFormatting subject hsubject =>
      obtain ⟨r, hr, rfl⟩ := Option.map_eq_some_iff.mp hop
      exact h.of_adoption hsubject hr
  | clear =>
      cases hop
      exact h.clear

theorem Sound.foldlM (h : Sound s) {ops : List Op} {s' : TreeBuilder}
    (hrun : ops.foldlM Op.apply s = some s') : Sound s' := by
  induction ops generalizing s with
  | nil =>
      cases hrun
      exact h
  | cons op ops ih =>
      obtain ⟨s₁, hop, hrest⟩ := Option.bind_eq_some_iff.mp hrun
      exact ih (h.apply hop) hrest

theorem sound_run {ops : List Op} (hrun : run ops = some s) : Sound s := sound_start.foldlM hrun

/-- **Noah's Ark.** As long as no assertion fails, the list has between two markers at
most three elements of the same tag and attributes. -/
theorem ark_run {ops : List Op} (hrun : run ops = some s) : Ark s.kinds := (sound_run hrun).ark

/-- An element without attributes. -/
def ofTag (tag : TagEnum) : FormattingElement := { markerElement with tag := tag }

/-- Behind `<b><i><p>`. -/
def blockInside : List Op :=
  [.insertElement (ofTag .html), .insertElement (ofTag .head), .popCurrentNode,
    .insertElement (ofTag .body), .startFormatting (ofTag .b) (by decide),
    .startFormatting (ofTag .i) (by decide), .insertElement (ofTag .p)]

/-- With `</b>`, a clone of the `i` takes its place. -/
theorem ark_run_blockInside : ∃ s, run (blockInside ++ [.endFormatting .b (by decide)]) = some s ∧
    s.openElements = [0, 2, 6, 5] ∧ s.activeFormattingElements = [some 6] ∧ Ark s.kinds := by
  have hlists : (run (blockInside ++ [.endFormatting .b (by decide)])).map
      (fun s => (s.openElements, s.activeFormattingElements)) = some ([0, 2, 6, 5], [some 6]) := by
    decide +kernel
  obtain ⟨s, hrun, heq⟩ := Option.map_eq_some_iff.mp hlists
  obtain ⟨hopened, hlist⟩ := Prod.mk.inj heq
  exact ⟨s, hrun, hopened, hlist, ark_run hrun⟩

-- the first of four is forgotten, but not behind a marker
example : (run [.startFormatting (ofTag .b) (by decide), .addMarker,
    .startFormatting (ofTag .b) (by decide), .startFormatting (ofTag .b) (by decide),
    .startFormatting (ofTag .b) (by decide), .startFormatting (ofTag .b) (by decide)]).map
      activeFormattingElements = some [some 0, none, some 2, some 3, some 4] := by
  decide +kernel

/-- **Opening again.** As long as no assertion fails, the elements behind the last
entry that is a marker or open are open again, in their order and by clones of
their kind. A second call finds nothing to do. -/
theorem reconstruct_run {ops : List Op} (hrun : run ops = some s) :
    (∃ kept behind, s.activeFormattingElements = kept ++ behind.map some ∧
      (∀ entry ∈ kept.getLast?, s.Settled entry) ∧
      (∀ node ∈ behind, node ∉ s.openElements) ∧
      Reopened s s.reconstruct kept behind) ∧
    s.reconstruct.kinds = s.kinds ∧
    s.reconstruct.reconstruct = s.reconstruct := by
  have h := sound_run hrun
  obtain ⟨kept, behind, hsplit, hkept, hclosed, hreopened⟩ := reconstruct_reopened h
  exact ⟨⟨kept, behind, hsplit, hkept, hclosed, hreopened⟩,
    hreopened.kinds_eq h hsplit, reconstruct_of_settled (hreopened.settled hkept)⟩

/-- Where the paragraph was closed with the two in it. -/
theorem reconstruct_run_blockInside : ∃ s,
    run (blockInside ++ [.popCurrentNode, .popCurrentNode, .popCurrentNode]) = some s ∧
      s.openElements = [0, 2] ∧ s.reconstruct.openElements = [0, 2, 6, 7] ∧
      s.reconstruct.reconstruct = s.reconstruct := by
  have hlists : (run (blockInside ++ [.popCurrentNode, .popCurrentNode, .popCurrentNode])).map
      (fun s => (s.openElements, s.reconstruct.openElements)) = some ([0, 2], [0, 2, 6, 7]) := by
    decide +kernel
  obtain ⟨s, hrun, heq⟩ := Option.map_eq_some_iff.mp hlists
  obtain ⟨hopened, hopened'⟩ := Prod.mk.inj heq
  exact ⟨s, hrun, hopened, hopened', (reconstruct_run hrun).2.2⟩

/-- **The adoption agency.** As long as `html` was opened first and nothing else is
`html`, no assertion fails in it, it reads nothing that is not there, and its loops
end. -/
theorem adoptionAgencyAlgorithm_run {ops : List Op} (hrun : run ops = some s)
    (hroot : RootFirst s.opens) {subject : TagEnum} (hsubject : subject ∈ formattingTags) :
    ∃ s' success, s.adoptionAgencyAlgorithm subject = some (s', success) ∧
      RootFirst s'.opens ∧ Ark s'.kinds := by
  rcases (sound_run hrun).adoptionAgencyAlgorithm hsubject with
    ⟨s', success, heq, hsound, hrooted⟩ | ⟨-, hnot⟩
  · exact ⟨s', success, heq, hrooted hroot, hsound.ark⟩
  · exact absurd hroot hnot

theorem adoptionAgencyAlgorithm_run_blockInside : ∃ s s' success, run blockInside = some s ∧
    s.adoptionAgencyAlgorithm .b = some (s', success) ∧ RootFirst s'.opens ∧ Ark s'.kinds := by
  have hroot : (run blockInside).map (fun s => decide (RootFirst s.opens)) = some true := by
    decide +kernel
  obtain ⟨s, hrun, hopens⟩ := Option.map_eq_some_iff.mp hroot
  obtain ⟨s', success, hadoption⟩ :=
    adoptionAgencyAlgorithm_run hrun (of_decide_eq_true hopens) (by decide : .b ∈ formattingTags)
  exact ⟨s, s', success, hrun, hadoption⟩

end TreeBuilder

end HtmlBenchmark.Gumbo
