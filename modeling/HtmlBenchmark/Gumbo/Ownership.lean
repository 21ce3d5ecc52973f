import HtmlBenchmark.Gumbo.Innertext
import HtmlBenchmark.Library.Ledger
import Mathlib.Data.Finset.Option

/-!
The blocks gumbo's walk allocates.

The walk is followed once more, with a ledger of the blocks its strings live in.
An element frees the string of a child when it has appended it, which it does
only if there is something to append. A child that returns an allocated but empty
string is never freed: `lost` is what the walk leaks, one block for each such
child.
-/

namespace HtmlBenchmark.Gumbo

open Library

/-! ### Strings that own a block -/

namespace Owned

/-- A `string_t`, and the name of the block `data` points to. -/
structure OwnedString extends StringT where
  block : Option ℕ

def stringNil : OwnedString := { toStringT := HtmlBenchmark.stringNil, block := none }

def stringInit : Ledgered OwnedString := do
  let block ← acquire
  return { toStringT := HtmlBenchmark.stringInit, block := some block }

/-- The block after a `realloc`, which counts as the same. -/
def reallocBlock : Option ℕ → Ledgered ℕ
  | none => acquire
  | some block => do
      use block
      return block

/-- `string_append`, of bytes that are in no block. -/
def stringAppend (d : OwnedString) (str : Buf) (len : ℕ) : Ledgered OwnedString := do
  let block ← reallocBlock d.block
  return { toStringT := HtmlBenchmark.stringAppend d.toStringT str len, block := some block }

def readBlock : Option ℕ → Ledgered Unit
  | none => fun _ => none
  | some block => use block

/-- `string_free`; to free NULL does nothing. -/
def stringFree (d : OwnedString) : Ledgered Unit :=
  match d.block with
  | none => pure ()
  | some block => release block

/-- The loop of `innertext` at the child at `i`. -/
def joinText (i : ℕ) (contents text : OwnedString) : Ledgered OwnedString := do
  let contents ←
    (if i ≠ 0 ∧ text.size ≠ 0 then stringAppend contents (cstr (bytes " ")) 1
    else pure contents)
  if text.size ≠ 0 then do
    readBlock text.block
    let contents ← stringAppend contents (cstr text.data) text.size
    stringFree text
    return contents
  else pure contents

mutual

def innertext : GumboNode → Ledgered OwnedString
  | .leaf t =>
      if t.type = .text then do
        let text ← stringInit
        stringAppend text (cstr t.text.bytes) t.text.bytes.length
      else pure stringNil
  | .inner e children =>
      if Visible e then do
        let contents ← stringInit
        joinChildren 0 children contents
      else pure stringNil

def joinChildren (i : ℕ) : List GumboNode → OwnedString → Ledgered OwnedString
  | [], contents => pure contents
  | child :: children, contents => do
      let text ← innertext child
      let contents ← joinText i contents text
      joinChildren (i + 1) children contents

end

def testGumbo (root : GumboNode) (mallocs : List ℕ) (result : TestResult) :
    Ledgered TestResult := do
  let result := mallocs.foldl (fun r s => { r with totalBytes := r.totalBytes + s }) result
  let result := searchForLinks root result
  let text ← innertext root
  let result := { result with
    totalInnertextBytes := result.totalInnertextBytes + text.size }
  stringFree text
  return result

end Owned

/-! ### The calls below a node -/

mutual

/-- The nodes below a node that `innertext` is called on. -/
def calls : GumboNode → List GumboNode
  | .leaf _ => []
  | .inner e children => if Visible e then callsAll children else []

def callsAll : List GumboNode → List GumboNode
  | [] => []
  | child :: children => child :: calls child ++ callsAll children

end

/-- A call on the node returns an allocated string. -/
def allocates : GumboNode → Bool
  | .leaf t => t.type = .text
  | .inner e _ => Visible e

/-- A call on the node returns an allocated string with nothing in it. -/
def lost (node : GumboNode) : Bool := allocates node && !hasText node

/-- The walk keeps what was held before and the block it returns, with so many
blocks more. -/
structure Kept (l : Ledger) (leaks : ℕ) (block : Option ℕ) (l' : Ledger) : Prop where
  before : l.live ⊆ l'.live
  returned : ∀ p ∈ block, p ∈ l'.live ∧ p ∉ l.live
  card : l'.live.card = l.live.card + leaks + block.toList.length

/-- How many of the calls lose a block. -/
def leaks (nodes : List GumboNode) : ℕ := nodes.countP lost

theorem allocates_of_hasText {node : GumboNode} (h : hasText node) : allocates node := by
  cases node with
  | leaf t => simp_all [hasText, allocates]
  | inner e children => simp_all [hasText, allocates]

/-! ### One round of the loop -/

variable {l : Ledger} {p : ℕ} {contents : Owned.OwnedString}

theorem ends_stringInit : Ends Owned.stringInit l fun d l' =>
    d = { toStringT := stringInit, block := some l.next } ∧ l' = l.insertNext :=
  (ends_acquire l).bind fun _ _ ⟨hp, hl⟩ => .pure ⟨by rw [hp], hl⟩

theorem ends_stringAppend (hblock : contents.block = some p) (hlive : p ∈ l.live) (str : Buf)
    (len : ℕ) : Ends (Owned.stringAppend contents str len) l fun d l' =>
      d = { toStringT := stringAppend contents.toStringT str len, block := some p } ∧ l' = l := by
  have hrealloc : Ends (Owned.reallocBlock contents.block) l fun q l' => q = p ∧ l' = l := by
    rw [hblock]
    exact (ends_use hlive).bind fun _ _ hl => .pure ⟨rfl, hl⟩
  exact hrealloc.bind fun _ _ ⟨hq, hl⟩ => .pure ⟨by rw [hq], hl⟩

/-- The space in front of the text. -/
theorem ends_space (hblock : contents.block = some p) (hlive : p ∈ l.live) (space : Prop)
    [Decidable space] :
    Ends (if space then Owned.stringAppend contents (cstr (bytes " ")) 1 else pure contents) l
      fun d l' => l' = l ∧ d =
        { toStringT :=
            if space then stringAppend contents.toStringT (cstr (bytes " ")) 1
            else contents.toStringT
          block := some p } := by
  split_ifs
  · exact (ends_stringAppend hblock hlive _ _).mono fun _ _ => And.symm
  · exact .pure ⟨rfl, by rw [← hblock]⟩

/-- What is appended is freed, and what is not is not. -/
theorem ends_joinText (hblock : contents.block = some p) (hlive : p ∈ l.live) (i : ℕ)
    {text : Owned.OwnedString}
    (htext : text.size ≠ 0 → ∃ q, text.block = some q ∧ q ∈ l.live ∧ q ≠ p) :
    Ends (Owned.joinText i contents text) l fun d l' =>
      d = { toStringT := joinText i contents.toStringT text.toStringT, block := some p } ∧
        l'.live = if text.size ≠ 0 then l.live \ text.block.toFinset else l.live := by
  refine (ends_space hblock hlive (i ≠ 0 ∧ text.size ≠ 0)).bind ?_
  rintro d l' ⟨rfl, rfl⟩
  rw [joinText]
  by_cases hsize : text.size = 0
  · simp only [hsize, ne_eq, not_true_eq_false, if_false, and_false]
    exact .pure ⟨rfl, rfl⟩
  · obtain ⟨q, hq, hqlive, hne⟩ := htext hsize
    simp only [ne_eq, hsize, not_false_eq_true, if_true, hq]
    refine (ends_use hqlive).bind ?_
    rintro _ l'' rfl
    refine (ends_stringAppend rfl hlive _ _).bind ?_
    rintro d l'' ⟨rfl, rfl⟩
    have hfree : Ends (Owned.stringFree text) l'' fun _ l' => l' = l''.erase q := by
      rw [Owned.stringFree, hq]
      exact ends_release hqlive
    refine hfree.bind ?_
    rintro _ l' rfl
    exact .pure ⟨rfl, by simp [Finset.sdiff_singleton_eq_erase]⟩

/-! ### The walk -/

/-- A call that allocates nothing. -/
theorem Kept.refl (l : Ledger) : Kept l 0 none l :=
  ⟨Finset.Subset.refl _, fun _ h => absurd h (Option.not_mem_none _), rfl⟩

theorem kept_insertNext (l : Ledger) : Kept l 0 (some l.next) l.insertNext := by
  refine ⟨Finset.subset_insert _ _, fun p hp => ?_, ?_⟩
  · obtain rfl : l.next = p := Option.some.inj hp
    exact ⟨Finset.mem_insert_self _ _, l.next_notMem⟩
  · rw [Ledger.live_insertNext, Finset.card_insert_of_notMem l.next_notMem]
    rfl

/-- The string of a child has been freed, or had no block, or is lost. -/
theorem Kept.round {n : ℕ} {text : Owned.OwnedString} {l' l'' : Ledger}
    (h : Kept l n text.block l') {child : GumboNode} (hsize : text.size ≠ 0 ↔ hasText child)
    (hblock : text.block.isSome = allocates child)
    (hlive : l''.live = if text.size ≠ 0 then l'.live \ text.block.toFinset else l'.live) :
    l.live ⊆ l''.live ∧ l''.live.card = l.live.card + n + (lost child).toNat := by
  have hcard := h.card
  by_cases htext : hasText child
  · obtain ⟨q, hq⟩ := Option.isSome_iff_exists.mp (hblock.trans (allocates_of_hasText htext))
    obtain ⟨hmem, hnew⟩ := h.returned q hq
    rw [if_pos (hsize.mpr htext), hq, Option.toFinset_some, Finset.sdiff_singleton_eq_erase]
      at hlive
    rw [hq, Option.toList_some, List.length_singleton] at hcard
    have hlost : lost child = false := by simp [lost, htext]
    rw [hlive, Finset.card_erase_of_mem hmem, hcard, hlost]
    exact ⟨Finset.subset_erase.mpr ⟨h.before, hnew⟩, rfl⟩
  · rw [if_neg (fun hne => htext (hsize.mp hne))] at hlive
    have hlost : lost child = allocates child := by simp [lost, htext]
    rw [hlive, hcard, hlost, ← hblock]
    refine ⟨h.before, ?_⟩
    cases text.block <;> rfl

mutual

theorem ends_innertext : ∀ (node : GumboNode) (l : Ledger),
    Ends (Owned.innertext node) l fun d l' =>
      d.toStringT = innertext node ∧ d.block.isSome = allocates node ∧
        Kept l (leaks (calls node)) d.block l'
  | .leaf t, l => by
      rw [Owned.innertext, innertext, allocates]
      by_cases htype : t.type = .text
      · rw [if_pos htype, if_pos htype]
        refine ends_stringInit.bind ?_
        rintro d l' ⟨rfl, rfl⟩
        refine (ends_stringAppend rfl (Finset.mem_insert_self _ _) _ _).mono ?_
        rintro d l' ⟨rfl, rfl⟩
        exact ⟨rfl, by simp [htype], kept_insertNext l⟩
      · rw [if_neg htype, if_neg htype]
        exact .pure ⟨rfl, by simp [htype, Owned.stringNil], Kept.refl l⟩
  | .inner e children, l => by
      rw [Owned.innertext, innertext_inner, allocates, calls]
      by_cases hvisible : Visible e
      · rw [if_pos hvisible, if_pos hvisible, if_pos hvisible]
        refine ends_stringInit.bind ?_
        rintro d l' ⟨rfl, rfl⟩
        refine (ends_joinChildren 0 children rfl (Finset.mem_insert_self _ _)).mono ?_
        rintro d l' ⟨rfl, hsub, hcard⟩
        have hnew := kept_insertNext l
        refine ⟨rfl, by simp [hvisible], hnew.before.trans hsub, fun p hp => ?_, ?_⟩
        · exact (hnew.returned p hp).imp_left (fun hmem => hsub hmem)
        · rw [hcard, hnew.card, Nat.add_zero, Nat.add_right_comm]
      · rw [if_neg hvisible, if_neg hvisible, if_neg hvisible]
        exact .pure ⟨rfl, by simp [hvisible, Owned.stringNil], Kept.refl l⟩

theorem ends_joinChildren (i : ℕ) : ∀ (children : List GumboNode) {contents : Owned.OwnedString}
    {p : ℕ} {l : Ledger}, contents.block = some p → p ∈ l.live →
      Ends (Owned.joinChildren i children contents) l fun d l' =>
        d = { toStringT := joinChildren i children contents.toStringT, block := some p } ∧
          l.live ⊆ l'.live ∧ l'.live.card = l.live.card + leaks (callsAll children)
  | [], _, _, l, hblock, _ => .pure ⟨by rw [← hblock]; rfl, Finset.Subset.refl _, rfl⟩
  | child :: children, contents, p, l, hblock, hlive => by
      rw [Owned.joinChildren]
      refine (ends_innertext child l).bind ?_
      rintro text l' ⟨htext, hisSome, hkept⟩
      have hsize : text.size ≠ 0 ↔ hasText child := by rw [htext, size_innertext_ne_zero]
      have howned : text.size ≠ 0 → ∃ q, text.block = some q ∧ q ∈ l'.live ∧ q ≠ p := by
        intro hne
        obtain ⟨q, hq⟩ := Option.isSome_iff_exists.mp
          (hisSome.trans (allocates_of_hasText (hsize.mp hne)))
        obtain ⟨hmem, hnew⟩ := hkept.returned q hq
        exact ⟨q, hq, hmem, fun heq => hnew (heq ▸ hlive)⟩
      refine (ends_joinText hblock (hkept.before hlive) i howned).bind ?_
      rintro d l₁ ⟨rfl, hround⟩
      obtain ⟨hsub, hcard⟩ := hkept.round hsize hisSome hround
      refine (ends_joinChildren (i + 1) children rfl (hsub hlive)).mono ?_
      rintro d l₂ ⟨rfl, hsub', hcard'⟩
      refine ⟨by rw [joinChildren_cons, htext], hsub.trans hsub', ?_⟩
      rw [hcard', hcard, callsAll, leaks, leaks, leaks, List.countP_append, List.countP_cons]
      cases lost child <;> simp <;> omega

end

/-- The walk, and the string it returns freed. -/
theorem ends_testGumbo (root : GumboNode) (mallocs : List ℕ) (result : TestResult) (l : Ledger) :
    Ends (Owned.testGumbo root mallocs result) l fun result' l' =>
      result' = testGumbo root mallocs result ∧ l.live ⊆ l'.live ∧
        l'.live.card = l.live.card + leaks (calls root) := by
  refine (ends_innertext root l).bind ?_
  rintro d l' ⟨htext, -, hkept⟩
  have hfree : Ends (Owned.stringFree d) l' fun _ l₁ =>
      l.live ⊆ l₁.live ∧ l₁.live.card = l.live.card + leaks (calls root) := by
    have hcard := hkept.card
    rw [Owned.stringFree]
    cases hblock : d.block with
    | none =>
        rw [hblock] at hcard
        exact .pure ⟨hkept.before, hcard⟩
    | some p =>
        obtain ⟨hmem, hnew⟩ := hkept.returned p hblock
        refine (ends_release hmem).mono ?_
        rintro _ l₁ rfl
        rw [hblock] at hcard
        refine ⟨Finset.subset_erase.mpr ⟨hkept.before, hnew⟩, ?_⟩
        rw [Ledger.live_erase, Finset.card_erase_of_mem hmem, hcard]
        rfl
  refine hfree.bind fun _ l₁ hl => .pure ⟨?_, hl⟩
  rw [htext]
  rfl

/-! ### The balance -/

/-- No call faults; the walk adds to the ledger the block it returns, and
`test_gumbo` adds nothing. -/
structure Balanced (root : GumboNode) : Prop where
  innertext : ∀ l, Ends (Owned.innertext root) l fun d l' =>
    d.toStringT = Gumbo.innertext root ∧ (∀ p ∈ d.block, p ∉ l.live) ∧
      l'.live = l.live ∪ d.block.toFinset
  testGumbo : ∀ mallocs result l, Ends (Owned.testGumbo root mallocs result) l fun result' l' =>
    result' = Gumbo.testGumbo root mallocs result ∧ l'.live = l.live

theorem leaks_eq_zero_iff (nodes : List GumboNode) :
    leaks nodes = 0 ↔ ∀ node ∈ nodes, allocates node → hasText node := by
  rw [leaks, List.countP_eq_zero]
  refine forall₂_congr fun node _ => ?_
  rw [lost]
  cases allocates node <;> cases hasText node <;> simp

def emptyLedger : Ledger where
  live := ∅
  next := 0
  fresh := fun _ h => absurd h (Finset.notMem_empty _)

/-- Every block that is lost is still held in the end. -/
theorem Balanced.leaks_eq_zero {root : GumboNode} (h : Balanced root) :
    leaks (calls root) = 0 := by
  obtain ⟨_, l', -, ⟨-, hlive⟩, -, -, hcard⟩ :=
    (h.testGumbo [] {} emptyLedger).and (ends_testGumbo root [] {} emptyLedger)
  rw [hlive] at hcard
  omega

/-- **The balance.** All strings are freed exactly when every node below the root
that the walk allocates a string for has a text. -/
theorem balanced_iff (root : GumboNode) :
    Balanced root ↔ ∀ node ∈ calls root, allocates node → hasText node := by
  rw [← leaks_eq_zero_iff]
  refine ⟨Balanced.leaks_eq_zero, fun hzero => ⟨fun l => (ends_innertext root l).mono ?_,
    fun mallocs result l => (ends_testGumbo root mallocs result l).mono ?_⟩⟩
  · rintro d l' ⟨htext, -, hkept⟩
    have hdisjoint : Disjoint l.live d.block.toFinset := by
      rw [Finset.disjoint_right]
      exact fun p hp => (hkept.returned p (Option.mem_toFinset.mp hp)).2
    have hsub : l.live ∪ d.block.toFinset ⊆ l'.live := by
      refine Finset.union_subset hkept.before fun p hp => ?_
      exact (hkept.returned p (Option.mem_toFinset.mp hp)).1
    have hcard : l'.live.card ≤ (l.live ∪ d.block.toFinset).card := by
      rw [hkept.card, hzero, Finset.card_union_of_disjoint hdisjoint]
      cases d.block <;> simp
    exact ⟨htext, fun p hp => (hkept.returned p hp).2,
      (Finset.eq_of_subset_of_card_le hsub hcard).symm⟩
  · rintro result' l' ⟨hresult, hsub, hcard⟩
    exact ⟨hresult, (Finset.eq_of_subset_of_card_le hsub (by omega)).symm⟩

/-- The string of an empty paragraph in a paragraph is not freed. -/
theorem not_forall_balanced : ¬∀ root : GumboNode, Balanced root := by
  intro h
  have hzero := (h (paragraph [paragraph []])).leaks_eq_zero
  exact absurd hzero (by decide)

end HtmlBenchmark.Gumbo
