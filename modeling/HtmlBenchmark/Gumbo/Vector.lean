import HtmlBenchmark.Gumbo.Ownership
import Mathlib.Data.Finset.Option
import Mathlib.Data.List.InsertIdx

/-!
The growing array of `gumbo-parser/vector.c`.

The tree builder keeps the children of a node, its open elements and the errors
in such arrays, which the walks of `test_gumbo.c` then read as lists. Here is what
allows that: the calls that change an array, followed with a ledger of blocks, do
what the same calls do on a list. An access outside the block and an assertion
that does not hold are faults.
-/

namespace HtmlBenchmark.Gumbo

open Library

def assert (p : Prop) [Decidable p] : Ledgered Unit := fun l => if p then some ((), l) else none

/-- `gumbo_parser_deallocate`; to free NULL does nothing. -/
def deallocate : Option ℕ → Ledgered Unit
  | none => pure ()
  | some block => release block

/-- `memmove`, in one block -/
def memmove {α : Type} (cells : ℕ → α) (dst src n : ℕ) : ℕ → α :=
  fun i => if dst ≤ i ∧ i < dst + n then cells (i - dst + src) else cells i

/-- `GumboVector`: the block `data` points to, for how many entries it was
allocated, and what is in it. -/
structure GumboVector (α : Type) where
  block : Option ℕ
  room : ℕ
  cells : ℕ → α
  length : ℕ
  capacity : ℕ

namespace GumboVector

-- `junk` is what a new block contains
variable {α : Type} (junk : ℕ → ℕ → α)

/-- An access to entries before the `n`th. -/
def access (n : ℕ) (vector : GumboVector α) : Ledgered Unit :=
  match vector.block with
  | none => fun _ => none
  | some block => do
      use block
      assert (n ≤ vector.room)

def init (initialCapacity : ℕ) : Ledgered (GumboVector α) :=
  let capacity := initialCapacity % 2 ^ 32
  if initialCapacity > 0 then do
    let block ← acquire
    return { block := some block, room := initialCapacity, cells := junk block, length := 0,
             capacity := capacity }
  else return { block := none, room := 0, cells := junk 0, length := 0, capacity := capacity }

def destroy (vector : GumboVector α) : Ledgered Unit :=
  if vector.capacity > 0 then deallocate vector.block else pure ()

/-- `enlarge_vector_if_full` -/
def enlargeIfFull (vector : GumboVector α) : Ledgered (GumboVector α) :=
  if vector.capacity ≤ vector.length then
    if vector.capacity ≠ 0 then do
      let capacity := vector.capacity * 2 % 2 ^ 32
      let block ← acquire
      let temp : GumboVector α :=
        { vector with
          block := some block
          room := capacity
          cells := fun i => if i < vector.capacity then vector.cells i else junk block i
          capacity := capacity }
      vector.access vector.capacity
      temp.access vector.capacity
      deallocate vector.block
      return temp
    else do
      let block ← acquire
      return { vector with block := some block, room := 2, cells := junk block, capacity := 2 }
  else return vector

def add (element : α) (vector : GumboVector α) : Ledgered (GumboVector α) := do
  let vector ← vector.enlargeIfFull junk
  assert vector.block.isSome
  assert (vector.length < vector.capacity)
  vector.access (vector.length + 1)
  return { vector with
    cells := Function.update vector.cells vector.length element
    length := (vector.length + 1) % 2 ^ 32 }

def pop (vector : GumboVector α) : Ledgered (Option α × GumboVector α) :=
  if vector.length = 0 then return (none, vector)
  else do
    vector.access vector.length
    return (some (vector.cells (vector.length - 1)), { vector with length := vector.length - 1 })

def insertAt (element : α) (index : ℕ) (vector : GumboVector α) :
    Ledgered (GumboVector α) := do
  assert (index ≤ vector.length)
  let vector ← vector.enlargeIfFull junk
  let length := (vector.length + 1) % 2 ^ 32
  vector.access length
  return { vector with
    cells := Function.update
      (memmove vector.cells (index + 1) index (length - index - 1)) index element
    length := length }

def removeAt (index : ℕ) (vector : GumboVector α) : Ledgered (α × GumboVector α) := do
  assert (index < vector.length)
  vector.access vector.length
  return (vector.cells index, { vector with
    cells := memmove vector.cells index (index + 1) (vector.length - index - 1)
    length := vector.length - 1 })

section

variable [DecidableEq α]

/-- The loop of `gumbo_vector_index_of`, with so many rounds left. -/
def indexOfLoop (element : α) (vector : GumboVector α) : ℕ → ℕ → Ledgered ℤ
  | 0, _ => return -1
  | rounds + 1, i => do
      vector.access (i + 1)
      if vector.cells i = element then return (i : ℤ).bmod (2 ^ 32)
      else indexOfLoop element vector rounds (i + 1)

def indexOf (element : α) (vector : GumboVector α) : Ledgered ℤ :=
  vector.indexOfLoop element vector.length 0

def remove (node : α) (vector : GumboVector α) : Ledgered (GumboVector α) := do
  let index ← vector.indexOf node
  if index = -1 then return vector
  else do
    let removed ← vector.removeAt (index % 2 ^ 32).toNat
    return removed.2

end

/-! ### The list an array stands for -/

def contents (vector : GumboVector α) : List α :=
  (List.range vector.length).map vector.cells

@[simp] theorem length_contents (vector : GumboVector α) :
    vector.contents.length = vector.length := by
  simp [contents]

theorem getElem?_contents (vector : GumboVector α) (i : ℕ) :
    vector.contents[i]? = if i < vector.length then some (vector.cells i) else none := by
  split_ifs with h <;> simp [contents, h]

/-- What holds between two calls, when the other blocks belong to `others`. -/
structure Valid (vector : GumboVector α) (others : Finset ℕ) (l : Ledger) : Prop where
  length_le : vector.length ≤ vector.capacity
  capacity_le : vector.capacity ≤ vector.room
  capacity_lt : vector.capacity < 2 ^ 32
  isSome_iff : vector.block.isSome ↔ 0 < vector.capacity
  notMem : ∀ p ∈ vector.block, p ∉ others
  live : l.live = others ∪ vector.block.toFinset

variable {junk} {vector : GumboVector α} {others : Finset ℕ} {l : Ledger}

/-- The entries may change, and their number up to the capacity. -/
theorem Valid.withCells (h : Valid vector others l) (cells : ℕ → α) {length : ℕ}
    (hlength : length ≤ vector.capacity) :
    Valid { vector with cells := cells, length := length } others l :=
  { h with length_le := hlength }

theorem Valid.next_notMem (h : Valid vector others l) : l.next ∉ others := by
  intro hmem
  refine l.next_notMem ?_
  rw [h.live]
  exact Finset.mem_union_left _ hmem

theorem ends_assert {p : Prop} [Decidable p] (h : p) :
    Ends (assert p) l fun _ l' => l' = l :=
  ⟨_, _, if_pos h, rfl⟩

theorem ends_access {vector : GumboVector α} {p n : ℕ} (hblock : vector.block = some p)
    (hlive : p ∈ l.live) (hn : n ≤ vector.room) :
    Ends (vector.access n) l fun _ l' => l' = l := by
  rw [access, hblock]
  refine (ends_use hlive).bind ?_
  rintro _ l' rfl
  exact ends_assert hn

theorem Valid.ends_access (h : Valid vector others l) {n : ℕ} (hpos : 0 < vector.capacity)
    (hn : n ≤ vector.capacity) : Ends (vector.access n) l fun _ l' => l' = l := by
  obtain ⟨p, hp⟩ := Option.isSome_iff_exists.mp (h.isSome_iff.mpr hpos)
  refine GumboVector.ends_access hp ?_ (Nat.le_trans hn h.capacity_le)
  rw [h.live, hp]
  simp

/-! ### One call -/

theorem ends_init (junk : ℕ → ℕ → α) {initialCapacity : ℕ} (hword : initialCapacity < 2 ^ 32)
    (l : Ledger) : Ends (init junk initialCapacity) l fun vector l' =>
      Valid vector l.live l' ∧ vector.contents = [] := by
  rw [init]
  split_ifs with hpos
  · refine (ends_acquire l).bind ?_
    rintro p l' ⟨rfl, rfl⟩
    refine .pure ⟨⟨Nat.zero_le _, Nat.mod_le _ _, Nat.mod_lt _ (by decide), ?_, ?_, ?_⟩, rfl⟩
    · simp only [Option.isSome_some, true_iff]
      rwa [Nat.mod_eq_of_lt hword]
    · rintro p hp
      obtain rfl : l.next = p := Option.some.inj hp
      exact l.next_notMem
    · simp
  · obtain rfl : initialCapacity = 0 := by omega
    exact .pure ⟨⟨Nat.le_refl _, Nat.le_refl _, Nat.two_pow_pos 32, by simp, by simp, by simp⟩,
      rfl⟩

theorem Valid.ends_destroy (h : Valid vector others l) :
    Ends vector.destroy l fun _ l' => l'.live = others := by
  rw [destroy]
  cases hblock : vector.block with
  | none =>
      have hlive := h.live
      have hpos := h.isSome_iff
      rw [hblock] at hlive hpos
      rw [if_neg fun hgt => Bool.false_ne_true (hpos.mpr hgt)]
      exact .pure (by simpa using hlive)
  | some p =>
      have hlive := h.live
      rw [hblock] at hlive
      rw [if_pos (h.isSome_iff.mp (by rw [hblock]; rfl))]
      refine (ends_release (by rw [hlive]; simp)).mono ?_
      rintro _ l' rfl
      rw [Ledger.live_erase, hlive, Option.toFinset_some, Finset.union_comm,
        ← Finset.insert_eq, Finset.erase_insert (h.notMem p hblock)]

/-- There is room for one entry more, and nothing else has changed. -/
theorem Valid.ends_enlargeIfFull (h : Valid vector others l) (hword : vector.length < 2 ^ 31) :
    Ends (vector.enlargeIfFull junk) l fun vector' l' =>
      Valid vector' others l' ∧ vector'.length = vector.length ∧
        vector'.contents = vector.contents ∧ vector.length < vector'.capacity := by
  have hle := h.length_le
  rw [enlargeIfFull]
  split_ifs with hfull hpos
  · -- the entries are copied to a block of the double size
    have hcapacity : vector.capacity * 2 % 2 ^ 32 = vector.capacity * 2 :=
      Nat.mod_eq_of_lt (by omega)
    obtain ⟨p, hp⟩ := Option.isSome_iff_exists.mp (h.isSome_iff.mpr (Nat.pos_of_ne_zero hpos))
    have hmem : p ∈ l.live := by rw [h.live, hp]; simp
    have hne : p ≠ l.next := fun heq => l.next_notMem (heq ▸ hmem)
    rw [hcapacity]
    refine (ends_acquire l).bind ?_
    rintro q l' ⟨rfl, rfl⟩
    refine (GumboVector.ends_access hp (by simp [hmem]) h.capacity_le).bind ?_
    rintro _ l' rfl
    refine (GumboVector.ends_access rfl (by simp) (by simp only; omega)).bind ?_
    rintro _ l' rfl
    have hfree : Ends (deallocate vector.block) l.insertNext fun _ l' =>
        l' = l.insertNext.erase p := by
      rw [hp]
      exact ends_release (by simp [hmem])
    refine hfree.bind ?_
    rintro _ l' rfl
    refine .pure ⟨⟨by simp only; omega, Nat.le_refl _, by simp only; omega, ?_, ?_, ?_⟩, rfl, ?_,
      by simp only; omega⟩
    · simp only [Option.isSome_some, true_iff]
      omega
    · rintro q hq
      obtain rfl : l.next = q := Option.some.inj hq
      exact h.next_notMem
    · rw [Ledger.live_erase, Ledger.live_insertNext, Finset.erase_insert_of_ne hne.symm, h.live,
        hp, Option.toFinset_some, Option.toFinset_some, Finset.union_singleton,
        Finset.union_singleton, Finset.erase_insert (h.notMem p hp)]
    · refine List.map_congr_left fun i hi => if_pos ?_
      exact Nat.lt_of_lt_of_le (List.mem_range.mp hi) hle
  · -- there is no block yet
    have hzero : vector.capacity = 0 := by omega
    have hlength : vector.length = 0 := by omega
    have hnone : vector.block = none := by
      have hpos := h.isSome_iff
      rw [hzero] at hpos
      simpa using hpos
    refine (ends_acquire l).bind ?_
    rintro q l' ⟨rfl, rfl⟩
    refine .pure ⟨⟨by simp only; omega, Nat.le_refl _, by simp, by simp, ?_, ?_⟩, rfl, ?_,
      by simp only; omega⟩
    · rintro q hq
      obtain rfl : l.next = q := Option.some.inj hq
      exact h.next_notMem
    · simp [h.live, hnone]
    · simp [contents, hlength]
  · exact .pure ⟨h, rfl, rfl, Nat.lt_of_not_le hfull⟩

/-- With one entry more there are still fewer than the word can count. -/
theorem Valid.length_succ (h : Valid vector others l) (hlt : vector.length < vector.capacity) :
    (vector.length + 1) % 2 ^ 32 = vector.length + 1 :=
  Nat.mod_eq_of_lt (Nat.lt_of_le_of_lt hlt h.capacity_lt)

theorem Valid.ends_add (h : Valid vector others l) (hword : vector.length < 2 ^ 31)
    (element : α) : Ends (vector.add junk element) l fun vector' l' =>
      Valid vector' others l' ∧ vector'.contents = vector.contents ++ [element] := by
  refine (h.ends_enlargeIfFull hword).bind ?_
  rintro vector' l' ⟨h', hlength, hcontents, hlt⟩
  have hpos : 0 < vector'.capacity := Nat.zero_lt_of_lt hlt
  rw [← hlength] at hlt
  refine (ends_assert (h'.isSome_iff.mpr hpos)).bind ?_
  rintro _ l₁ rfl
  refine (ends_assert hlt).bind ?_
  rintro _ l₁ rfl
  refine (h'.ends_access hpos hlt).bind ?_
  rintro _ l₁ rfl
  refine .pure ⟨h'.withCells _ ?_, ?_⟩
  · rw [h'.length_succ hlt]
    exact hlt
  · rw [← hcontents, contents, contents, h'.length_succ hlt, List.range_succ, List.map_append,
      List.map_singleton]
    congr 1
    · refine List.map_congr_left fun i hi => Function.update_of_ne ?_ _ _
      exact Nat.ne_of_lt (List.mem_range.mp hi)
    · exact congrArg (fun a => [a]) (Function.update_self _ _ _)

theorem Valid.ends_pop (h : Valid vector others l) :
    Ends vector.pop l fun r l' => Valid r.2 others l' ∧
      r.1 = vector.contents.getLast? ∧ r.2.contents = vector.contents.dropLast := by
  rw [pop]
  split_ifs with hzero
  · have hnil : vector.contents = [] := by simp [contents, hzero]
    exact .pure ⟨h, by simp [hnil], by simp [hnil]⟩
  · have hle := h.length_le
    refine (h.ends_access (by omega) hle).bind ?_
    rintro _ l' rfl
    obtain ⟨n, hn⟩ := Nat.exists_eq_succ_of_ne_zero hzero
    refine .pure ⟨h.withCells _ (by omega), ?_, ?_⟩
    · simp [contents, hn, List.range_succ]
    · simp [contents, hn, List.range_succ]

theorem Valid.ends_insertAt (h : Valid vector others l) (hword : vector.length < 2 ^ 31)
    (element : α) {index : ℕ} (hindex : index ≤ vector.length) :
    Ends (vector.insertAt junk element index) l fun vector' l' =>
      Valid vector' others l' ∧
        vector'.contents = vector.contents.insertIdx index element := by
  refine (ends_assert hindex).bind ?_
  rintro _ l₁ rfl
  refine (h.ends_enlargeIfFull hword).bind ?_
  rintro vector' l' ⟨h', hlength, hcontents, hlt⟩
  have hpos : 0 < vector'.capacity := Nat.zero_lt_of_lt hlt
  rw [← hlength] at hlt hindex
  rw [h'.length_succ hlt]
  refine (h'.ends_access hpos hlt).bind ?_
  rintro _ l₁ rfl
  refine .pure ⟨h'.withCells _ hlt, ?_⟩
  rw [← hcontents]
  -- the entries from the place on have moved up by one
  refine List.ext_getElem? fun i => ?_
  rw [List.getElem?_insertIdx, getElem?_contents, getElem?_contents, getElem?_contents,
    length_contents]
  rcases Nat.lt_trichotomy i index with hi | rfl | hi
  · simp only [if_pos hi, Function.update_of_ne (Nat.ne_of_lt hi), memmove]
    rw [if_pos (show i < vector'.length + 1 by omega), if_pos (show i < vector'.length by omega),
      if_neg (by omega)]
  · simp only [Nat.lt_irrefl, if_false, if_true, Function.update_self]
    rw [if_pos (by omega), if_pos hindex]
  · rw [if_neg (Nat.not_lt_of_gt hi), if_neg (Nat.ne_of_gt hi)]
    simp only [Function.update_of_ne (Nat.ne_of_gt hi), memmove]
    split_ifs <;> grind

theorem Valid.ends_removeAt (h : Valid vector others l) {index : ℕ}
    (hindex : index < vector.length) :
    Ends (vector.removeAt index) l fun r l' => Valid r.2 others l' ∧
      vector.contents[index]? = some r.1 ∧ r.2.contents = vector.contents.eraseIdx index := by
  have hle := h.length_le
  refine (ends_assert hindex).bind ?_
  rintro _ l' rfl
  refine (h.ends_access (by omega) hle).bind ?_
  rintro _ l' rfl
  refine .pure ⟨h.withCells _ (by omega), ?_, ?_⟩
  · rw [getElem?_contents, if_pos hindex]
  · -- the entries behind the place have moved down by one
    refine List.ext_getElem? fun i => ?_
    rw [List.getElem?_eraseIdx, getElem?_contents, getElem?_contents, getElem?_contents]
    simp only [memmove]
    split_ifs <;> grind

/-! ### A search -/

variable [DecidableEq α]

/-- Where an entry is, in a part of a list that begins at `start`. -/
def indexIn (element : α) (start : ℕ) (list : List α) : ℤ :=
  if element ∈ list then (start + list.idxOf element : ℕ) else -1

theorem Valid.ends_indexOfLoop (h : Valid vector others l) (hword : vector.length ≤ 2 ^ 31)
    (element : α) {rounds i : ℕ} (hrounds : i + rounds = vector.length) :
    Ends (vector.indexOfLoop element rounds i) l fun r l' => l' = l ∧
      r = indexIn element i ((List.range' i rounds).map vector.cells) := by
  induction rounds generalizing i with
  | zero => exact .pure ⟨rfl, rfl⟩
  | succ rounds ih =>
      have hle := h.length_le
      rw [indexOfLoop, List.range'_succ, List.map_cons, indexIn]
      refine (h.ends_access (by omega) (by omega)).bind ?_
      rintro _ l' rfl
      split_ifs with hfound hmem hmem
      · refine .pure ⟨rfl, ?_⟩
        rw [hfound, List.idxOf_cons_self, Nat.add_zero]
        exact Int.bmod_eq_of_le (by omega) (by omega)
      · exact absurd (hfound ▸ List.mem_cons_self) hmem
      · have htail := (List.mem_cons.mp hmem).resolve_left (Ne.symm hfound)
        refine (ih (by omega)).mono ?_
        rintro r l' ⟨rfl, rfl⟩
        refine ⟨rfl, ?_⟩
        rw [indexIn, if_pos htail, List.idxOf_cons_ne _ hfound]
        congr 1
        omega
      · refine (ih (by omega)).mono ?_
        rintro r l' ⟨rfl, rfl⟩
        exact ⟨rfl, if_neg fun htail => hmem (List.mem_cons_of_mem _ htail)⟩

theorem Valid.ends_indexOf (h : Valid vector others l) (hword : vector.length ≤ 2 ^ 31)
    (element : α) : Ends (vector.indexOf element) l fun r l' =>
      l' = l ∧ r = indexIn element 0 vector.contents := by
  rw [contents, List.range_eq_range']
  exact h.ends_indexOfLoop hword element (Nat.zero_add _)

theorem Valid.ends_remove (h : Valid vector others l) (hword : vector.length ≤ 2 ^ 31)
    (node : α) : Ends (vector.remove node) l fun vector' l' =>
      Valid vector' others l' ∧ vector'.contents = vector.contents.erase node := by
  refine (h.ends_indexOf hword node).bind ?_
  rintro index l' ⟨rfl, rfl⟩
  by_cases hmem : node ∈ vector.contents
  · have hlt : vector.contents.idxOf node < vector.length := by
      rw [← length_contents]
      exact List.idxOf_lt_length_iff.mpr hmem
    have hindex : (indexIn node 0 vector.contents % 2 ^ 32).toNat =
        vector.contents.idxOf node := by
      rw [indexIn, if_pos hmem]
      omega
    have hne : indexIn node 0 vector.contents ≠ -1 := by
      rw [indexIn, if_pos hmem]
      omega
    rw [if_neg hne, hindex]
    refine (h.ends_removeAt hlt).bind ?_
    rintro r l₁ ⟨h₁, -, hcontents⟩
    refine .pure ⟨h₁, hcontents.trans ?_⟩
    exact (List.erase_eq_eraseIdx_of_idxOf rfl).symm
  · rw [indexIn, if_neg hmem, if_pos rfl]
    exact .pure ⟨h, (List.erase_of_not_mem hmem).symm⟩

/-! ### Any sequence of calls -/

/-- What a client does with an array. -/
inductive Call (α : Type)
  | add (element : α)
  | pop
  | insertAt (element : α) (index : ℕ)
  | removeAt (index : ℕ)
  | indexOf (element : α)
  | remove (node : α)

inductive Returned (α : Type)
  | nothing
  | element (element : Option α)
  | index (index : ℤ)
  deriving DecidableEq, Repr

def Call.run (junk : ℕ → ℕ → α) (vector : GumboVector α) :
    Call α → Ledgered (Returned α × GumboVector α)
  | .add element => do
      let vector ← vector.add junk element
      return (.nothing, vector)
  | .pop => do
      let r ← vector.pop
      return (.element r.1, r.2)
  | .insertAt element index => do
      let vector ← vector.insertAt junk element index
      return (.nothing, vector)
  | .removeAt index => do
      let r ← vector.removeAt index
      return (.element (some r.1), r.2)
  | .indexOf element => do
      let index ← vector.indexOf element
      return (.index index, vector)
  | .remove node => do
      let vector ← vector.remove node
      return (.nothing, vector)

/-- What it is to return and to leave, on a list. -/
def Call.apply (list : List α) : Call α → Returned α × List α
  | .add element => (.nothing, list ++ [element])
  | .pop => (.element list.getLast?, list.dropLast)
  | .insertAt element index => (.nothing, list.insertIdx index element)
  | .removeAt index => (.element list[index]?, list.eraseIdx index)
  | .indexOf element => (.index (indexIn element 0 list), list)
  | .remove node => (.nothing, list.erase node)

/-- What it asserts of its index. -/
def Call.InRange (list : List α) : Call α → Prop
  | .insertAt _ index => index ≤ list.length
  | .removeAt index => index < list.length
  | _ => True

def runCalls (junk : ℕ → ℕ → α) :
    List (Call α) → GumboVector α → Ledgered (List (Returned α) × GumboVector α)
  | [], vector => return ([], vector)
  | call :: calls, vector => do
      let r ← call.run junk vector
      let rs ← runCalls junk calls r.2
      return (r.1 :: rs.1, rs.2)

def applyCalls : List (Call α) → List α → List (Returned α)
  | [], _ => []
  | call :: calls, list => (call.apply list).1 :: applyCalls calls (call.apply list).2

def AllInRange : List (Call α) → List α → Prop
  | [], _ => True
  | call :: calls, list => call.InRange list ∧ AllInRange calls (call.apply list).2

/-- The list never has more entries than an `int` can tell apart. -/
def Counted : List (Call α) → List α → Prop
  | [], list => list.length ≤ 2 ^ 31
  | call :: calls, list => list.length ≤ 2 ^ 31 ∧ Counted calls (call.apply list).2

/-- An array from its initialisation to its end. -/
def lifetime (junk : ℕ → ℕ → α) (initialCapacity : ℕ) (calls : List (Call α)) :
    Ledgered (List (Returned α)) := do
  let vector ← init junk initialCapacity
  let rs ← runCalls junk calls vector
  rs.2.destroy
  return rs.1

theorem Call.ends_run (h : Valid vector others l) (hword : vector.length ≤ 2 ^ 31)
    {call : Call α} (hnext : (call.apply vector.contents).2.length ≤ 2 ^ 31)
    (hrange : call.InRange vector.contents) :
    Ends (call.run junk vector) l fun r l' =>
      Valid r.2 others l' ∧ r.1 = (call.apply vector.contents).1 ∧
        r.2.contents = (call.apply vector.contents).2 := by
  cases call with
  | add element =>
      have hlt : vector.length < 2 ^ 31 := by
        rwa [Call.apply, List.length_append, length_contents] at hnext
      refine (h.ends_add hlt element).bind ?_
      rintro vector' l' ⟨h', hcontents⟩
      exact .pure ⟨h', rfl, hcontents⟩
  | pop =>
      refine h.ends_pop.bind ?_
      rintro r l' ⟨h', hlast, hcontents⟩
      exact .pure ⟨h', congrArg Returned.element hlast, hcontents⟩
  | insertAt element index =>
      have hindex : index ≤ vector.length := by rwa [Call.InRange, length_contents] at hrange
      have hlt : vector.length < 2 ^ 31 := by
        rwa [Call.apply, List.length_insertIdx, length_contents, if_pos hindex] at hnext
      refine (h.ends_insertAt hlt element hindex).bind ?_
      rintro vector' l' ⟨h', hcontents⟩
      exact .pure ⟨h', rfl, hcontents⟩
  | removeAt index =>
      have hindex : index < vector.length := by rwa [Call.InRange, length_contents] at hrange
      refine (h.ends_removeAt hindex).bind ?_
      rintro r l' ⟨h', helement, hcontents⟩
      exact .pure ⟨h', congrArg Returned.element helement.symm, hcontents⟩
  | indexOf element =>
      refine (h.ends_indexOf hword element).bind ?_
      rintro index l' ⟨rfl, rfl⟩
      exact .pure ⟨h, rfl, rfl⟩
  | remove node =>
      refine (h.ends_remove hword node).bind ?_
      rintro vector' l' ⟨h', hcontents⟩
      exact .pure ⟨h', rfl, hcontents⟩

/-- An index out of range is a fault. -/
theorem Call.run_eq_none {call : Call α} (hrange : ¬call.InRange vector.contents) :
    call.run junk vector l = none := by
  have hassert : ∀ {p : Prop} [Decidable p], ¬p → assert p l = none := fun hp => if_neg hp
  cases call with
  | insertAt element index =>
      rw [Call.InRange, length_contents] at hrange
      exact bind_eq_none (bind_eq_none (hassert hrange))
  | removeAt index =>
      rw [Call.InRange, length_contents] at hrange
      exact bind_eq_none (bind_eq_none (hassert hrange))
  | add => exact absurd trivial hrange
  | pop => exact absurd trivial hrange
  | indexOf => exact absurd trivial hrange
  | remove => exact absurd trivial hrange

theorem Counted.length_le {calls : List (Call α)} {list : List α} (h : Counted calls list) :
    list.length ≤ 2 ^ 31 := by
  cases calls with
  | nil => exact h
  | cons call calls => exact h.1

theorem ends_runCalls {calls : List (Call α)} (h : Valid vector others l)
    (hcounted : Counted calls vector.contents) (hrange : AllInRange calls vector.contents) :
    Ends (runCalls junk calls vector) l fun rs l' =>
      Valid rs.2 others l' ∧ rs.1 = applyCalls calls vector.contents := by
  induction calls generalizing vector l with
  | nil => exact .pure ⟨h, rfl⟩
  | cons call calls ih =>
      have hword : vector.length ≤ 2 ^ 31 := by simpa using hcounted.length_le
      refine (Call.ends_run h hword hcounted.2.length_le hrange.1).bind ?_
      rintro r l' ⟨h', hreturned, hcontents⟩
      have hcounted' := hcounted.2
      have hrange' := hrange.2
      rw [← hcontents] at hcounted' hrange'
      refine (ih h' hcounted' hrange').bind ?_
      rintro rs l₁ ⟨h₁, hrs⟩
      refine .pure ⟨h₁, ?_⟩
      rw [hrs, hreturned, hcontents, applyCalls]

theorem runCalls_eq_none {calls : List (Call α)} (h : Valid vector others l)
    (hcounted : Counted calls vector.contents) (hrange : ¬AllInRange calls vector.contents) :
    runCalls junk calls vector l = none := by
  induction calls generalizing vector l with
  | nil => exact absurd trivial hrange
  | cons call calls ih =>
      by_cases hcall : call.InRange vector.contents
      · have hword : vector.length ≤ 2 ^ 31 := by simpa using hcounted.length_le
        refine (Call.ends_run h hword hcounted.2.length_le hcall).bind_eq_none ?_
        rintro r l' ⟨h', -, hcontents⟩
        refine bind_eq_none (ih h' ?_ ?_)
        · rw [hcontents]
          exact hcounted.2
        · rw [hcontents]
          exact fun hall => hrange ⟨hcall, hall⟩
      · exact bind_eq_none (Call.run_eq_none hcall)

/-- **The array.** However its calls are mixed, an array returns what a list
returns, stays in its blocks and gives all of them back, if and only if no call
has an index out of range. -/
theorem ends_lifetime_iff (junk : ℕ → ℕ → α) {initialCapacity : ℕ}
    (hword : initialCapacity < 2 ^ 32) {calls : List (Call α)} (hcounted : Counted calls [])
    (l : Ledger) :
    (Ends (lifetime junk initialCapacity calls) l fun rs l' =>
        rs = applyCalls calls [] ∧ l'.live = l.live) ↔ AllInRange calls [] := by
  constructor
  · intro hends
    by_contra hrange
    refine hends.ne_none ((ends_init junk hword l).bind_eq_none ?_)
    rintro vector l' ⟨h, hnil⟩
    refine bind_eq_none (runCalls_eq_none h ?_ ?_)
    · rwa [hnil]
    · rwa [hnil]
  · intro hrange
    refine (ends_init junk hword l).bind ?_
    rintro vector l' ⟨h, hnil⟩
    rw [← hnil] at hcounted hrange ⊢
    refine (ends_runCalls h hcounted hrange).bind ?_
    rintro rs l₁ ⟨h₁, hrs⟩
    refine h₁.ends_destroy.bind ?_
    rintro _ l₂ hlive
    exact .pure ⟨hrs, hlive⟩

/-- An array that grows twice, a search and a removal. -/
theorem ends_lifetime_grown :
    Ends (lifetime (fun _ _ => 0) 1
        [.add 5, .insertAt 6 0, .add 7, .remove 5, .indexOf 7, .pop]) emptyLedger
      fun rs l' => rs = [.nothing, .nothing, .nothing, .nothing, .index 1, .element (some 7)] ∧
        l'.live = ∅ := by
  have hcounted : Counted [.add 5, .insertAt 6 0, .add 7, .remove 5, .indexOf 7, .pop] [] := by
    simp [Counted, Call.apply]
  exact (ends_lifetime_iff (fun _ _ => 0) (by decide) hcounted emptyLedger).mpr
    ⟨trivial, Nat.zero_le _, trivial, trivial, trivial, trivial, trivial⟩

end GumboVector

end HtmlBenchmark.Gumbo
