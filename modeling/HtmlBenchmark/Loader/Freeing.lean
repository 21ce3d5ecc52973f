import HtmlBenchmark.Loader.Ownership
import Mathlib.Data.List.GetD

/-!
The end of a test set.

`benchmark_freeTestSet` frees what the slots point to. To free what is not
allocated is a fault, and a call that faults has no result. The pass that fills
the slots hands out blocks in the order of their allocation, so no two slots
share one, and a loaded test set is freed without a fault. What stays behind is
the block of each file that could not be read to its end.
-/

namespace HtmlBenchmark.Loader

namespace Resources

/-- `free` of a pointer that is not NULL. -/
def free (r : Resources) (pointer : ℕ) : Option Resources :=
  match r.block pointer with
  | some _ => some { r with heap := r.heap.set pointer none }
  | none => none

def live (r : Resources) : ℕ := r.heap.countP Option.isSome

end Resources

/-- `free`, unless the pointer is NULL. -/
def freeBuffer (r : Resources) : Option ℕ → Option Resources
  | some pointer => r.free pointer
  | none => some r

/-- `benchmark_freeTestSet`. The array goes too, but the pointer to it stays in
the test set. -/
def benchmarkFreeTestSet (s : State) : Option State := do
  let r ← match s.testset.data with
    | some slots =>
        (List.range s.testset.count).foldlM (fun r i => freeBuffer r (slots i).buffer) s.resources
    | none => if s.testset.count = 0 then some s.resources else none
  return { s with testset := { s.testset with count := 0, setSize := 0 }, resources := r }

/-! ### Freeing several blocks -/

namespace Resources

variable {r : Resources}

theorem free_of_live {pointer : ℕ} (h : r.block pointer ≠ none) :
    r.free pointer = some { r with heap := r.heap.set pointer none } := by
  obtain ⟨bytes, hbytes⟩ := Option.ne_none_iff_exists'.mp h
  simp only [free, hbytes]

theorem block_set (pointer q : ℕ) :
    ({ r with heap := r.heap.set pointer none } : Resources).block q =
      if q = pointer then none else r.block q := by
  simp only [block, List.getD_eq_getElem?_getD, List.getElem?_set]
  split_ifs <;> simp_all

theorem live_set {pointer : ℕ} (h : r.block pointer ≠ none) :
    ({ r with heap := r.heap.set pointer none } : Resources).live + 1 = r.live := by
  obtain ⟨bytes, hbytes⟩ := Option.ne_none_iff_exists'.mp h
  have hlt : pointer < r.heap.length := by
    by_contra hge
    exact h (block_of_le (by omega))
  have hsome : r.heap[pointer] = some bytes := by
    rw [block, List.getD_eq_getElem _ _ hlt] at hbytes
    exact hbytes
  have hle := List.boole_getElem_le_countP (p := Option.isSome) hlt
  rw [live, live, List.countP_set hlt]
  simp only [hsome, Option.isSome_some, Option.isSome_none, if_true, Bool.false_eq_true, if_false]
    at hle ⊢
  omega

/-- Different blocks can all be freed, and then nothing else has changed. -/
theorem foldlM_free {pointers : List ℕ} (hnodup : pointers.Nodup)
    (hlive : ∀ p ∈ pointers, r.block p ≠ none) :
    ∃ r', pointers.foldlM free r = some r' ∧ r'.live + pointers.length = r.live ∧
      r'.openDirs = r.openDirs ∧ r'.openFiles = r.openFiles ∧
      ∀ q, r'.block q = if q ∈ pointers then none else r.block q := by
  induction pointers generalizing r with
  | nil => exact ⟨r, rfl, rfl, rfl, rfl, fun q => by simp⟩
  | cons p pointers ih =>
      obtain ⟨hp, hrest⟩ := List.forall_mem_cons.mp hlive
      obtain ⟨hnotMem, hnodup'⟩ := List.nodup_cons.mp hnodup
      obtain ⟨r', hfold, hcount, hdirs, hfiles, hblock⟩ :=
        ih (r := { r with heap := r.heap.set p none }) hnodup' fun q hq => by
          rw [block_set, if_neg (ne_of_mem_of_not_mem hq hnotMem)]
          exact hrest q hq
      have hset := live_set hp
      refine ⟨r', ?_, by rw [List.length_cons]; omega, hdirs, hfiles, fun q => ?_⟩
      · rw [List.foldlM_cons, free_of_live hp]
        exact hfold
      · rw [hblock, block_set]
        by_cases hq : q = p <;> simp [hq]

end Resources

/-! ### The slots of a pass -/

/-- The pass, begun with the resources `r`, has filled the slots below the index
with blocks of its own, and lost some. -/
structure Filled (r : Resources) (lost : ℕ) (s : State × ℕ) : Prop where
  slots : ∃ slots, ∃ pointers : List ℕ, s.1.testset.data = some slots ∧
    (List.range s.2).map (fun j => (slots j).buffer) = pointers.map some ∧
    pointers.Pairwise (· < ·) ∧
    ∀ p ∈ pointers, r.heap.length ≤ p ∧ p < s.1.resources.heap.length
  heap : ∃ blocks : List (List UInt8), s.1.resources.heap = r.heap ++ blocks.map some ∧
    blocks.length = s.2 + lost

theorem testSetAppend_unreadable (blocks : ℕ → Buf) (s : State) (index : ℕ) {f : File}
    (h : f.unreadable) :
    ∃ r block, testSetAppend blocks s index f = ({ s with resources := r }, -1) ∧
      r.heap = s.resources.heap ++ [some block] := by
  simp only [File.unreadable, Bool.and_eq_true, decide_eq_true_eq, Option.isNone_iff_eq_none] at h
  obtain ⟨⟨hopens, hsize⟩, hbytes⟩ := h
  simp only [testSetAppend, hopens, Bool.not_true, Bool.false_eq_true, if_false,
    if_neg (show ¬f.size < 1 by omega), hbytes]
  exact ⟨_, _, rfl, rfl⟩

namespace Filled

variable {r : Resources} {lost : ℕ} {s : State × ℕ}

/-- A file that is loaded has the last block, which is behind all the others. -/
theorem append (h : Filled r lost s) (blocks : ℕ → Buf) {f : File} (hloads : f.loads) :
    Filled r lost ((testSetAppend blocks s.1 s.2 f).1, s.2 + 1) := by
  obtain ⟨bytes, -, -, -, happend⟩ := testSetAppend_loads blocks s.1 s.2 hloads
  obtain ⟨slots, pointers, hdata, hbuffers, hsorted, hrange⟩ := h.slots
  obtain ⟨news, hheap, hlength⟩ := h.heap
  have hbase : r.heap.length ≤ s.1.resources.heap.length := by simp [hheap]
  rw [happend]
  refine ⟨⟨Function.update slots s.2
      { buffer := some s.1.resources.heap.length, size := bytes.length + 1 },
    pointers ++ [s.1.resources.heap.length], by simp [Testset.fill, hdata], ?_, ?_, ?_⟩, ?_⟩
  · have hbefore : (List.range s.2).map (fun j => (Function.update slots s.2
        { buffer := some s.1.resources.heap.length, size := bytes.length + 1 } j).buffer) =
          (List.range s.2).map fun j => (slots j).buffer :=
      List.map_congr_left fun j hj => by
        rw [Function.update_of_ne (Nat.ne_of_lt (List.mem_range.mp hj))]
    rw [List.range_succ, List.map_append, hbefore, hbuffers]
    simp
  · refine List.pairwise_append.mpr ⟨hsorted, List.pairwise_singleton _ _, fun p hp q hq => ?_⟩
    rw [List.mem_singleton.mp hq]
    exact (hrange p hp).2
  · intro p hp
    simp only [Resources.malloc, List.length_append, List.length_singleton]
    rcases List.mem_append.mp hp with hp | hp
    · have := hrange p hp
      omega
    · rw [List.mem_singleton.mp hp]
      omega
  · exact ⟨news ++ [bytes ++ [0]], by simp [Resources.malloc, hheap], by simp [hlength]; omega⟩

/-- The block of a file that is not read to its end is lost. -/
theorem lose (h : Filled r lost s) (blocks : ℕ → Buf) {f : File} (hunreadable : f.unreadable) :
    Filled r (lost + 1) ((testSetAppend blocks s.1 s.2 f).1, s.2) := by
  obtain ⟨r', block, happend, hgrown⟩ := testSetAppend_unreadable blocks s.1 s.2 hunreadable
  obtain ⟨slots, pointers, hdata, hbuffers, hsorted, hrange⟩ := h.slots
  obtain ⟨news, hheap, hlength⟩ := h.heap
  rw [happend]
  refine ⟨⟨slots, pointers, hdata, hbuffers, hsorted, fun p hp => ?_⟩, news ++ [block], ?_, ?_⟩
  · have := hrange p hp
    simp only [hgrown, List.length_append, List.length_singleton]
    omega
  · simp [hgrown, hheap]
  · simp [hlength]
    omega

theorem entry (h : Filled r lost s) (blocks : ℕ → Buf) (pathlen : ℕ) (e : DirEntry) :
    Filled r (lost + (regular [e]).countP File.unreadable) (loadEntry blocks pathlen s e) := by
  have hpath : Filled r lost
      ({ s.1 with fullpath := s.1.fullpath.strcpy pathlen e.dName }, s.2) := ⟨h.slots, h.heap⟩
  rw [loadEntry]
  cases hreg : e.isReg with
  | false => simpa [regular, hreg] using hpath
  | true =>
      have hregular : regular [e] = [e.file] := by simp [regular, hreg]
      rw [hregular, List.countP_singleton]
      cases hloads : e.file.loads with
      | true =>
          have hcode := (testSetAppend_eq_zero_iff blocks
            { s.1 with fullpath := s.1.fullpath.strcpy pathlen e.dName } s.2 e.file).mpr hloads
          simp only [File.unreadable_of_loads hloads, if_true, hcode, ne_eq, not_true_eq_false,
            if_false, Bool.false_eq_true]
          exact hpath.append blocks hloads
      | false =>
          have hcode := (testSetAppend_fails blocks
            { s.1 with fullpath := s.1.fullpath.strcpy pathlen e.dName } s.2 hloads).1
          cases hunreadable : e.file.unreadable with
          | true => simpa [hcode] using hpath.lose blocks hunreadable
          | false => simpa [testSetAppend_rejects blocks _ s.2 hloads hunreadable] using hpath

theorem foldl (h : Filled r lost s) (blocks : ℕ → Buf) (pathlen : ℕ) (entries : List DirEntry) :
    Filled r (lost + (regular entries).countP File.unreadable)
      (entries.foldl (loadEntry blocks pathlen) s) := by
  induction entries generalizing s lost with
  | nil => exact h
  | cons e entries ih =>
      have hcons : regular (e :: entries) = regular [e] ++ regular entries := by
        rw [regular, regular, regular, ← List.map_append, ← List.filter_append,
          List.singleton_append]
      rw [List.foldl_cons, hcons, List.countP_append, ← Nat.add_assoc]
      exact ih (h.entry blocks pathlen e)

/-- What is left when the slots are freed. -/
theorem freed (h : Filled r lost s) (hindex : s.1.testset.count = s.2) :
    ∃ r', benchmarkFreeTestSet s.1 = some
        { s.1 with testset := { s.1.testset with count := 0, setSize := 0 }, resources := r' } ∧
      r'.live = r.live + lost ∧ ∀ p < r.heap.length, r'.block p = r.block p := by
  obtain ⟨slots, pointers, hdata, hbuffers, hsorted, hrange⟩ := h.slots
  obtain ⟨news, hheap, hlength⟩ := h.heap
  have hblock : ∀ p ∈ pointers, s.1.resources.block p ≠ none := by
    intro p hp
    obtain ⟨hge, hlt⟩ := hrange p hp
    rw [hheap, List.length_append, List.length_map] at hlt
    rw [Resources.block, hheap, List.getD_append_right _ _ _ _ hge,
      List.getD_eq_getElem _ _ (by simp; omega)]
    simp
  obtain ⟨r', hfree, hlive, -, -, hafter⟩ :=
    Resources.foldlM_free (hsorted.imp Nat.ne_of_lt) hblock
  refine ⟨r', ?_, ?_, fun p hp => ?_⟩
  · have hloop : (List.range s.2).foldlM (fun r i => freeBuffer r (slots i).buffer)
        s.1.resources = some r' := by
      rw [← hfree]
      trans ((List.range s.2).map fun j => (slots j).buffer).foldlM freeBuffer s.1.resources
      · exact List.foldlM_map.symm
      · rw [hbuffers]
        exact List.foldlM_map
    simp only [benchmarkFreeTestSet, hdata, hindex, hloop]
    rfl
  · have hcount : pointers.length = s.2 := by
      simpa using (congrArg List.length hbuffers).symm
    have hbefore : s.1.resources.live = r.live + news.length := by
      simp [Resources.live, hheap, List.countP_append, List.countP_map]
    omega
  · have hnotMem : p ∉ pointers := fun hmem => absurd (hrange p hmem).1 (by omega)
    rw [hafter, if_neg hnotMem, Resources.block, hheap, List.getD_append _ _ _ _ hp]
    rfl

end Filled

/-- **Loading and freeing.** A test set that has been loaded is freed without a
fault, and is empty then. Of the blocks allocated since only those of the files
that could not be read are left, and the older ones are as they were. -/
theorem freeTestSet_loadTestSet (a : Answers) (r : Resources) (path : CString)
    (h : (benchmarkLoadTestSet a r path).2 = 0) :
    ∃ s, benchmarkFreeTestSet (benchmarkLoadTestSet a r path).1 = some s ∧
      s.testset.count = 0 ∧ s.testset.setSize = 0 ∧
      s.resources.live = r.live +
        (regular (reached a.loading (regular a.counting).length)).countP File.unreadable ∧
      ∀ pointer < r.heap.length, s.resources.block pointer = r.block pointer := by
  cases hopens : a.opensDir with
  | false => simp [benchmarkLoadTestSet, hopens] at h
  | true =>
      by_cases hgives : regular a.counting = [] ∨ a.allocates = false
      · rw [benchmarkLoadTestSet_gives_up a r path hopens hgives] at h
        simp at h
      · obtain ⟨hregular, hallocates⟩ := not_or.mp hgives
        rw [Bool.not_eq_false] at hallocates
        have hbegins : Filled r 0 (allocated a r path, 0) :=
          ⟨⟨_, [], rfl, rfl, List.Pairwise.nil, by simp⟩, [], by simp [allocated, counted], rfl⟩
        have hpassed : Filled r _ (passed a r path) := hbegins.foldl a.blocks
          (pathPrefix a.stack path).2 (reached a.loading (regular a.counting).length)
        rw [benchmarkLoadTestSet_goes_through a r path hopens hregular hallocates]
        -- what comes behind the pass touches neither the slots nor the heap
        have hended : Filled r _
            ({ (passed a r path).1 with
               testset := { (passed a r path).1.testset with count := (passed a r path).2 }
               resources := { (passed a r path).1.resources with
                 openDirs := (passed a r path).1.resources.openDirs - 1 } },
              (passed a r path).2) := ⟨hpassed.slots, hpassed.heap⟩
        obtain ⟨r', hfree, hlive, hold⟩ := hended.freed rfl
        rw [Nat.zero_add] at hlive
        exact ⟨_, hfree, rfl, rfl, hlive, hold⟩

/-- One page, and a file that cannot be read. -/
def unreadable : Answers :=
  let lost : DirEntry :=
    { dName := ⟨bytes "q", by decide⟩
      isReg := true
      file := { opens := true, size := 3, bytes := none, complete := by simp } }
  { changing with counting := lost :: changing.counting, loading := lost :: changing.counting }

theorem freeTestSet_unreadable :
    (benchmarkLoadTestSet unreadable {} ⟨bytes "d", by decide⟩).2 = 0 ∧
      ∃ s, benchmarkFreeTestSet (benchmarkLoadTestSet unreadable {} ⟨bytes "d", by decide⟩).1 =
          some s ∧ s.resources.live = 1 := by
  have hload : (benchmarkLoadTestSet unreadable {} ⟨bytes "d", by decide⟩).2 = 0 :=
    (benchmarkLoadTestSet_goes_through unreadable {} _ rfl (by simp [regular, unreadable, changing])
      rfl) ▸ rfl
  obtain ⟨s, hfree, -, -, hlive, -⟩ := freeTestSet_loadTestSet unreadable {} _ hload
  exact ⟨hload, s, hfree, hlive.trans (by decide)⟩

end HtmlBenchmark.Loader
