import HtmlBenchmark.Loader.TestSet
import Mathlib.Algebra.Ring.Nat

/-!
What a loaded test set holds.

The counting pass fixes the capacity; the loading pass fills the array from the
front, and its index moves on only when a file has been loaded. `Loading` is the
invariant of that pass: the slots below the index hold the files loaded so far,
the others are as `memset` left them. Nothing relates the two listings, so the
pass ends with the array full or with the listing exhausted.
-/

namespace HtmlBenchmark.Loader

/-- The file opens, is not empty, and can be read to its end. -/
def File.loads (f : File) : Bool := f.opens && 1 ≤ f.size && f.bytes.isSome

def regular (entries : List DirEntry) : List File :=
  (entries.filter DirEntry.isReg).map DirEntry.file

def loadable (entries : List DirEntry) : List File := (regular entries).filter File.loads

/-- The slot holds the file: all of its bytes and a 0. -/
def Holds (r : Resources) (slot : TestsetBuffer) (f : File) : Prop :=
  ∃ pointer bytes, f.bytes = some bytes ∧ 1 ≤ bytes.length ∧ (bytes.length : ℤ) = f.size ∧
    slot = { buffer := some pointer, size := bytes.length + 1 } ∧
    r.block pointer = some (bytes ++ [0])

/-! ### One file -/

namespace Resources

theorem store_malloc (r : Resources) (block : List UInt8) (offs : ℕ) (src : List UInt8) :
    (r.malloc block).store r.heap.length offs src = r.malloc (memWrite block offs src) := by
  simp [store, malloc, List.modify_eq_take_drop]

theorem block_malloc_of_block {r : Resources} {pointer : ℕ} {bytes : List UInt8}
    (h : r.block pointer = some bytes) (block : List UInt8) :
    (r.malloc block).block pointer = some bytes := by
  simp only [Resources.block, List.getD_eq_getElem?_getD] at h ⊢
  have hlt : pointer < r.heap.length := by
    by_contra hge
    rw [List.getElem?_eq_none (by omega)] at h
    cases h
  rw [malloc, List.getElem?_append_left hlt]
  exact h

@[simp] theorem block_malloc (r : Resources) (block : List UInt8) :
    (r.malloc block).block r.heap.length = some block := by
  simp [Resources.block, malloc]

end Resources

/-- The block of a file: `fread` overwrites all but its last byte, the
terminator the rest. -/
theorem memWrite_file {junk bytes : List UInt8} {size : ℕ} (hjunk : junk.length = size + 1)
    (hbytes : bytes.length = size) :
    memWrite (memWrite junk 0 bytes) size [0] = bytes ++ [0] := by
  have hdrop : junk.drop (size + 1) = [] := List.drop_eq_nil_of_le (by omega)
  simp only [memWrite, List.take_zero, List.nil_append, Nat.zero_add, hbytes, List.length_singleton]
  rw [List.take_append_of_le_length (by omega), List.take_of_length_le (by omega),
    List.drop_append, List.drop_eq_nil_of_le (by omega), List.drop_drop, hbytes,
    Nat.add_sub_cancel_left, hdrop]
  simp

/-- A file that cannot be loaded leaves the test set alone; the heap can only
have grown. -/
theorem testSetAppend_fails (blocks : ℕ → Buf) (s : State) (index : ℕ) {f : File}
    (h : f.loads = false) :
    (testSetAppend blocks s index f).2 = -1 ∧
      (testSetAppend blocks s index f).1.testset = s.testset ∧
      ((testSetAppend blocks s index f).1.resources.heap = s.resources.heap ∨
        ∃ block, (testSetAppend blocks s index f).1.resources.heap =
          s.resources.heap ++ [some block]) := by
  simp only [testSetAppend]
  split_ifs with hopens hsize
  · exact ⟨rfl, rfl, Or.inl rfl⟩
  · exact ⟨rfl, rfl, Or.inl rfl⟩
  · cases hbytes : f.bytes with
    | none => exact ⟨rfl, rfl, Or.inr ⟨_, rfl⟩⟩
    | some bytes =>
        exfalso
        simp only [File.loads, hbytes] at h
        simp_all

theorem testSetAppend_loads (blocks : ℕ → Buf) (s : State) (index : ℕ) {f : File}
    (h : f.loads) : ∃ bytes, f.bytes = some bytes ∧ 1 ≤ bytes.length ∧
      (bytes.length : ℤ) = f.size ∧
      testSetAppend blocks s index f =
        ({ s with
           testset := s.testset.fill index
             { buffer := some s.resources.heap.length, size := bytes.length + 1 }
           resources := s.resources.malloc (bytes ++ [0]) }, 0) := by
  simp only [File.loads, Bool.and_eq_true, decide_eq_true_eq] at h
  obtain ⟨⟨hopens, hsize⟩, hsome⟩ := h
  obtain ⟨bytes, hbytes⟩ := Option.isSome_iff_exists.mp hsome
  have hlength : bytes.length = f.size.toNat := f.complete bytes hbytes
  refine ⟨bytes, hbytes, by omega, by omega, ?_⟩
  have hfile := memWrite_file (length_readAt (blocks s.resources.heap.length) 0 (f.size.toNat + 1))
    hlength
  let r : Resources := { s.resources with openFiles := s.resources.openFiles + 1 }
  have hstored : ((r.malloc (readAt (blocks r.heap.length) 0 (f.size.toNat + 1))).store
      r.heap.length 0 bytes).store r.heap.length f.size.toNat [0] = r.malloc (bytes ++ [0]) := by
    rw [Resources.store_malloc, Resources.store_malloc]
    exact congrArg r.malloc hfile
  simp only [testSetAppend, hopens, Bool.not_true, Bool.false_eq_true, if_false,
    if_neg (show ¬f.size < 1 by omega), hbytes, hlength]
  refine congrArg (fun t : Resources => (({ s with
    testset := s.testset.fill index
      { buffer := some s.resources.heap.length, size := f.size.toNat + 1 }
    resources := { t with openFiles := t.openFiles - 1 } } : State), (0 : ℤ))) hstored

/-! ### The loading pass -/

/-- The state of the loading pass with capacity `n` when `files` are loaded. -/
structure Loading (array : ℕ → TestsetBuffer) (n : ℕ) (files : List File) (s : State) : Prop where
  count : s.testset.count = n
  room : files.length ≤ n
  setSize : s.testset.setSize = (files.map fun f => f.size.toNat + 1).sum
  slots : ∃ slots, s.testset.data = some slots ∧
    (∀ j f, files[j]? = some f → Holds s.resources (slots j) f) ∧
    ∀ j, files.length ≤ j → slots j = zeroed array n j

theorem Holds.of_heap {r r' : Resources} {slot : TestsetBuffer} {f : File} (h : Holds r slot f)
    (hheap : r'.heap = r.heap ∨ ∃ block, r'.heap = r.heap ++ [some block]) : Holds r' slot f := by
  obtain ⟨pointer, bytes, hbytes, hpos, hsize, hslot, hblock⟩ := h
  refine ⟨pointer, bytes, hbytes, hpos, hsize, hslot, ?_⟩
  rcases hheap with hheap | ⟨block, hheap⟩
  · rw [Resources.block, hheap]
    exact hblock
  · rw [Resources.block, hheap]
    exact Resources.block_malloc_of_block hblock block

variable {array : ℕ → TestsetBuffer} {n : ℕ} {files : List File} {s : State}

/-- Only the test set and the heap count, and the heap may grow. -/
theorem Loading.congr (h : Loading array n files s) {s' : State} (ht : s'.testset = s.testset)
    (hheap : s'.resources.heap = s.resources.heap ∨
      ∃ block, s'.resources.heap = s.resources.heap ++ [some block]) :
    Loading array n files s' := by
  obtain ⟨slots, hdata, hholds, hrest⟩ := h.slots
  refine ⟨ht ▸ h.count, h.room, ht ▸ h.setSize, slots, ht ▸ hdata, ?_, hrest⟩
  intro j f hj
  exact (hholds j f hj).of_heap hheap

/-- **One file.** It goes to the slot behind the files loaded so far. -/
theorem Loading.append (h : Loading array n files s) (blocks : ℕ → Buf) {f : File}
    (hf : f.loads) (hroom : files.length < n) :
    Loading array n (files ++ [f]) (testSetAppend blocks s files.length f).1 := by
  obtain ⟨bytes, hbytes, hpos, hsize, happend⟩ := testSetAppend_loads blocks s files.length hf
  obtain ⟨slots, hdata, hholds, hrest⟩ := h.slots
  rw [happend]
  refine ⟨h.count, by simp; omega, ?_, Function.update slots files.length
    { buffer := some s.resources.heap.length, size := bytes.length + 1 }, ?_, ?_, ?_⟩
  · have hnat : f.size.toNat = bytes.length := by omega
    simp [Testset.fill, h.setSize, hnat]
  · simp [Testset.fill, hdata]
  · intro j g hj
    -- a slot filled before, the one just filled, or one behind it
    rcases Nat.lt_trichotomy j files.length with hlt | rfl | hgt
    · rw [List.getElem?_append_left hlt] at hj
      rw [Function.update_of_ne (Nat.ne_of_lt hlt)]
      exact (hholds j g hj).of_heap (Or.inr ⟨_, rfl⟩)
    · rw [List.getElem?_append_right (Nat.le_refl _), Nat.sub_self] at hj
      obtain rfl : f = g := Option.some.inj hj
      rw [Function.update_self]
      exact ⟨_, bytes, hbytes, hpos, hsize, rfl, Resources.block_malloc _ _⟩
    · rw [List.getElem?_eq_none (by simp; omega)] at hj
      cases hj
  · intro j hj
    rw [List.length_append, List.length_singleton] at hj
    rw [Function.update_of_ne (by omega)]
    exact hrest j (by omega)

theorem loadable_cons (entry : DirEntry) (entries : List DirEntry) :
    loadable (entry :: entries) = loadable [entry] ++ loadable entries := by
  have hregular : regular (entry :: entries) = regular [entry] ++ regular entries := by
    rw [regular, regular, regular, ← List.map_append, ← List.filter_append, List.singleton_append]
  rw [loadable, hregular, List.filter_append]
  rfl

/-- **One entry.** While there is room the pass goes on behind it, and has loaded
the file if it is one that can be loaded. -/
theorem Loading.entry (h : Loading array n files s) (blocks : ℕ → Buf) (pathlen : ℕ)
    (entry : DirEntry) (entries : List DirEntry) (hroom : files.length < n) :
    ∃ s', loadEntries blocks pathlen (entry :: entries) s files.length =
        loadEntries blocks pathlen entries s' (files ++ loadable [entry]).length ∧
      Loading array n (files ++ loadable [entry]) s' := by
  have hpath : Loading array n files
      { s with fullpath := s.fullpath.strcpy pathlen entry.dName } :=
    h.congr rfl (Or.inl rfl)
  rw [loadEntries, h.count, if_pos hroom]
  cases hreg : entry.isReg with
  | false =>
      have hnone : loadable [entry] = [] := by simp [loadable, regular, hreg]
      rw [hnone, List.append_nil]
      exact ⟨_, rfl, hpath⟩
  | true =>
      simp only [if_true]
      cases hloads : entry.file.loads with
      | false =>
          have hnone : loadable [entry] = [] := by simp [loadable, regular, hreg, hloads]
          -- the index stays, so the next file goes to the same slot
          obtain ⟨hcode, htestset, hheap⟩ := testSetAppend_fails blocks
            { s with fullpath := s.fullpath.strcpy pathlen entry.dName } files.length hloads
          rw [hcode, if_pos (by decide), hnone, List.append_nil]
          exact ⟨_, rfl, hpath.congr htestset hheap⟩
      | true =>
          have hone : loadable [entry] = [entry.file] := by simp [loadable, regular, hreg, hloads]
          obtain ⟨_, _, _, _, happend⟩ := testSetAppend_loads blocks
            { s with fullpath := s.fullpath.strcpy pathlen entry.dName } files.length hloads
          have hcode := congrArg Prod.snd happend
          rw [hcode, if_neg (by simp), hone, List.length_append, List.length_singleton]
          exact ⟨_, rfl, hpath.append blocks hloads hroom⟩

/-- **The pass.** It loads the first of the files that can be loaded, as many
as there is room for. -/
theorem loadEntries_loading (blocks : ℕ → Buf) (pathlen : ℕ) (entries : List DirEntry)
    (h : Loading array n files s) :
    (loadEntries blocks pathlen entries s files.length).2 =
        (files ++ (loadable entries).take (n - files.length)).length ∧
      Loading array n (files ++ (loadable entries).take (n - files.length))
        (loadEntries blocks pathlen entries s files.length).1 := by
  induction entries generalizing files s with
  | nil =>
      have hnil : files ++ (loadable []).take (n - files.length) = files := by
        simp [loadable, regular]
      rw [hnil]
      exact ⟨rfl, h⟩
  | cons entry entries ih =>
      by_cases hroom : files.length < n
      · obtain ⟨s', hstep, hs'⟩ := h.entry blocks pathlen entry entries hroom
        have hone : (loadable [entry]).length ≤ n - files.length := by
          have := hs'.room
          rw [List.length_append] at this
          omega
        have htake : files ++ (loadable (entry :: entries)).take (n - files.length) =
            (files ++ loadable [entry]) ++
              (loadable entries).take (n - (files ++ loadable [entry]).length) := by
          rw [loadable_cons, List.take_append, List.take_of_length_le hone, List.append_assoc,
            List.length_append, Nat.sub_sub]
        rw [hstep, htake]
        exact ih hs'
      · have hfull : files ++ (loadable (entry :: entries)).take (n - files.length) = files := by
          rw [show n - files.length = 0 by omega, List.take_zero, List.append_nil]
        rw [loadEntries, h.count, if_neg hroom, hfull]
        exact ⟨rfl, h⟩

/-! ### The call -/

/-- What either pass does to `fullpath`. -/
def FullPath.strcpys (p : FullPath) (pathlen : ℕ) (entries : List DirEntry) : FullPath :=
  entries.foldl (fun p entry => p.strcpy pathlen entry.dName) p

theorem countEntries_eq (pathlen : ℕ) (entries : List DirEntry) (s : State) :
    countEntries pathlen entries s =
      { s with
        testset := { s.testset with count := s.testset.count + (regular entries).length }
        fullpath := s.fullpath.strcpys pathlen entries } := by
  induction entries generalizing s with
  | nil => rfl
  | cons entry entries ih =>
      rw [countEntries, ih]
      cases hreg : entry.isReg with
      | false => simp [regular, hreg, FullPath.strcpys]
      | true => simp [regular, hreg, FullPath.strcpys, Nat.add_assoc, Nat.add_comm 1]

/-- What a test set holds after a call that found `n` regular files in its
counting pass and could load `files`, in this order, in its loading pass. -/
structure Loaded (array : ℕ → TestsetBuffer) (n : ℕ) (files : List File) (s : State) : Prop where
  count : s.testset.count = min n files.length
  data : ∃ slots, s.testset.data = some slots ∧
    (∀ j f, j < s.testset.count → files[j]? = some f → Holds s.resources (slots j) f) ∧
    (∀ j, s.testset.count ≤ j → j < n → slots j = { buffer := none, size := 0 }) ∧
    (∀ j, n ≤ j → slots j = array j) ∧
    s.testset.setSize = ((List.range s.testset.count).map fun j => (slots j).size).sum

/-- The end of the pass, seen from the caller. -/
theorem Loading.loaded {files : List File} (h : Loading array n (files.take n) s) {s' : State}
    (htestset : s'.testset = { s.testset with count := (files.take n).length })
    (hheap : s'.resources.heap = s.resources.heap) : Loaded array n files s' := by
  have hcount : s'.testset.count = (files.take n).length := by rw [htestset]
  have hmin : (files.take n).length = min n files.length := List.length_take
  obtain ⟨slots, hdata, hholds, hrest⟩ := h.slots
  refine ⟨hcount.trans hmin, slots, by rw [htestset]; exact hdata, ?_, ?_, ?_, ?_⟩
  · intro j f hj hget
    refine (hholds j f ?_).of_heap (Or.inl hheap)
    rw [List.getElem?_take_of_lt (by omega)]
    exact hget
  · intro j hj hn
    rw [hrest j (by omega), zeroed, if_pos hn]
  · intro j hj
    rw [hrest j (by omega), zeroed, if_neg (by omega)]
  · -- Slot by slot, the sizes of the slots are those of the files.
    have hslots : (List.range (files.take n).length).map (fun j => (slots j).size) =
        (files.take n).map fun f => f.size.toNat + 1 := by
      apply List.ext_getElem (by simp)
      intro j h₁ h₂
      rw [List.length_map] at h₂
      obtain ⟨_, bytes, _, _, hsize, hslot, _⟩ := hholds j _ (List.getElem?_eq_getElem h₂)
      simp only [List.getElem_map, List.getElem_range, hslot]
      omega
    rw [hcount, hslots, htestset]
    exact h.setSize

/-- The array `memset` has cleared holds no file yet. -/
theorem loading_zeroed (array : ℕ → TestsetBuffer) (n : ℕ) (r : Resources)
    (fullpath : FullPath) :
    Loading array n []
      { testset := { data := some (zeroed array n), count := n, setSize := 0 }
        resources := r
        fullpath := fullpath } where
  count := rfl
  room := Nat.zero_le n
  setSize := rfl
  slots := ⟨_, rfl, fun _ _ hj => by simp at hj, fun _ _ => rfl⟩

theorem testSetAppend_eq_zero_iff (blocks : ℕ → Buf) (s : State) (index : ℕ) (f : File) :
    (testSetAppend blocks s index f).2 = 0 ↔ f.loads := by
  cases hloads : f.loads with
  | false =>
      rw [(testSetAppend_fails blocks s index hloads).1]
      simp
  | true =>
      obtain ⟨_, _, _, _, happend⟩ := testSetAppend_loads blocks s index hloads
      simp [happend]

/-- The call, once the directory is open, the array allocated and a regular file
counted. -/
theorem benchmarkLoadTestSet_succeeds (a : Answers) (r : Resources) (path : CString)
    (hopens : a.opensDir) (hallocates : a.allocates) (hregular : 1 ≤ (regular a.counting).length) :
    ∃ s, benchmarkLoadTestSet a r path = (s, 0) ∧
      Loaded a.array (regular a.counting).length (loadable a.loading) s := by
  have hcounted := countEntries_eq (pathPrefix a.stack path).2 a.counting
    { testset := { data := none, count := 0, setSize := 0 }
      resources := { r with openDirs := r.openDirs + 1 }
      fullpath := (pathPrefix a.stack path).1 }
  rw [Nat.zero_add] at hcounted
  have hloading := loadEntries_loading a.blocks (pathPrefix a.stack path).2 a.loading
    (loading_zeroed a.array (regular a.counting).length { r with openDirs := r.openDirs + 1 }
      ((pathPrefix a.stack path).1.strcpys (pathPrefix a.stack path).2 a.counting))
  rw [List.nil_append, List.length_nil, Nat.sub_zero] at hloading
  have hne : (regular a.counting).length ≠ 0 := by omega
  simp only [benchmarkLoadTestSet, hopens, hallocates, hcounted, hne, Bool.not_true,
    Bool.false_eq_true, if_false]
  refine ⟨_, rfl, hloading.2.loaded ?_ rfl⟩
  rw [hloading.1]

/-- **The test set.** Once the directory is open and the array allocated, a call
whose counting pass saw a regular file succeeds, and fills the array with the
files that can be loaded; a file that cannot leaves the test set as it was. -/
theorem benchmarkLoadTestSet_loaded (a : Answers) (r : Resources) (path : CString)
    (hopens : a.opensDir) (hallocates : a.allocates) (hregular : 1 ≤ (regular a.counting).length) :
    (benchmarkLoadTestSet a r path).2 = 0 ∧
      Loaded a.array (regular a.counting).length (loadable a.loading)
        (benchmarkLoadTestSet a r path).1 ∧
      ∀ (s : State) (index : ℕ) (f : File),
        ((testSetAppend a.blocks s index f).2 = 0 ↔ f.loads) ∧
          ((testSetAppend a.blocks s index f).2 ≠ 0 →
            (testSetAppend a.blocks s index f).1.testset = s.testset) := by
  obtain ⟨s, heq, hloaded⟩ := benchmarkLoadTestSet_succeeds a r path hopens hallocates hregular
  rw [heq]
  refine ⟨rfl, hloaded, fun s index f => ⟨testSetAppend_eq_zero_iff a.blocks s index f, ?_⟩⟩
  intro hfailed
  rw [Ne, testSetAppend_eq_zero_iff, Bool.not_eq_true] at hfailed
  exact (testSetAppend_fails a.blocks s index hfailed).2.1

def fileOf (bytes : List UInt8) : File where
  opens := true
  size := bytes.length
  bytes := some bytes
  complete := by simp

/-- A directory with one page in it, which has a file nobody may open by the
time of the second pass. -/
def changing : Answers where
  opensDir := true
  counting := [{ dName := ⟨bytes "p", by decide⟩, isReg := true, file := fileOf (bytes "<p>") }]
  allocates := true
  loading :=
    [{ dName := ⟨bytes "x", by decide⟩
       isReg := true
       file := { opens := false, size := 0, bytes := none, complete := by simp } },
     { dName := ⟨bytes "p", by decide⟩, isReg := true, file := fileOf (bytes "<p>") }]
  array := fun _ => { buffer := some 7, size := 7 }
  blocks := fun _ _ => 7
  stack := fun _ => 7

/-- The page is loaded, into the first slot. -/
theorem benchmarkLoadTestSet_changing :
    1 ≤ (regular changing.counting).length ∧
      (benchmarkLoadTestSet changing {} ⟨bytes "d", by decide⟩).2 = 0 ∧
      Loaded changing.array 1 [fileOf (bytes "<p>")]
        (benchmarkLoadTestSet changing {} ⟨bytes "d", by decide⟩).1 := by
  have hregular : 1 ≤ (regular changing.counting).length := by decide
  have hloaded := benchmarkLoadTestSet_loaded changing {} ⟨bytes "d", by decide⟩ rfl rfl hregular
  exact ⟨hregular, hloaded.1, hloaded.2.1⟩

end HtmlBenchmark.Loader
