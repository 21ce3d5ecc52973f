import HtmlBenchmark.Loader.Loading

/-!
The two passes as folds.

Both passes do the same to one entry after the other. The counting pass comes to
all entries of its listing. The loading pass stops as soon as the array is full,
so it comes to the entries `reached`: how many files it has loaded is all that
decides where it stops.
-/

namespace HtmlBenchmark.Loader

/-- The entries the loading pass comes to, with room for `n` files. -/
def reached : List DirEntry → ℕ → List DirEntry
  | [], _ => []
  | entry :: entries, n =>
      if n = 0 then []
      else entry :: reached entries (if entry.isReg && entry.file.loads then n - 1 else n)

/-- One round of the loading pass. -/
def loadEntry (blocks : ℕ → Buf) (pathlen : ℕ) (s : State × ℕ) (entry : DirEntry) : State × ℕ :=
  let s' := { s.1 with fullpath := s.1.fullpath.strcpy pathlen entry.dName }
  if entry.isReg then
    let (s', failed) := testSetAppend blocks s' s.2 entry.file
    (s', if failed ≠ 0 then s.2 else s.2 + 1)
  else (s', s.2)

@[simp] theorem reached_zero (entries : List DirEntry) : reached entries 0 = [] := by
  cases entries <;> simp [reached]

/-! ### One round -/

/-- What `testSetAppend` leaves alone. -/
theorem testSetAppend_frame (blocks : ℕ → Buf) (s : State) (index : ℕ) (f : File) :
    (testSetAppend blocks s index f).1.testset.count = s.testset.count ∧
      (testSetAppend blocks s index f).1.fullpath = s.fullpath ∧
      (testSetAppend blocks s index f).1.resources.openDirs = s.resources.openDirs := by
  simp only [testSetAppend]
  split_ifs
  · exact ⟨rfl, rfl, rfl⟩
  · exact ⟨rfl, rfl, rfl⟩
  · cases f.bytes <;> exact ⟨rfl, rfl, rfl⟩

@[simp] theorem count_loadEntry (blocks : ℕ → Buf) (pathlen : ℕ) (s : State × ℕ)
    (entry : DirEntry) :
    (loadEntry blocks pathlen s entry).1.testset.count = s.1.testset.count := by
  rw [loadEntry]
  split_ifs
  · exact (testSetAppend_frame blocks _ s.2 entry.file).1
  · rfl

@[simp] theorem fullpath_loadEntry (blocks : ℕ → Buf) (pathlen : ℕ) (s : State × ℕ)
    (entry : DirEntry) : (loadEntry blocks pathlen s entry).1.fullpath =
      s.1.fullpath.strcpy pathlen entry.dName := by
  rw [loadEntry]
  split_ifs
  · exact (testSetAppend_frame blocks _ s.2 entry.file).2.1
  · rfl

@[simp] theorem openDirs_loadEntry (blocks : ℕ → Buf) (pathlen : ℕ) (s : State × ℕ)
    (entry : DirEntry) : (loadEntry blocks pathlen s entry).1.resources.openDirs =
      s.1.resources.openDirs := by
  rw [loadEntry]
  split_ifs
  · exact (testSetAppend_frame blocks _ s.2 entry.file).2.2
  · rfl

/-- The index moves on with a file that has been loaded. -/
theorem index_loadEntry (blocks : ℕ → Buf) (pathlen : ℕ) (s : State × ℕ) (entry : DirEntry) :
    (loadEntry blocks pathlen s entry).2 =
      if entry.isReg && entry.file.loads then s.2 + 1 else s.2 := by
  rw [loadEntry]
  cases hreg : entry.isReg with
  | false => rfl
  | true =>
      have hiff := testSetAppend_eq_zero_iff blocks
        { s.1 with fullpath := s.1.fullpath.strcpy pathlen entry.dName } s.2 entry.file
      simp only [if_true, Bool.true_and, ne_eq, hiff]
      cases entry.file.loads <;> rfl

/-! ### The passes -/

theorem loadEntries_eq_foldl (blocks : ℕ → Buf) (pathlen : ℕ) (entries : List DirEntry)
    (s : State × ℕ) : loadEntries blocks pathlen entries s.1 s.2 =
      (reached entries (s.1.testset.count - s.2)).foldl (loadEntry blocks pathlen) s := by
  induction entries generalizing s with
  | nil => rfl
  | cons entry entries ih =>
      by_cases hroom : s.2 < s.1.testset.count
      · have hround : loadEntries blocks pathlen (entry :: entries) s.1 s.2 =
            loadEntries blocks pathlen entries (loadEntry blocks pathlen s entry).1
              (loadEntry blocks pathlen s entry).2 := by
          rw [loadEntries, if_pos hroom, loadEntry]
          split_ifs <;> rfl
        have hleft : (loadEntry blocks pathlen s entry).1.testset.count -
              (loadEntry blocks pathlen s entry).2 =
            if entry.isReg && entry.file.loads then s.1.testset.count - s.2 - 1
            else s.1.testset.count - s.2 := by
          rw [count_loadEntry, index_loadEntry]
          split_ifs <;> omega
        have hne : ¬s.1.testset.count - s.2 = 0 := by omega
        rw [hround, ih, hleft, reached, if_neg hne, List.foldl_cons]
      · rw [loadEntries, if_neg hroom, Nat.sub_eq_zero_of_le (by omega), reached_zero]
        rfl

theorem fullpath_foldl_loadEntry (blocks : ℕ → Buf) (pathlen : ℕ) (entries : List DirEntry)
    (s : State × ℕ) : (entries.foldl (loadEntry blocks pathlen) s).1.fullpath =
      s.1.fullpath.strcpys pathlen entries := by
  induction entries generalizing s with
  | nil => rfl
  | cons entry entries ih => rw [List.foldl_cons, ih, fullpath_loadEntry, FullPath.strcpys]; rfl

/-! ### The call -/

/-- The state the counting pass leaves. -/
def counted (a : Answers) (r : Resources) (path : CString) : State where
  testset := { data := none, count := (regular a.counting).length, setSize := 0 }
  resources := { r with openDirs := r.openDirs + 1 }
  fullpath := (pathPrefix a.stack path).1.strcpys (pathPrefix a.stack path).2 a.counting

/-- The state in which the loading pass begins. -/
def allocated (a : Answers) (r : Resources) (path : CString) : State :=
  { counted a r path with
    testset := { data := some (zeroed a.array (regular a.counting).length)
                 count := (regular a.counting).length
                 setSize := 0 } }

/-- The state and the index the loading pass leaves. -/
def passed (a : Answers) (r : Resources) (path : CString) : State × ℕ :=
  (reached a.loading (regular a.counting).length).foldl
    (loadEntry a.blocks (pathPrefix a.stack path).2) (allocated a r path, 0)

theorem countEntries_eq_counted (a : Answers) (r : Resources) (path : CString) :
    countEntries (pathPrefix a.stack path).2 a.counting
      { testset := { data := none, count := 0, setSize := 0 }
        resources := { r with openDirs := r.openDirs + 1 }
        fullpath := (pathPrefix a.stack path).1 } = counted a r path := by
  rw [countEntries_eq]
  simp only [Nat.zero_add]
  rfl

/-- The ways out before the loading pass. -/
theorem benchmarkLoadTestSet_gives_up (a : Answers) (r : Resources) (path : CString)
    (hopens : a.opensDir) (h : regular a.counting = [] ∨ a.allocates = false) :
    benchmarkLoadTestSet a r path = (counted a r path, -1) := by
  simp only [benchmarkLoadTestSet, hopens, Bool.not_true, Bool.false_eq_true, if_false,
    countEntries_eq_counted]
  rcases h with h | h
  · rw [if_pos (by simp [counted, h])]
  · rw [if_pos (show (!a.allocates) = true by simp [h]), ite_self]

/-- The way out behind it. -/
theorem benchmarkLoadTestSet_goes_through (a : Answers) (r : Resources) (path : CString)
    (hopens : a.opensDir) (hregular : regular a.counting ≠ []) (hallocates : a.allocates) :
    benchmarkLoadTestSet a r path =
      ({ (passed a r path).1 with
         testset := { (passed a r path).1.testset with count := (passed a r path).2 }
         resources := { (passed a r path).1.resources with
           openDirs := (passed a r path).1.resources.openDirs - 1 } }, 0) := by
  have hne : (counted a r path).testset.count ≠ 0 :=
    fun h => hregular (List.length_eq_zero_iff.mp h)
  have hpass := loadEntries_eq_foldl a.blocks (pathPrefix a.stack path).2 a.loading
    (allocated a r path, 0)
  simp only [benchmarkLoadTestSet, hopens, hallocates, Bool.not_true, Bool.false_eq_true, if_false,
    countEntries_eq_counted, if_neg hne]
  rw [show ({ counted a r path with
      testset := { (counted a r path).testset with
        data := some (zeroed a.array (counted a r path).testset.count) } } : State) =
    allocated a r path from rfl, hpass]
  rfl

def dot : DirEntry where
  dName := ⟨bytes ".", by decide⟩
  isReg := false
  file := fileOf []

def emptyDir : Answers where
  opensDir := true
  counting := [dot]
  allocates := true
  loading := []
  array := fun _ => { buffer := none, size := 0 }
  blocks := fun _ _ => 0
  stack := fun _ => 0

end HtmlBenchmark.Loader
