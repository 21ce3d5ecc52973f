import HtmlBenchmark.Loader.Passes

/-!
What the loader gives back.

A file that opens and has a size but cannot be read is left open, and its block
stays on the heap with nothing pointing to it. The stream of the directory is
closed at the end of the loading pass and nowhere else. What is allocated in a
pass without such files is in the test set: `Owned` is the invariant.
-/

namespace HtmlBenchmark.Loader

/-- The file opens and is not empty, but is not read to its end. -/
def File.unreadable (f : File) : Bool := f.opens && 1 ≤ f.size && f.bytes.isNone

/-- Nothing but what is in the test set has been kept from the call. -/
structure GivesBack (r : Resources) (result : State × ℤ) : Prop where
  dirs : result.1.resources.openDirs = r.openDirs
  files : result.1.resources.openFiles = r.openFiles
  blocks : ∀ pointer, r.heap.length ≤ pointer → result.1.resources.block pointer ≠ none →
    ∃ slots, result.1.testset.data = some slots ∧
      ∃ j < result.1.testset.count, (slots j).buffer = some pointer
  failed : result.2 ≠ 0 → result.1.testset = { data := none, count := 0, setSize := 0 }

/-! ### One file -/

theorem File.unreadable_of_loads {f : File} (h : f.loads) : f.unreadable = false := by
  rw [File.loads, Bool.and_eq_true, Option.isSome_iff_ne_none] at h
  rw [File.unreadable, Option.isNone_eq_false_iff.mpr (Option.isSome_iff_ne_none.mpr h.2),
    Bool.and_false]

/-- A file that does not open or is empty is given back at once. -/
theorem testSetAppend_rejects (blocks : ℕ → Buf) (s : State) (index : ℕ) {f : File}
    (hloads : f.loads = false) (hreadable : f.unreadable = false) :
    testSetAppend blocks s index f = (s, -1) := by
  simp only [testSetAppend]
  split_ifs with hopens hsize
  · rfl
  · rfl
  · exfalso
    cases hbytes : f.bytes with
    | none => simp_all [File.unreadable]
    | some bytes => simp_all [File.loads]

theorem openFiles_testSetAppend (blocks : ℕ → Buf) (s : State) (index : ℕ) (f : File) :
    (testSetAppend blocks s index f).1.resources.openFiles =
      s.resources.openFiles + if f.unreadable then 1 else 0 := by
  cases hloads : f.loads with
  | true =>
      obtain ⟨_, _, _, _, happend⟩ := testSetAppend_loads blocks s index hloads
      rw [happend, File.unreadable_of_loads hloads]
      rfl
  | false =>
      cases hreadable : f.unreadable with
      | false => rw [testSetAppend_rejects blocks s index hloads hreadable]; rfl
      | true =>
          simp only [File.unreadable, Bool.and_eq_true, decide_eq_true_eq,
            Option.isNone_iff_eq_none] at hreadable
          obtain ⟨⟨hopens, hsize⟩, hbytes⟩ := hreadable
          simp only [testSetAppend, hopens, Bool.not_true, Bool.false_eq_true, if_false,
            if_neg (show ¬f.size < 1 by omega), hbytes, if_true]
          rfl

/-! ### The loading pass -/

theorem openFiles_foldl_loadEntry (blocks : ℕ → Buf) (pathlen : ℕ) (entries : List DirEntry)
    (s : State × ℕ) : (entries.foldl (loadEntry blocks pathlen) s).1.resources.openFiles =
      s.1.resources.openFiles + (regular entries).countP File.unreadable := by
  induction entries generalizing s with
  | nil => rfl
  | cons entry entries ih =>
      rw [List.foldl_cons, ih, loadEntry]
      cases hreg : entry.isReg with
      | false => simp [regular, hreg]
      | true =>
          simp only [if_true, openFiles_testSetAppend, regular, List.filter_cons_of_pos hreg,
            List.map_cons, List.countP_cons]
          omega

theorem openDirs_foldl_loadEntry (blocks : ℕ → Buf) (pathlen : ℕ) (entries : List DirEntry)
    (s : State × ℕ) : (entries.foldl (loadEntry blocks pathlen) s).1.resources.openDirs =
      s.1.resources.openDirs := by
  induction entries generalizing s with
  | nil => rfl
  | cons entry entries ih => rw [List.foldl_cons, ih, openDirs_loadEntry]

/-- Behind the last block there is nothing. -/
theorem Resources.block_of_le {r : Resources} {pointer : ℕ} (h : r.heap.length ≤ pointer) :
    r.block pointer = none := by
  rw [Resources.block, List.getD_eq_getElem?_getD, List.getElem?_eq_none h]
  rfl

/-- The blocks from `base` on are in the slots below the index. -/
def Owned (base : ℕ) (s : State × ℕ) : Prop :=
  ∃ slots, s.1.testset.data = some slots ∧
    ∀ pointer, base ≤ pointer → s.1.resources.block pointer ≠ none →
      ∃ j < s.2, (slots j).buffer = some pointer

/-- The block of a loaded file goes to the slot at the index. -/
theorem Owned.append {base : ℕ} {s : State × ℕ} (h : Owned base s) (blocks : ℕ → Buf) {f : File}
    (hloads : f.loads) : Owned base ((testSetAppend blocks s.1 s.2 f).1, s.2 + 1) := by
  obtain ⟨bytes, _, _, _, happend⟩ := testSetAppend_loads blocks s.1 s.2 hloads
  obtain ⟨slots, hdata, howned⟩ := h
  rw [happend]
  refine ⟨Function.update slots s.2
    { buffer := some s.1.resources.heap.length, size := bytes.length + 1 },
    by simp [Testset.fill, hdata], fun pointer hbase hlive => ?_⟩
  rcases Nat.lt_trichotomy pointer s.1.resources.heap.length with hlt | rfl | hgt
  · -- a block from before is where it was, in a slot before this one
    have hold : s.1.resources.block pointer ≠ none := by
      rw [Resources.block, Resources.malloc, List.getD_eq_getElem?_getD,
        List.getElem?_append_left hlt] at hlive
      exact hlive
    obtain ⟨j, hj, hbuffer⟩ := howned pointer hbase hold
    exact ⟨j, by omega, by rw [Function.update_of_ne (by omega)]; exact hbuffer⟩
  · exact ⟨s.2, Nat.lt_succ_self _, by rw [Function.update_self]⟩
  · exact absurd (Resources.block_of_le (by simp [Resources.malloc]; omega)) hlive

theorem Owned.entry {base : ℕ} {s : State × ℕ} (h : Owned base s) (blocks : ℕ → Buf)
    (pathlen : ℕ) {entry : DirEntry} (hreadable : entry.isReg → entry.file.unreadable = false) :
    Owned base (loadEntry blocks pathlen s entry) := by
  have hpath : Owned base ({ s.1 with
      fullpath := s.1.fullpath.strcpy pathlen entry.dName }, s.2) := h
  rw [loadEntry]
  cases hreg : entry.isReg with
  | false => exact hpath
  | true =>
      cases hloads : entry.file.loads with
      | false =>
          simp only [if_true, testSetAppend_rejects blocks _ s.2 hloads (hreadable hreg)]
          exact hpath
      | true =>
          have hcode := (testSetAppend_eq_zero_iff blocks
            { s.1 with fullpath := s.1.fullpath.strcpy pathlen entry.dName } s.2 entry.file).mpr
              hloads
          simp only [if_true, hcode, ne_eq, not_true_eq_false, if_false]
          exact hpath.append blocks hloads

theorem Owned.foldl {base : ℕ} {s : State × ℕ} (h : Owned base s) (blocks : ℕ → Buf)
    (pathlen : ℕ) {entries : List DirEntry}
    (hreadable : ∀ f ∈ regular entries, f.unreadable = false) :
    Owned base (entries.foldl (loadEntry blocks pathlen) s) := by
  induction entries generalizing s with
  | nil => exact h
  | cons entry entries ih =>
      have hfile : entry.isReg → entry.file.unreadable = false := fun hreg =>
        hreadable _ (List.mem_map_of_mem (List.mem_filter.mpr ⟨List.mem_cons_self, hreg⟩))
      refine ih (h.entry blocks pathlen hfile) fun f hf => hreadable f ?_
      obtain ⟨e, he, rfl⟩ := List.mem_map.mp hf
      obtain ⟨hmem, hreg⟩ := List.mem_filter.mp he
      exact List.mem_map_of_mem (List.mem_filter.mpr ⟨List.mem_cons_of_mem _ hmem, hreg⟩)

/-! ### The call -/

/-- The stream is closed when the loading pass has been made. -/
theorem openDirs_passed (a : Answers) (r : Resources) (path : CString) :
    (passed a r path).1.resources.openDirs = r.openDirs + 1 := by
  rw [passed, openDirs_foldl_loadEntry]
  rfl

theorem openFiles_passed (a : Answers) (r : Resources) (path : CString) :
    (passed a r path).1.resources.openFiles = r.openFiles +
      (regular (reached a.loading (regular a.counting).length)).countP File.unreadable := by
  rw [passed, openFiles_foldl_loadEntry]
  rfl

theorem owned_allocated (a : Answers) (r : Resources) (path : CString) :
    Owned r.heap.length (allocated a r path, 0) := by
  exact ⟨_, rfl, fun pointer hbase hlive => absurd (Resources.block_of_le hbase) hlive⟩

theorem givesBack_of_not_opens {a : Answers} (r : Resources) (path : CString)
    (hopens : a.opensDir = false) : GivesBack r (benchmarkLoadTestSet a r path) := by
  have hcall : benchmarkLoadTestSet a r path =
      ({ testset := { data := none, count := 0, setSize := 0 }
         resources := r
         fullpath := { mem := a.stack } }, -1) := by
    simp [benchmarkLoadTestSet, hopens]
  rw [hcall]
  refine ⟨rfl, rfl, fun pointer hbase hlive => ?_, fun _ => rfl⟩
  exact absurd (Resources.block_of_le hbase) hlive

/-- On the ways out before the loading pass the stream is still open. -/
theorem not_givesBack_gives_up {a : Answers} (r : Resources) (path : CString)
    (hopens : a.opensDir) (h : regular a.counting = [] ∨ a.allocates = false) :
    ¬GivesBack r (benchmarkLoadTestSet a r path) := by
  rw [benchmarkLoadTestSet_gives_up a r path hopens h]
  exact fun hgives => absurd hgives.dirs (Nat.succ_ne_self _)

theorem givesBack_goes_through {a : Answers} (r : Resources) (path : CString)
    (hopens : a.opensDir) (hregular : regular a.counting ≠ []) (hallocates : a.allocates) :
    GivesBack r (benchmarkLoadTestSet a r path) ↔
      ∀ f ∈ regular (reached a.loading (regular a.counting).length), f.unreadable = false := by
  have hfiles := openFiles_passed a r path
  have hcount : (regular (reached a.loading (regular a.counting).length)).countP
      File.unreadable = 0 ↔
        ∀ f ∈ regular (reached a.loading (regular a.counting).length), f.unreadable = false := by
    rw [List.countP_eq_zero]
    exact forall₂_congr fun f _ => Bool.not_eq_true _ ▸ Iff.rfl
  rw [benchmarkLoadTestSet_goes_through a r path hopens hregular hallocates]
  constructor
  · intro h
    have hclosed : (passed a r path).1.resources.openFiles = r.openFiles := h.files
    exact hcount.mp (by omega)
  · intro hreadable
    obtain ⟨slots, hdata, howned⟩ :=
      (owned_allocated a r path).foldl a.blocks (pathPrefix a.stack path).2 hreadable
    rw [hcount.mpr hreadable, Nat.add_zero] at hfiles
    refine ⟨?_, hfiles, fun pointer hbase hlive => ⟨slots, hdata, howned pointer hbase hlive⟩,
      fun h => absurd rfl h⟩
    simp only [openDirs_passed, Nat.add_sub_cancel]

/-- **Nothing is kept** exactly by a call that does not open the directory, or
that loads files and comes to none that opens and has a size but cannot be
read. -/
theorem givesBack_iff (a : Answers) (r : Resources) (path : CString) :
    GivesBack r (benchmarkLoadTestSet a r path) ↔
      (a.opensDir → regular a.counting ≠ [] ∧ a.allocates ∧
        ∀ f ∈ regular (reached a.loading (regular a.counting).length), f.unreadable = false) := by
  cases hopens : a.opensDir with
  | false => exact iff_of_true (givesBack_of_not_opens r path hopens) (by simp)
  | true =>
      simp only [forall_const]
      by_cases hgives : regular a.counting = [] ∨ a.allocates = false
      · refine iff_of_false (not_givesBack_gives_up r path hopens hgives) ?_
        rintro ⟨hregular, hallocates, -⟩
        rcases hgives with h | h
        · exact hregular h
        · rw [h] at hallocates
          cases hallocates
      · obtain ⟨hregular, hallocates⟩ := not_or.mp hgives
        rw [Bool.not_eq_false] at hallocates
        rw [givesBack_goes_through r path hopens hregular hallocates, and_iff_right hregular,
          and_iff_right hallocates]

/-- The stream of a directory without a file is not closed. -/
theorem not_forall_givesBack :
    ¬∀ (a : Answers) (r : Resources) (path : CString),
      GivesBack r (benchmarkLoadTestSet a r path) := by
  intro h
  have hdirs := (h emptyDir {} ⟨bytes "d", by decide⟩).dirs
  rw [benchmarkLoadTestSet_gives_up _ _ _ rfl (Or.inl rfl)] at hdirs
  exact absurd hdirs (by decide)

end HtmlBenchmark.Loader
