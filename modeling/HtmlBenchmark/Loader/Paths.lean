import HtmlBenchmark.Loader.Passes

/-!
The bounds of `fullpath`.

The directory's path and a slash fill the front of `fullpath`, and either pass
copies the name of each entry behind them. The caller's `stat` bounds the path,
and the file system a name; nothing bounds the two together.
-/

namespace HtmlBenchmark.Loader

/-- The length of the path with a slash at its end. -/
def prefixLength (path : CString) : ℕ :=
  if path.bytes.getLast? = some '/'.toUInt8 then path.bytes.length else path.bytes.length + 1

/-- The names of the entries fit behind the path. -/
def NamesFit (path : CString) (entries : List DirEntry) : Prop :=
  ∀ entry ∈ entries, prefixLength path + entry.dName.bytes.length + 1 ≤ PATH_MAX

/-- The path is copied with its terminator, which the slash overwrites. -/
theorem written_pathPrefix (stack : Buf) (path : CString) :
    (pathPrefix stack path).1.written = path.bytes.length + 1 := by
  rw [pathPrefix]
  split_ifs <;> simp [FullPath.strcpy, FullPath.put]

/-- The byte in front of the terminator is the last one of the path. -/
theorem mem_strcpy_eq_slash_iff (stack : Buf) (path : CString) :
    (FullPath.strcpy { mem := stack } 0 path).mem (path.bytes.length - 1) = '/'.toUInt8 ↔
      path.bytes.getLast? = some '/'.toUInt8 := by
  have hmem : (FullPath.strcpy { mem := stack } 0 path).mem (path.bytes.length - 1) =
      cstr path.bytes (path.bytes.length - 1) := by
    simp only [FullPath.strcpy]
    rw [if_pos (by omega), Nat.sub_zero]
  rw [hmem, cstr, List.getLast?_eq_getElem?, List.getD_eq_getElem?_getD]
  cases path.bytes[path.bytes.length - 1]? with
  | none => simp [show (0 : UInt8) ≠ '/'.toUInt8 by decide]
  | some c => simp

theorem pathPrefix_snd (stack : Buf) (path : CString) :
    (pathPrefix stack path).2 = prefixLength path := by
  simp only [pathPrefix, prefixLength, ne_eq, mem_strcpy_eq_slash_iff, ite_not]
  split_ifs <;> rfl

/-- The copies are in bounds if each of them is. -/
theorem written_strcpys_le (p : FullPath) (pathlen bound : ℕ) (entries : List DirEntry) :
    (p.strcpys pathlen entries).written ≤ bound ↔
      p.written ≤ bound ∧ ∀ entry ∈ entries, pathlen + entry.dName.bytes.length + 1 ≤ bound := by
  induction entries generalizing p with
  | nil => simp [FullPath.strcpys]
  | cons entry entries ih =>
      have hcons : p.strcpys pathlen (entry :: entries) =
          (p.strcpy pathlen entry.dName).strcpys pathlen entries := rfl
      rw [hcons, ih, FullPath.strcpy, Nat.max_le, List.forall_mem_cons, and_assoc]

theorem written_counted_le (a : Answers) (r : Resources) (path : CString)
    (hpath : path.bytes.length + 1 ≤ PATH_MAX) :
    (counted a r path).fullpath.written ≤ PATH_MAX ↔ NamesFit path a.counting := by
  rw [counted, written_strcpys_le, written_pathPrefix, pathPrefix_snd, and_iff_right hpath,
    NamesFit]

theorem written_passed_le (a : Answers) (r : Resources) (path : CString)
    (hpath : path.bytes.length + 1 ≤ PATH_MAX) :
    (passed a r path).1.fullpath.written ≤ PATH_MAX ↔
      NamesFit path a.counting ∧ NamesFit path (reached a.loading (regular a.counting).length) := by
  rw [passed, fullpath_foldl_loadEntry, written_strcpys_le, pathPrefix_snd,
    ← written_counted_le a r path hpath]
  rfl

/-- **The path buffer** is written within its bounds exactly when the name of
every entry that either pass comes to fits behind the path. -/
theorem written_le_iff (a : Answers) (r : Resources) (path : CString)
    (hpath : path.bytes.length + 1 ≤ PATH_MAX) :
    (benchmarkLoadTestSet a r path).1.fullpath.written ≤ PATH_MAX ↔
      (a.opensDir → NamesFit path a.counting ∧
        (a.allocates → NamesFit path (reached a.loading (regular a.counting).length))) := by
  cases hopens : a.opensDir with
  | false => simp [benchmarkLoadTestSet, hopens]
  | true =>
      by_cases hregular : regular a.counting = []
      · -- the loading pass would come to no entry
        rw [benchmarkLoadTestSet_gives_up a r path hopens (Or.inl hregular),
          written_counted_le a r path hpath, hregular]
        simp [NamesFit]
      · cases hallocates : a.allocates with
        | false =>
            rw [benchmarkLoadTestSet_gives_up a r path hopens (Or.inr hallocates),
              written_counted_le a r path hpath]
            simp
        | true =>
            rw [benchmarkLoadTestSet_goes_through a r path hopens hregular hallocates,
              written_passed_le a r path hpath]
            simp

/-- In a short path all names fit. -/
theorem written_le_changing :
    (CString.mk (bytes "d") (by decide)).bytes.length + 1 ≤ PATH_MAX ∧
      (benchmarkLoadTestSet changing {} ⟨bytes "d", by decide⟩).1.fullpath.written ≤ PATH_MAX := by
  have hpath : (CString.mk (bytes "d") (by decide)).bytes.length + 1 ≤ PATH_MAX := by decide
  refine ⟨hpath, (written_le_iff changing {} ⟨bytes "d", by decide⟩ hpath).mpr fun _ => ?_⟩
  have hcounting : NamesFit ⟨bytes "d", by decide⟩ changing.counting := by
    unfold NamesFit
    decide
  have hloading : NamesFit ⟨bytes "d", by decide⟩ changing.loading := by
    unfold NamesFit
    decide
  exact ⟨hcounting, fun _ => hloading⟩

/-- The root directory under its longest name. -/
def rootPath : CString where
  bytes := List.replicate 4095 '/'.toUInt8
  noNul := fun h => absurd (List.eq_of_mem_replicate h) (by decide)

/-- Behind the longest path there is room for no name at all. -/
theorem not_forall_written_le :
    ¬∀ (a : Answers) (r : Resources) (path : CString), path.bytes ≠ [] →
      path.bytes.length + 1 ≤ PATH_MAX →
      (∀ entry ∈ a.counting ++ a.loading, entry.dName.bytes.length ≤ 255) →
      (benchmarkLoadTestSet a r path).1.fullpath.written ≤ PATH_MAX := by
  intro h
  have hlength : rootPath.bytes.length = 4095 := List.length_replicate
  have hpath : rootPath.bytes.length + 1 ≤ PATH_MAX := by rw [hlength, PATH_MAX]
  have hwritten := h emptyDir {} rootPath (List.ne_nil_of_length_pos (by omega)) hpath (by decide)
  rw [benchmarkLoadTestSet_gives_up _ _ _ rfl (Or.inl rfl), written_counted_le _ _ _ hpath]
    at hwritten
  have hdot := hwritten dot List.mem_cons_self
  have hname : dot.dName.bytes.length = 1 := rfl
  have hprefix : rootPath.bytes.length ≤ prefixLength rootPath := by
    rw [prefixLength]
    split_ifs <;> omega
  rw [PATH_MAX] at hdot
  omega

end HtmlBenchmark.Loader
