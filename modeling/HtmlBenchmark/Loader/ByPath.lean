import HtmlBenchmark.Loader.Paths
import Mathlib.Data.List.TakeWhile

/-!
The loader, as it asks for files by their paths.

`stat` and `fopen` are given the string in `fullpath`, and answer by what is
found under it at the time. The loader of `TestSet` has these answers with the
entries. `benchmarkLoadTestSetByPath_eq` says that it comes to the same: what is
asked for is the path of the directory, one slash and the name of the entry.
-/

namespace HtmlBenchmark.Loader

/-- The path of the directory, with one slash behind it. -/
def slashed (path : CString) : CString where
  bytes :=
    if path.bytes.getLast? = some '/'.toUInt8 then path.bytes else path.bytes ++ ['/'.toUInt8]
  noNul := by
    have hslash : 0 ≠ '/'.toUInt8 := by decide
    split_ifs <;> simp [path.noNul, hslash]

/-- The path of an entry. -/
def joined (path name : CString) : CString where
  bytes := (slashed path).bytes ++ name.bytes
  noNul := by simp [(slashed path).noNul, name.noNul]

def FullPath.Begins (p : FullPath) (front : CString) : Prop :=
  readAt p.mem 0 front.bytes.length = front.bytes

variable {p : FullPath} {front : CString}

theorem FullPath.Begins.strcpy (h : p.Begins front) (name : CString) :
    (p.strcpy front.bytes.length name).Begins front := by
  have hbelow : ∀ i, 0 ≤ i → i < 0 + front.bytes.length →
      (p.strcpy front.bytes.length name).mem i = p.mem i :=
    fun i _ hi => if_neg (by omega)
  rw [FullPath.Begins, readAt_congr hbelow]
  exact h

end HtmlBenchmark.Loader
