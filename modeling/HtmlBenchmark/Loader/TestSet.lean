import HtmlBenchmark.Util
import Mathlib.Data.Int.Notation

/-!
The loader of `benchmark.c`.

What the operating system answers is the input: whether the directory opens,
what each pass finds in it, what the calls on each file return. The two passes
have a listing each, since the directory can change between them. What `malloc`
leaves in a new block is an input too, so that a byte or a slot nobody wrote
cannot pass for a written one.

The resources are kept in a ledger: open directory streams, open files, and the
heap with its blocks in the order of their allocation. A pointer to a block is
its number. The array of slots is not on that heap; it belongs to the test set.
What the loader prints is left out.
-/

namespace HtmlBenchmark.Loader

/-! ### What the operating system answers -/

/-- What the calls on a file return: whether `fopen` succeeds, what `ftell`
says at its end, and the bytes `fread` delivers if it delivers all of them. -/
structure File where
  opens : Bool
  size : ℤ
  bytes : Option (List UInt8)
  complete : ∀ bs ∈ bytes, bs.length = size.toNat

/-- An entry of a directory, and what is found under its path when a pass comes
to it; `isReg` says that `stat` succeeds on a regular file. In `ByPath` the
answers are asked for by the path. -/
structure DirEntry where
  dName : CString
  isReg : Bool
  file : File

/-- `testset_buffer_t`; the pointer is NULL or the number of a block. -/
structure TestsetBuffer where
  buffer : Option ℕ
  size : ℕ
  deriving DecidableEq, Repr

/-- The answers to a call of `benchmark_loadTestSet`: of `opendir`, of `readdir`
in either pass, and of the `malloc` of the array; and the bytes found in
memory that nobody has written. -/
structure Answers where
  opensDir : Bool
  counting : List DirEntry
  allocates : Bool
  loading : List DirEntry
  array : ℕ → TestsetBuffer
  blocks : ℕ → Buf
  stack : Buf

/-! ### The state of the loader -/

structure Testset where
  data : Option (ℕ → TestsetBuffer)
  count : ℕ
  setSize : ℕ

/-- The resources of the process; a block that has been freed is `none`. -/
structure Resources where
  openDirs : ℕ := 0
  openFiles : ℕ := 0
  heap : List (Option (List UInt8)) := []

namespace Resources

def malloc (r : Resources) (block : List UInt8) : Resources :=
  { r with heap := r.heap ++ [some block] }

def store (r : Resources) (pointer offs : ℕ) (src : List UInt8) : Resources :=
  { r with heap := r.heap.modify pointer (Option.map fun block => memWrite block offs src) }

def block (r : Resources) (pointer : ℕ) : Option (List UInt8) := r.heap.getD pointer none

end Resources

/-- `fullpath`, with one past the last byte written to it. -/
structure FullPath where
  mem : Buf
  written : ℕ := 0

def PATH_MAX : ℕ := 4096

/-- `fullpath[i] = c` -/
def FullPath.put (p : FullPath) (i : ℕ) (c : UInt8) : FullPath where
  mem := Function.update p.mem i c
  written := max p.written (i + 1)

/-- `strcpy(fullpath + offs, src)` -/
def FullPath.strcpy (p : FullPath) (offs : ℕ) (src : CString) : FullPath where
  mem := fun i =>
    if offs ≤ i ∧ i ≤ offs + src.bytes.length then cstr src.bytes (i - offs) else p.mem i
  written := max p.written (offs + src.bytes.length + 1)

structure State where
  testset : Testset
  resources : Resources
  fullpath : FullPath

/-! ### The two functions -/

/-- The assignments to the slot at `index` and to `set_size`. -/
def Testset.fill (t : Testset) (index : ℕ) (slot : TestsetBuffer) : Testset :=
  { t with
    data := t.data.map fun slots => Function.update slots index slot
    setSize := t.setSize + slot.size }

/-- `testSetAppend`; `blocks` is what `malloc` finds. -/
def testSetAppend (blocks : ℕ → Buf) (s : State) (index : ℕ) (file : File) : State × ℤ :=
  if !file.opens then (s, -1)
  else
    let r := { s.resources with openFiles := s.resources.openFiles + 1 }
    if file.size < 1 then
      ({ s with resources := { r with openFiles := r.openFiles - 1 } }, -1)
    else
      let size := file.size.toNat
      let buf := r.heap.length
      let r := r.malloc (readAt (blocks buf) 0 (size + 1))
      match file.bytes with
      | none =>
          -- returns with the file open and the block allocated; what part of
          -- the file is in the block does not matter any more
          ({ s with resources := r }, -1)
      | some bytes =>
          let r := (r.store buf 0 bytes).store buf size [0]
          ({ s with
             testset := s.testset.fill index { buffer := some buf, size := size + 1 }
             resources := { r with openFiles := r.openFiles - 1 } }, 0)

def countEntries (pathlen : ℕ) : List DirEntry → State → State
  | [], s => s
  | entry :: entries, s =>
      let s := { s with fullpath := s.fullpath.strcpy pathlen entry.dName }
      let s :=
        if entry.isReg then { s with testset := { s.testset with count := s.testset.count + 1 } }
        else s
      countEntries pathlen entries s

/-- The loading pass: the state it leaves, and `index`. It stops when the array
is full, before it reads the next entry. -/
def loadEntries (blocks : ℕ → Buf) (pathlen : ℕ) : List DirEntry → State → ℕ → State × ℕ
  | [], s, index => (s, index)
  | entry :: entries, s, index =>
      if index < s.testset.count then
        let s := { s with fullpath := s.fullpath.strcpy pathlen entry.dName }
        if entry.isReg then
          let (s, failed) := testSetAppend blocks s index entry.file
          loadEntries blocks pathlen entries s (if failed ≠ 0 then index else index + 1)
        else loadEntries blocks pathlen entries s index
      else (s, index)

/-- The array after `memset`: its slots are zero, what is behind it is not
touched. -/
def zeroed (array : ℕ → TestsetBuffer) (count : ℕ) : ℕ → TestsetBuffer :=
  fun i => if i < count then { buffer := none, size := 0 } else array i

/-- `path` in `fullpath`, with a slash behind it unless it ends in one, and the
length of the two. -/
def pathPrefix (stack : Buf) (path : CString) : FullPath × ℕ :=
  let fullpath := FullPath.strcpy { mem := stack } 0 path
  let pathlen := path.bytes.length
  if fullpath.mem (pathlen - 1) ≠ '/'.toUInt8 then (fullpath.put pathlen '/'.toUInt8, pathlen + 1)
  else (fullpath, pathlen)

def benchmarkLoadTestSet (a : Answers) (r : Resources) (path : CString) : State × ℤ :=
  let testset : Testset := { data := none, count := 0, setSize := 0 }
  if !a.opensDir then
    ({ testset := testset, resources := r, fullpath := { mem := a.stack } }, -1)
  else
    let (fullpath, pathlen) := pathPrefix a.stack path
    let r := { r with openDirs := r.openDirs + 1 }
    let s := countEntries pathlen a.counting
      { testset := testset, resources := r, fullpath := fullpath }
    if s.testset.count = 0 then (s, -1)
    else if !a.allocates then (s, -1)
    else
      let s := { s with
        testset := { s.testset with data := some (zeroed a.array s.testset.count) } }
      let (s, index) := loadEntries a.blocks pathlen a.loading s 0
      ({ s with
         testset := { s.testset with count := index }
         resources := { s.resources with openDirs := s.resources.openDirs - 1 } }, 0)

end HtmlBenchmark.Loader
