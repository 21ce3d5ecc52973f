import HtmlBenchmark.Dom
import HtmlBenchmark.TestResult
import HtmlBenchmark.Util
import Mathlib.Logic.Function.Basic

/-!
The adapter of `test_myhtml.c`.

A node of MyHTML points to its first child and to its next sibling; of the rest
the text walk sees only what `myhtml_node_text` returns, the data of a text or
of a comment and NULL for an element. The links come from collections the
library makes; of an entry the adapter asks whether it has an attribute of a
given name.

The library allocates through a function of the adapter, which finds the result
through the global `k_result`. So the results are memory here, and a pointer to
one is its index.
-/

namespace HtmlBenchmark.MyHtml

open Library

/-- A pointer to a `myhtml_tree_node_t`. -/
inductive TreeNode
  | null
  | node (text : Option (List UInt8)) (child next : TreeNode)

/-- The loop of `innertext` along the siblings, from a node on. -/
def innertextLoop : TreeNode → StringT → StringT
  | .null, contents => contents
  | .node (some text) _ next, contents =>
      innertextLoop next (stringAppend contents (cstr text) text.length)
  | .node none .null next, contents =>
      -- the call on a NULL child returns no string
      innertextLoop next contents
  | .node none (.node text child' next') next, contents =>
      let tmp := innertextLoop (.node text child' next') stringInit
      innertextLoop next (stringAppend contents (cstr tmp.data) tmp.size)

def innertext : TreeNode → StringT
  | .null => stringNil
  | node => innertextLoop node stringInit

/-! ### A page -/

/-- What the library makes of a page: the sizes of the blocks it asks for, the
elements `a` and `img`, each as the test whether it has an attribute, and the
body, which may be missing. -/
structure Parsed where
  mallocs : List ℕ
  links : List (CString → Bool)
  images : List (CString → Bool)
  body : TreeNode

/-- `k_result` and the results. -/
structure Memory where
  kResult : Option ℕ
  results : ℕ → TestResult

def Memory.update (m : Memory) (result : ℕ) (f : TestResult → TestResult) : Memory :=
  { m with results := Function.update m.results result (f (m.results result)) }

/-- `mycore_malloc`; `k_result` is assigned before the first call. -/
def mycoreMalloc (m : Memory) (size : ℕ) : Memory :=
  match m.kResult with
  | none => m
  | some k => m.update k fun r => { r with totalBytes := r.totalBytes + size }

/-- One round of the loop over the links. -/
def countLink (r : TestResult) (attributeByKey : CString → Bool) : TestResult :=
  if attributeByKey nameHref then { r with totalHref := r.totalHref + 1 } else r

/-- One round of the loop over the images. -/
def countImage (r : TestResult) (attributeByKey : CString → Bool) : TestResult :=
  let r := if attributeByKey nameSrc then { r with totalSrc := r.totalSrc + 1 } else r
  if attributeByKey nameAlt then { r with totalAlt := r.totalAlt + 1 } else r

/-- The text, if the page has a body; `innertext` then returns a string. -/
def addInnertext (body : TreeNode) (r : TestResult) : TestResult :=
  match body with
  | .null => r
  | body => { r with totalInnertextBytes := r.totalInnertextBytes + (innertext body).size }

/-- `test_myhtml` on the result at an index. The allocations come between the
other steps in the source; they only add to `total_bytes`, which nothing else
here touches. -/
def testMyHtml (parsed : Parsed) (result : ℕ) (m : Memory) : Memory :=
  let m := { m with kResult := some result }
  let m := parsed.mallocs.foldl mycoreMalloc m
  let m := m.update result fun r => parsed.links.foldl countLink r
  let m := m.update result fun r => parsed.images.foldl countImage r
  m.update result (addInnertext parsed.body)

/-! ### The nodes for a document -/

/-- What `myhtml_node_text` returns for a leaf of the document. -/
def textOf : Content → List UInt8
  | .text data _ => data.bytes
  | .comment data => data.bytes

mutual

/-- A node of the document followed by its next sibling. -/
def ofNode : Node → TreeNode → TreeNode
  | .leaf a, next => .node (some (textOf a)) .null next
  | .inner _ ts, next => .node none (ofNodes ts .null) next

def ofNodes : List Node → TreeNode → TreeNode
  | [], next => next
  | t :: ts, next => ofNode t (ofNodes ts next)

end

/-! ### What a call leaves -/

/-- What `test_myhtml` does to the result it is given. -/
def pageResult (parsed : Parsed) (r : TestResult) : TestResult :=
  let r := parsed.mallocs.foldl (fun r size => { r with totalBytes := r.totalBytes + size }) r
  let r := parsed.links.foldl countLink r
  let r := parsed.images.foldl countImage r
  addInnertext parsed.body r

theorem Memory.update_update (m : Memory) (k : ℕ) (f g : TestResult → TestResult) :
    (m.update k f).update k g = m.update k fun r => g (f r) := by
  simp [Memory.update]

/-- Once `k_result` points to a result, the allocations add up there. -/
theorem foldl_mycoreMalloc {m : Memory} {k : ℕ} (h : m.kResult = some k) (sizes : List ℕ) :
    sizes.foldl mycoreMalloc m = m.update k fun r =>
      sizes.foldl (fun r size => { r with totalBytes := r.totalBytes + size }) r := by
  induction sizes generalizing m with
  | nil => simp [Memory.update]
  | cons size sizes ih =>
      have hmalloc : mycoreMalloc m size =
          m.update k fun r => { r with totalBytes := r.totalBytes + size } := by
        simp only [mycoreMalloc, h]
      rw [List.foldl_cons, hmalloc, ih (by exact h), Memory.update_update]
      rfl

/-- Where `k_result` pointed before does not matter. -/
theorem testMyHtml_eq (parsed : Parsed) (k : ℕ) (m : Memory) :
    testMyHtml parsed k m = { m with kResult := some k }.update k (pageResult parsed) := by
  have hpoints : ({ m with kResult := some k } : Memory).kResult = some k := rfl
  have hmallocs := foldl_mycoreMalloc hpoints parsed.mallocs
  simp only [testMyHtml, hmallocs, Memory.update_update]
  rfl

end HtmlBenchmark.MyHtml
