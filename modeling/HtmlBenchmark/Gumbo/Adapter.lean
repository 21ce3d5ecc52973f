import HtmlBenchmark.Dom
import HtmlBenchmark.TestResult
import HtmlBenchmark.Util

/-!
The tree walks of `test_gumbo.c`.

A gumbo node is a leaf with a text or a node with children; its `type` says
which of several kinds of either it is, and both walks ask for the type first.
Of the tags, those the walks ask for are kept apart.
-/

namespace HtmlBenchmark.Gumbo

open Library

/-- `GumboNodeType` of the nodes with a `GumboText`. -/
inductive GumboTextType
  | text | cdata | comment | whitespace
  deriving DecidableEq, Repr

/-- `GumboNodeType` of the nodes with children. -/
inductive GumboElementType
  | document | element | template
  deriving DecidableEq, Repr

inductive GumboTag
  | a | img | script | style | title | other
  deriving DecidableEq, Repr

structure GumboAttribute where
  name : CString
  value : CString

structure GumboText where
  type : GumboTextType
  text : CString

structure GumboElement where
  type : GumboElementType
  tag : GumboTag
  attributes : List GumboAttribute

abbrev GumboNode := OrderedTree GumboText GumboElement

/-- `gumbo_get_attribute`: the first attribute of that name. -/
def gumboGetAttribute (attributes : List GumboAttribute) (name : CString) :
    Option GumboAttribute :=
  attributes.find? fun attr => strcasecmp attr.name name

/-- What `search_for_links` does at an element before it goes on to the
children. -/
def countLinks (e : GumboElement) (result : TestResult) : TestResult :=
  let result :=
    if e.tag = .a ∧ (gumboGetAttribute e.attributes nameHref).isSome then
      { result with totalHref := result.totalHref + 1 }
    else result
  let result :=
    if e.tag = .img ∧ (gumboGetAttribute e.attributes nameSrc).isSome then
      { result with totalSrc := result.totalSrc + 1 }
    else result
  if e.tag = .img ∧ (gumboGetAttribute e.attributes nameAlt).isSome then
    { result with totalAlt := result.totalAlt + 1 }
  else result

mutual

def searchForLinks : GumboNode → TestResult → TestResult
  | .leaf _, result => result
  | .inner e children, result =>
      if e.type ≠ .element then result else searchChildren children (countLinks e result)

def searchChildren : List GumboNode → TestResult → TestResult
  | [], result => result
  | child :: children, result => searchChildren children (searchForLinks child result)

end

mutual

def innertext : GumboNode → StringT
  | .leaf t =>
      if t.type = .text then
        stringAppend stringInit (cstr t.text.bytes) t.text.bytes.length
      else stringNil
  | .inner e children =>
      if e.type = .element ∧ e.tag ≠ .script ∧ e.tag ≠ .style ∧ e.tag ≠ .title then
        joinChildren 0 children stringInit
      else stringNil

/-- The loop over the children from the one at `i` on. -/
def joinChildren (i : ℕ) : List GumboNode → StringT → StringT
  | [], contents => contents
  | child :: children, contents =>
      let text := innertext child
      -- the index decides on the space, not whether anything stands in front of it
      let contents :=
        if i ≠ 0 ∧ text.size ≠ 0 then stringAppend contents (cstr (bytes " ")) 1 else contents
      let contents :=
        if text.size ≠ 0 then stringAppend contents (cstr text.data) text.size else contents
      joinChildren (i + 1) children contents

end

/-- `test_gumbo`, given the tree its parser builds for the page and the sizes of
the blocks it asks `custom_malloc` for. -/
def testGumbo (root : GumboNode) (mallocs : List ℕ) (result : TestResult) : TestResult :=
  let result := mallocs.foldl (fun r s => { r with totalBytes := r.totalBytes + s }) result
  let result := searchForLinks root result
  { result with totalInnertextBytes := result.totalInnertextBytes + (innertext root).size }

/-! ### The tree for a document -/

def tagOf (name : CString) : GumboTag :=
  if name = nameA then .a
  else if name = nameImg then .img
  else if name = nameScript then .script
  else if name = nameStyle then .style
  else if name = nameTitle then .title
  else .other

/-- An attribute without a value has an empty one. -/
def ofAttribute (a : Attribute) : GumboAttribute :=
  { name := a.name, value := a.value.getD CString.empty }

/-- An element that is no template; `ofHtmlElement` says what becomes of one. -/
def ofElement (e : Element) : GumboElement :=
  { type := .element, tag := tagOf e.name, attributes := e.attributes.map ofAttribute }

def isTemplate (e : Element) : Bool := e.name = nameTemplate

/-- An element of HTML as `create_element_from_token` makes it, which gives a
template a type of its own. -/
def ofHtmlElement (e : Element) : GumboElement :=
  { ofElement e with type := if isTemplate e then .template else .element }

/-- A text of blanks only has a type of its own. -/
def ofContent : Content → GumboText
  | .text data _ => { type := if data.bytes.all isspace then .whitespace else .text, text := data }
  | .comment data => { type := .comment, text := data }

def ofNode (node : Node) : GumboNode := node.map ofContent ofElement

def ofHtmlNode (node : Node) : GumboNode := node.map ofContent ofHtmlElement

end HtmlBenchmark.Gumbo
