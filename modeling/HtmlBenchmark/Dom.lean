import HtmlBenchmark.CLib
import HtmlBenchmark.Library.Tree

/-!
The document the parsers read off a page.

The vendored parsers are not modelled. Where a statement is about what two
adapters make of the same page, it assumes that their parsers deliver the same
document: a tree of elements, texts and comments. `Element` carries what every
one of the parsers guarantees of an element: names in lower case, and no
attribute twice.
-/

namespace HtmlBenchmark

open Library

def Lower (s : CString) : Prop := s.bytes.map tolower = s.bytes

instance (s : CString) : Decidable (Lower s) := inferInstanceAs (Decidable (_ = _))

structure Attribute where
  name : CString
  value : Option CString
  lower : Lower name

structure Element where
  name : CString
  attributes : List Attribute
  lower : Lower name
  distinct : (attributes.map Attribute.name).Nodup

inductive Content
  | text (data : CString) (nonempty : data.bytes ≠ [])
  | comment (data : CString)

/-- A node of the document with everything below it. -/
abbrev Node := OrderedTree Content Element

/-! ### Names the adapters look for -/

def nameHtml : CString := ⟨bytes "html", by decide⟩
def nameHead : CString := ⟨bytes "head", by decide⟩
def nameBody : CString := ⟨bytes "body", by decide⟩
def nameTitle : CString := ⟨bytes "title", by decide⟩
def nameScript : CString := ⟨bytes "script", by decide⟩
def nameTemplate : CString := ⟨bytes "template", by decide⟩
def nameStyle : CString := ⟨bytes "style", by decide⟩
def nameImg : CString := ⟨bytes "img", by decide⟩
def nameA : CString := ⟨bytes "a", by decide⟩
def nameSrc : CString := ⟨bytes "src", by decide⟩
def nameAlt : CString := ⟨bytes "alt", by decide⟩
def nameHref : CString := ⟨bytes "href", by decide⟩

/-- Among names in lower case `strcasecmp` is equality. -/
theorem strcasecmp_of_lower {s t : CString} (hs : Lower s) (ht : Lower t) :
    strcasecmp s t = strcmp s t := by
  have hbytes : s.bytes = t.bytes ↔ s = t := by
    cases s
    cases t
    simp
  rw [strcasecmp, strcmp, decide_eq_decide, show s.bytes.map tolower = s.bytes from hs,
    show t.bytes.map tolower = t.bytes from ht]
  exact hbytes

end HtmlBenchmark
