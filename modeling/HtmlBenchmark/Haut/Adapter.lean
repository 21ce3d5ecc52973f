import HtmlBenchmark.Dom
import HtmlBenchmark.TestResult

/-!
The event handlers of `test_haut.c`.

Haut is not part of the tree. Of it the model has the fragment, a pointer with a
size and no terminator, the tag of the element an event belongs to, and the
events themselves; its string buffer is the list of the bytes appended.
-/

namespace HtmlBenchmark.Haut

structure StrFragment where
  data : Buf
  size : ℕ

/-- `haut_tag_t`, as far as the handlers tell its members apart. -/
inductive HautTag
  | TAG_BODY | TAG_A | TAG_IMG | TAG_TITLE | other
  deriving DecidableEq, Repr

structure HautData where
  inBody : Bool := false
  result : TestResult
  innertext : List UInt8 := []
  images : ℕ := 0

/-- An event, with what `haut_currentElementTag` answers during it. -/
inductive HautEvent
  | elementOpen (tag : HautTag)
  | attr (tag : HautTag) (key : StrFragment)
  | innertext (tag : HautTag) (text : Option StrFragment)

def elementOpen (d : HautData) (tag : HautTag) : HautData :=
  if tag = .TAG_BODY then { d with inBody := true } else d

/-- `strncasecmp(key->data, name, key->size) == 0` -/
def keyMatches (key : StrFragment) (name : CString) : Bool :=
  strncasecmp key.size key.data (cstr name.bytes)

/-- `attribute`; the word is taken in Lean. -/
def attr (d : HautData) (tag : HautTag) (key : StrFragment) : HautData :=
  if !d.inBody then d
  else if tag = .TAG_A then
    if keyMatches key nameHref then
      { d with result := { d.result with totalHref := d.result.totalHref + 1 } }
    else d
  else if tag = .TAG_IMG then
    -- `alt` is asked only of a key that does not pass for `src`
    if keyMatches key nameSrc then
      { d with
        images := d.images + 1
        result := { d.result with totalSrc := d.result.totalSrc + 1 } }
    else if keyMatches key nameAlt then
      { d with result := { d.result with totalAlt := d.result.totalAlt + 1 } }
    else d
  else d

def innertext (d : HautData) (text : Option StrFragment) : HautData :=
  match text with
  | some text =>
      if d.inBody then
        { d with innertext := d.innertext ++ bytes " " ++ readAt text.data 0 text.size }
      else d
  | none => d

def HautData.event (d : HautData) : HautEvent → HautData
  | .elementOpen tag => elementOpen d tag
  | .attr tag key => attr d tag key
  | .innertext _ text => Haut.innertext d text

def HautData.events (d : HautData) (events : List HautEvent) : HautData :=
  events.foldl HautData.event d

/-- The data `test_haut` hands to the parser. -/
def initial (result : TestResult) : HautData := { result := result }

/-- `test_haut`, given the events its parser raises for the page; `size` is
`sizeof( haut_t )`. -/
def testHaut (size : ℕ) (events : List HautEvent) (result : TestResult) : TestResult :=
  let d := (initial result).events events
  let result := { d.result with
    totalInnertextBytes := d.result.totalInnertextBytes + d.innertext.length }
  { result with totalBytes := result.totalBytes + size }

end HtmlBenchmark.Haut
