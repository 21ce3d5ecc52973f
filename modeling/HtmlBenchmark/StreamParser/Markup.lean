import HtmlBenchmark.StreamParser.Reports
import HtmlBenchmark.StreamParser.Scripts

/-!
Documents, and what a client should be told of them.

A `Document` is what the parser is for: texts, tags with their attributes,
comments and scripts. The types hold what makes each part readable: a text has no
`<`, a name none of the bytes that end it, a value not the quote around it, a
script nothing that would end it early. `render` writes a document as a page,
with blanks wherever a page may have them, and `reports` is the list of reports
due, read off the document.
-/

namespace HtmlBenchmark.StreamParser

/-! ### The parts -/

/-- Bytes that satisfy `p`, any number of them. -/
abbrev Bytes (p : UInt8 → Bool) := { w : List UInt8 // ∀ c ∈ w, p c }

/-- At least one byte, all of them satisfying `p`. -/
abbrev Bytes1 (p : UInt8 → Bool) := { w : List UInt8 // w ≠ [] ∧ ∀ c ∈ w, p c }

/-- A byte that goes on a name or a value without quotes. -/
def nameByte (c : UInt8) : Bool := c ≠ '>'.toUInt8 && !ishtmlspace c

/-- A byte that goes on the name of an attribute. -/
def attrByte (c : UInt8) : Bool := nameByte c && c ≠ '='.toUInt8

inductive Quote
  | double
  | single
  deriving DecidableEq, Repr

def Quote.byte : Quote → UInt8
  | .double => '"'.toUInt8
  | .single => '\''.toUInt8

/-- What an attribute has behind its name: nothing, or an equals sign, with
blanks before and after it, and a value. -/
inductive Value
  | none
  | quoted (before after : Bytes ishtmlspace) (q : Quote) (v : Bytes (· ≠ q.byte))
  | bare (before after : Bytes ishtmlspace) (v : Bytes1 nameByte)
      (unquoted : ∀ q : Quote, v.1.head? ≠ some q.byte)

/-- An attribute and the blanks in front of it. -/
structure Attribute where
  gap : Bytes1 ishtmlspace
  name : Bytes1 attrByte
  value : Value

/-- The name of a tag as the parser gives it: that of a closing tag starts with
its slash. -/
inductive TagName
  | opening (c : { c : UInt8 // isalpha c }) (rest : Bytes nameByte)
  | closing (rest : Bytes nameByte)

def TagName.bytes : TagName → List UInt8
  | .opening c rest => c.1 :: rest.1
  | .closing rest => '/'.toUInt8 :: rest.1

def TagName.isClosing : TagName → Bool
  | .opening _ _ => false
  | .closing _ => true

structure Tag where
  name : TagName
  attrs : List Attribute
  gap : Bytes ishtmlspace

def IsScript (name : List UInt8) : Prop := name.map tolower = bytes "script"

instance (name : List UInt8) : Decidable (IsScript name) := inferInstanceAs (Decidable (_ = _))

/-- A script: its body is ended by its closing tag and not before. -/
structure Script where
  start : Tag
  body : List UInt8
  stop : Tag
  isStart : IsScript start.name.bytes
  isStop : ∃ rest, stop.name = .closing rest ∧ IsScript rest.1
  isOpen : ∀ u, u <+: body → ¬EndsScript u

inductive Markup
  | tag (t : Tag) (notScript : ¬IsScript t.name.bytes)
  | comment (body : Bytes (· ≠ '>'.toUInt8))
  | script (s : Script)

/-- Markup, each piece with the text in front of it, and a text at the end. -/
structure Document where
  pieces : List (Bytes (· ≠ '<'.toUInt8) × Markup)
  rest : Bytes (· ≠ '<'.toUInt8)

/-! ### The page -/

def Value.render : Value → List UInt8
  | .none => []
  | .quoted before after q v => before.1 ++ ['='.toUInt8] ++ after.1 ++ [q.byte] ++ v.1 ++ [q.byte]
  | .bare before after v _ => before.1 ++ ['='.toUInt8] ++ after.1 ++ v.1

def Attribute.render (a : Attribute) : List UInt8 := a.gap.1 ++ a.name.1 ++ a.value.render

def Tag.renderTail (t : Tag) : List UInt8 :=
  t.attrs.flatMap Attribute.render ++ (t.gap.1 ++ ['>'.toUInt8])

def Tag.render (t : Tag) : List UInt8 := ['<'.toUInt8] ++ t.name.bytes ++ t.renderTail

def Markup.render : Markup → List UInt8
  | .tag t _ => t.render
  | .comment body => ['<'.toUInt8, '!'.toUInt8] ++ body.1 ++ ['>'.toUInt8]
  | .script s => s.start.render ++ (s.body ++ s.stop.render)

def Document.render (d : Document) : List UInt8 :=
  d.pieces.flatMap (fun p => p.1.1 ++ p.2.render) ++ d.rest.1

/-! ### The reports due -/

def Value.reports (tag key : List UInt8) : Value → List Report
  | .none => []
  | .quoted _ _ _ v => [.value tag key v.1]
  | .bare _ _ v _ => [.value tag key v.1]

def Attribute.reports (tag : List UInt8) (a : Attribute) : List Report :=
  [.attr tag a.name.1] ++ a.value.reports tag a.name.1

def Tag.reports (t : Tag) : List Report :=
  [.name t.name.bytes] ++ t.attrs.flatMap (Attribute.reports t.name.bytes) ++
    [.tagEnd t.name.isClosing]

def Markup.reports : Markup → List Report
  | .tag t _ => t.reports
  | .comment _ => [.comment]
  | .script s => s.start.reports ++ s.stop.reports

/-- A text is reported if there is one. -/
def textReports (t : List UInt8) : List Report := if t = [] then [] else [.text t]

def Document.reports (d : Document) : List Report :=
  d.pieces.flatMap fun p => textReports p.1.1 ++ p.2.reports

end HtmlBenchmark.StreamParser
