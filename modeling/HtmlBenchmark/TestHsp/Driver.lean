import HtmlBenchmark.Library.Machine
import HtmlBenchmark.StreamParser.Parser
import HtmlBenchmark.TestResult
import HtmlBenchmark.Util

/-!
The driver of `test_hsp.c`.

`test_hsp` walks the page with one index that two nested loops advance: the
`for` loop, and the `while` loop it enters whenever the parser reports the tag
`img`. The walk is a machine whose states stand just before a loop test, so
one step is one test together with the body it admits. A state also records
the bytes handed to the parser so far; the code keeps no such record, it is
here to be reasoned about.

The index is an `int` in the source. It never exceeds the length of the page
by more than one, so for pages short of `INT_MAX` bytes it is the natural
number used here; on longer pages it overflows, which C leaves undefined.
-/

namespace HtmlBenchmark.TestHsp

open Library StreamParser

def TAG_IMG : List UInt8 := bytes "img"
def TAG_A : List UInt8 := bytes "a"
def TAG_ENDTITLE : List UInt8 := bytes "/title"
def ATTR_HREF : List UInt8 := bytes "href"
def ATTR_SRC : List UInt8 := bytes "src"
def ATTR_ALT : List UInt8 := bytes "alt"

def sizeofHtmlStreamParser : ℕ := 168

/-- `_test_hsp`: the parser and the memory of the four static buffers. -/
structure Statics where
  hsp : HtmlStreamParser := {}
  tagBuf : Buf := fun _ => 0
  attrBuf : Buf := fun _ => 0
  valBuf : Buf := fun _ => 0
  innerBuf : Buf := fun _ => 0

/-- `test_hsp_init`, with whatever `malloc` leaves in the new parser. -/
def testHspInit (g : Statics) (fresh : HtmlStreamParser) : Statics :=
  { g with hsp := htmlParserReset fresh }

/-- The parser as `test_hsp` sets it up for a page. -/
def configured (g : Statics) : HtmlStreamParser :=
  let hsp := htmlParserReset g.hsp
  let hsp := htmlParserSetTagToLower hsp true
  let hsp := htmlParserSetAttrToLower hsp true
  let hsp := htmlParserSetTagBuffer hsp g.tagBuf 9
  let hsp := htmlParserSetAttrBuffer hsp g.attrBuf 9
  let hsp := htmlParserSetValBuffer hsp g.valBuf 127
  htmlParserSetInnerTextBuffer hsp g.innerBuf 8191

/-- Before which loop test the driver stands; the `while` loop owns the two
flags. -/
inductive Pc
  | forTest
  | whileTest (imgSrc imgAlt : Bool)
  deriving DecidableEq, Repr

structure Driver where
  pc : Pc
  i : ℕ
  hsp : HtmlStreamParser
  result : TestResult
  innertext : StringT
  parsed : List UInt8

namespace Driver

/-- Falls through to the `i++` of the `for` loop. -/
def next (d : Driver) : Driver := { d with pc := .forTest, i := d.i + 1 }

def parse (d : Driver) (c : UInt8) : Driver :=
  { d with hsp := htmlParserCharParse d.hsp c, parsed := d.parsed ++ [c] }

/-- Case 1: the end of a link's `href` value. -/
def linkFound (d : Driver) : Bool :=
  htmlParserCmpTag d.hsp TAG_A && htmlParserCmpAttr d.hsp ATTR_HREF &&
    d.hsp.htmlPart.valueEnded

def countHref (d : Driver) : Driver :=
  if d.linkFound then
    { d with result := { d.result with totalHref := d.result.totalHref + 1 } }
  else d

/-- Case 3, at the end of the closing tag: the title is trimmed in place and
cut to the empty string. -/
def endTitle (d : Driver) : Driver :=
  let (data, titleTrim, _) := trimSpaces d.hsp.innerText.data (htmlParserInnerTextLength d.hsp)
  { d with hsp := { d.hsp with
      innerText := { d.hsp.innerText with data := Function.update data titleTrim 0 } } }

/-- Case 4: the text is trimmed in place and, unless empty, collected. -/
def collect (d : Driver) : Driver :=
  let (data, text, textLen) := trimSpaces d.hsp.innerText.data (htmlParserInnerTextLength d.hsp)
  let d := { d with hsp := { d.hsp with innerText := { d.hsp.innerText with data := data } } }
  if textLen ≠ 0 then
    { d with
      result := { d.result with
        totalInnertextBytes := d.result.totalInnertextBytes + textLen }
      innertext := stringAppend d.innertext (fun i => data (text + i)) textLen }
  else d

/-- The body of the `for` loop on the byte at `i`. -/
def forBody (d : Driver) (c : UInt8) : Driver :=
  let d := (d.parse c).countHref
  -- the parser keeps the name `img` behind the end of the tag, up to the next name
  if htmlParserCmpTag d.hsp TAG_IMG then { d with pc := .whileTest false false }
  else if htmlParserCmpTag d.hsp TAG_ENDTITLE then
    if d.hsp.htmlPart.tagEnd then d.endTitle.next else d.next
  else if d.hsp.htmlPart.tagEnd && d.hsp.htmlPart.closingTag then d.collect.next
  else d.next

/-- The trimming of an `alt` value, in place; the value is then dropped. -/
def trimAlt (d : Driver) : Driver :=
  let (data, trim, _) := trimSpaces d.hsp.attrValue.data (htmlParserValLength d.hsp)
  { d with hsp := { d.hsp with
      attrValue := { d.hsp.attrValue with data := Function.update data trim 0 } } }

/-- The body of the `while` loop on the byte at `i`. -/
def whileBody (d : Driver) (imgSrc imgAlt : Bool) (c : UInt8) : Driver :=
  let d := d.parse c
  if htmlParserCmpAttr d.hsp ATTR_SRC then
    if d.hsp.htmlPart.valueEnded && !imgSrc then
      { d with
        pc := .whileTest true imgAlt
        result := { d.result with totalSrc := d.result.totalSrc + 1 } }
    else d
  else if htmlParserCmpAttr d.hsp ATTR_ALT then
    if d.hsp.htmlPart.valueEnded && !imgAlt then
      let d := d.trimAlt
      { d with
        pc := .whileTest imgSrc true
        result := { d.result with totalAlt := d.result.totalAlt + 1 } }
    else d
  else d

/-- One loop test and the body it admits. -/
def step (page : List UInt8) (d : Driver) : Option Driver :=
  match d.pc with
  | .forTest =>
      if d.i < page.length then some (d.forBody (page.getD d.i 0)) else none
  | .whileTest imgSrc imgAlt =>
      -- `while( ++i < length-1 && ...`: the index moves on whether or not the loop is entered
      let d := { d with i := d.i + 1 }
      if d.i < page.length - 1 && !d.hsp.htmlPart.tagEnd then
        some (d.whileBody imgSrc imgAlt (page.getD d.i 0))
      else some d.next

end Driver

def loops (page : List UInt8) : Machine Driver := ⟨Driver.step page⟩

/-- The state in which `test_hsp` reaches its loops. -/
def start (g : Statics) (result : TestResult) : Driver where
  pc := .forTest
  i := 0
  hsp := configured g
  result := { result with totalBytes := sizeofHtmlStreamParser + 18 + 128 + 8192 }
  innertext := stringInit
  parsed := []

/-- Steps enough for a page: every byte takes at most one step of each loop. -/
def enough (page : List UInt8) : ℕ := 2 * page.length + 2

/-- The state in which the loops of `test_hsp` end. -/
def finish (g : Statics) (result : TestResult) (page : List UInt8) : Driver :=
  (loops page).run (enough page) (start g result)

/-- `test_hsp`: the static parser and buffers it leaves, and the result. -/
def testHsp (g : Statics) (result : TestResult) (page : List UInt8) : Statics × TestResult :=
  let d := finish g result page
  ({ hsp := d.hsp
     tagBuf := d.hsp.tagName.data
     attrBuf := d.hsp.attrName.data
     valBuf := d.hsp.attrValue.data
     innerBuf := d.hsp.innerText.data }, d.result)

end HtmlBenchmark.TestHsp
