import HtmlBenchmark.Dom
import HtmlBenchmark.TestResult
import HtmlBenchmark.Util

/-!
The SAX handlers of `test_libxml2.c`.

The parser calls them with a context, the `parser_state` of the page, so each is
a function on that state and a page is the sequence of its calls. The attribute
array is the array of pointers the parser passes, terminators included: a name,
its value or NULL, and two NULLs at the end, or no array at all.
-/

namespace HtmlBenchmark.Libxml2

open Library

structure ParserState where
  result : TestResult
  insideBody : Bool := false
  insideTitle : Bool := false
  insideScript : Bool := false
  insideText : Bool := false
  innertext : StringT := stringInit

/-- One round of the attribute loop: the pair at `i` in an element `name`. -/
def countAttribute (name att : CString) (result : TestResult) : TestResult :=
  let result :=
    if strcmp name nameImg then
      if strcmp att nameSrc then { result with totalSrc := result.totalSrc + 1 }
      else if strcmp att nameAlt then { result with totalAlt := result.totalAlt + 1 }
      else result
    else result
  if strcmp name nameA then
    if strcmp att nameHref then { result with totalHref := result.totalHref + 1 } else result
  else result

/-- The attribute loop, on the part of the array from `i` on. It stops at the
first NULL, be it in the place of a name or of a value. -/
def attributeLoop (name : CString) : List (Option CString) → TestResult → TestResult
  | some att :: some _ :: atts, result =>
      attributeLoop name atts (countAttribute name att result)
  | _, result => result

def startElement (state : ParserState) (name : CString) (atts : Option (List (Option CString))) :
    ParserState :=
  let state :=
    if strcmp name nameTitle then { state with insideTitle := true }
    else if strcmp name nameBody then { state with insideBody := true }
    else if strcmp name nameScript then { state with insideScript := true }
    else
      match atts with
      | none => state
      | some atts => { state with result := attributeLoop name atts state.result }
  { state with insideText := false }

def endElement (state : ParserState) (name : CString) : ParserState :=
  let state :=
    if strcmp name nameTitle then { state with insideTitle := false }
    else if strcmp name nameBody then { state with insideBody := false }
    else if strcmp name nameScript then { state with insideScript := false }
    else state
  { state with insideText := false }

def isAllWhitespace (str : List UInt8) : Bool := str.all isspace

def characters (state : ParserState) (ch : List UInt8) : ParserState :=
  if state.insideBody && !state.insideScript then
    -- blanks behind a text become one space, however many there are
    if isAllWhitespace ch then
      if state.insideText then
        { state with innertext := stringAppend state.innertext (cstr (bytes " ")) 1 }
      else state
    else
      { state with
        insideText := true
        innertext := stringAppend state.innertext (cstr ch) ch.length }
  else state

/-- A call of a handler. -/
inductive Call
  | startElement (name : CString) (atts : Option (List (Option CString)))
  | endElement (name : CString)
  | characters (ch : List UInt8)

def ParserState.call (state : ParserState) : Call → ParserState
  | .startElement name atts => Libxml2.startElement state name atts
  | .endElement name => Libxml2.endElement state name
  | .characters ch => Libxml2.characters state ch

def ParserState.calls (state : ParserState) (calls : List Call) : ParserState :=
  calls.foldl ParserState.call state

/-- The state `test_libxml2` hands to the parser. -/
def initial (result : TestResult) : ParserState := { result := result }

/-- `test_libxml2`, given the calls its parser makes for the page; `sizes` is
what the three `sizeof`s add up to. -/
def testLibxml2 (sizes : ℕ) (calls : List Call) (result : TestResult) : TestResult :=
  let state := (initial result).calls calls
  let result := { state.result with
    totalInnertextBytes := state.result.totalInnertextBytes + state.innertext.size }
  { result with totalBytes := result.totalBytes + sizes }

/-! ### The calls for a document -/

def attsOf : List Attribute → Option (List (Option CString))
  | [] => none
  | atts => some (atts.flatMap (fun a => [some a.name, a.value]) ++ [none, none])

/-- The calls for an event of the document; a comment makes none. -/
def callsOf : Event Content Element → List Call
  | .start e => [.startElement e.name (attsOf e.attributes)]
  | .leaf (.text data _) => [.characters data.bytes]
  | .leaf (.comment _) => []
  | .finish e => [.endElement e.name]

def callsFor (node : Node) : List Call := node.events.flatMap callsOf

/-! ### What a call leaves alone -/

section Frame

variable (state : ParserState)

@[simp] theorem endElement_result (name : CString) :
    (endElement state name).result = state.result := by
  simp only [endElement]
  split_ifs <;> rfl

@[simp] theorem characters_result (ch : List UInt8) :
    (characters state ch).result = state.result := by
  simp only [characters]
  split_ifs <;> rfl

@[simp] theorem startElement_innertext (name : CString) (atts : Option (List (Option CString))) :
    (startElement state name atts).innertext = state.innertext := by
  simp only [startElement]
  split_ifs
  · rfl
  · rfl
  · rfl
  · cases atts <;> rfl

@[simp] theorem endElement_innertext (name : CString) :
    (endElement state name).innertext = state.innertext := by
  simp only [endElement]
  split_ifs <;> rfl

theorem startElement_insideBody (name : CString) (atts : Option (List (Option CString))) :
    (startElement state name atts).insideBody = (decide (name = nameBody) || state.insideBody) := by
  have hne : nameTitle ≠ nameBody := by decide
  simp only [startElement, strcmp, decide_eq_true_eq]
  split_ifs with htitle hbody hscript
  · simp [htitle, hne]
  · simp [hbody]
  · simp [hbody]
  · cases atts <;> simp [hbody]

theorem startElement_insideScript (name : CString) (atts : Option (List (Option CString))) :
    (startElement state name atts).insideScript =
      (decide (name = nameScript) || state.insideScript) := by
  have htitleScript : nameTitle ≠ nameScript := by decide
  have hbodyScript : nameBody ≠ nameScript := by decide
  simp only [startElement, strcmp, decide_eq_true_eq]
  split_ifs with htitle hbody hscript
  · simp [htitle, htitleScript]
  · simp [hbody, hbodyScript]
  · simp [hscript]
  · cases atts <;> simp [hscript]

theorem endElement_insideBody (name : CString) :
    (endElement state name).insideBody = (!decide (name = nameBody) && state.insideBody) := by
  have hne : nameTitle ≠ nameBody := by decide
  simp only [endElement, strcmp, decide_eq_true_eq]
  split_ifs with htitle hbody hscript
  · simp [htitle, hne]
  · simp [hbody]
  · simp [hbody]
  · simp [hbody]

theorem endElement_insideScript (name : CString) :
    (endElement state name).insideScript = (!decide (name = nameScript) && state.insideScript) := by
  have htitleScript : nameTitle ≠ nameScript := by decide
  have hbodyScript : nameBody ≠ nameScript := by decide
  simp only [endElement, strcmp, decide_eq_true_eq]
  split_ifs with htitle hbody hscript
  · simp [htitle, htitleScript]
  · simp [hbody, hbodyScript]
  · simp [hscript]
  · simp [hscript]

theorem calls_append (calls calls' : List Call) :
    state.calls (calls ++ calls') = (state.calls calls).calls calls' :=
  List.foldl_append

end Frame

theorem characters_valid {state : ParserState} (h : state.innertext.Valid) (ch : List UInt8) :
    (characters state ch).innertext.Valid := by
  simp only [characters]
  split_ifs
  · exact stringAppend_valid h _ _
  · exact h
  · exact stringAppend_valid h _ _
  · exact h

theorem call_valid {state : ParserState} (h : state.innertext.Valid) (call : Call) :
    (state.call call).innertext.Valid := by
  cases call with
  | startElement name atts => simpa [ParserState.call] using h
  | endElement name => simpa [ParserState.call] using h
  | characters ch => exact characters_valid h ch

theorem calls_valid {state : ParserState} (h : state.innertext.Valid) (calls : List Call) :
    (state.calls calls).innertext.Valid := by
  induction calls generalizing state with
  | nil => exact h
  | cons call calls ih => exact ih (call_valid h call)

end HtmlBenchmark.Libxml2
