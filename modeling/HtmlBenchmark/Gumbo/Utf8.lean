import HtmlBenchmark.CLib
import HtmlBenchmark.Library.Utf8

/-!
The iterator of `gumbo-parser/utf8.c`.

Pointers into the page are offsets from its first byte. A code point has 21 bits
at most when the table-driven decoder accepts, so nothing is lost from the 32
bits it is kept in.

The numbers of a position are `unsigned int`s in the source. None of them grows
by more than one tab stop for a byte of the page, so for a page of `n` bytes with
`n * tab_stop + 1 < 2 ^ 32` they are the natural numbers used here; on longer
pages they wrap around. The source divides by the tab stop, which is to be
positive.
-/

namespace HtmlBenchmark.Gumbo

open Library

/-- `GumboSourcePosition`, with numbers that do not wrap around. -/
structure GumboSourcePosition where
  line : ℕ
  column : ℕ
  offset : ℕ
  deriving DecidableEq, Repr, Inhabited

/-- The `GumboErrorType`s of the iterator and of numeric references. -/
inductive GumboErrorType
  | utf8Invalid | utf8Truncated
  | numericCharRefNoDigits | numericCharRefWithoutSemicolon | numericCharRefInvalid
  deriving DecidableEq, Repr

/-- `GumboError`; a code point is filled in for most types only. -/
structure GumboError where
  type : GumboErrorType
  position : GumboSourcePosition
  originalText : ℕ
  codepoint : Option ℕ
  deriving DecidableEq, Repr

/-- The options and the errors of a `GumboParser`; `tab_stop` is a positive `int`. -/
structure GumboParser where
  tabStop : ℕ
  maxErrors : ℤ
  errors : List GumboError
  deriving DecidableEq, Repr, Inhabited

/-- `gumbo_add_error`, and what the caller fills in. -/
def gumboAddError (parser : GumboParser) (error : GumboError) : GumboParser :=
  if 0 ≤ parser.maxErrors ∧ parser.maxErrors ≤ parser.errors.length then parser
  else { parser with errors := parser.errors ++ [error] }

/-- A parser with `kGumboDefaultOptions`, as the benchmark makes it. -/
def defaultParser : GumboParser := { tabStop := 8, maxErrors := -1, errors := [] }

/-- `Utf8Iterator`; `source` is what stands before `_end`. -/
structure Utf8Iterator where
  source : List UInt8
  start : ℕ
  mark : ℕ
  current : ℤ
  width : ℕ
  pos : GumboSourcePosition
  markPos : GumboSourcePosition
  parser : GumboParser
  deriving DecidableEq, Repr, Inhabited

def utf8ReplacementChar : ℕ := 0xFFFD

/-! ### The decoder -/

def utf8Accept : ℕ := 0

def utf8Reject : ℕ := 12

/-- The classes of the bytes, and from position 256 on the transitions. -/
def utf8d : List ℕ := [
  0, 0, 0, 0, 0, 0, 0, 0, 0, 0, 0, 0, 0, 0, 0, 0, 0, 0, 0, 0, 0, 0, 0, 0, 0,
  0, 0, 0, 0, 0, 0, 0, 0, 0, 0, 0, 0, 0, 0, 0, 0, 0, 0, 0, 0, 0, 0, 0, 0, 0,
  0, 0, 0, 0, 0, 0, 0, 0, 0, 0, 0, 0, 0, 0, 0, 0, 0, 0, 0, 0, 0, 0, 0, 0, 0,
  0, 0, 0, 0, 0, 0, 0, 0, 0, 0, 0, 0, 0, 0, 0, 0, 0, 0, 0, 0, 0, 0, 0, 0, 0,
  0, 0, 0, 0, 0, 0, 0, 0, 0, 0, 0, 0, 0, 0, 0, 0, 0, 0, 0, 0, 0, 0, 0, 0, 0,
  0, 0, 0, 1, 1, 1, 1, 1, 1, 1, 1, 1, 1, 1, 1, 1, 1, 1, 1, 9, 9, 9, 9, 9, 9,
  9, 9, 9, 9, 9, 9, 9, 9, 9, 9, 7, 7, 7, 7, 7, 7, 7, 7, 7, 7, 7, 7, 7, 7, 7,
  7, 7, 7, 7, 7, 7, 7, 7, 7, 7, 7, 7, 7, 7, 7, 7, 7, 8, 8, 2, 2, 2, 2, 2, 2,
  2, 2, 2, 2, 2, 2, 2, 2, 2, 2, 2, 2, 2, 2, 2, 2, 2, 2, 2, 2, 2, 2, 2, 2, 10,
  3, 3, 3, 3, 3, 3, 3, 3, 3, 3, 3, 3, 4, 3, 3, 11, 6, 6, 6, 5, 8, 8, 8, 8, 8,
  8, 8, 8, 8, 8, 8,
  0, 12, 24, 36, 60, 96, 84, 12, 12, 12, 48, 72, 12, 12, 12, 12, 12, 12, 12,
  12, 12, 12, 12, 12, 12, 0, 12, 12, 12, 12, 12, 0, 12, 0, 12, 12, 12, 24, 12,
  12, 12, 12, 12, 24, 12, 24, 12, 12, 12, 12, 12, 12, 12, 12, 12, 24, 12, 12,
  12, 12, 12, 24, 12, 12, 12, 12, 12, 12, 12, 24, 12, 12, 12, 12, 12, 12, 12,
  12, 12, 36, 12, 36, 12, 12, 12, 36, 12, 12, 12, 12, 12, 36, 12, 36, 12, 12,
  12, 36, 12, 12, 12, 12, 12, 12, 12, 12, 12, 12]

/-- `decode`: the state and the code point after a byte. -/
def decode (state codep : ℕ) (byte : UInt8) : ℕ × ℕ :=
  let type := utf8d.getD byte.toNat 0
  (utf8d.getD (256 + state + type) 0,
    if state ≠ utf8Accept then (byte.toNat &&& 0x3f) ||| (codep <<< 6)
    else (0xff >>> type) &&& byte.toNat)

/-- How the loop of `read_char` ends. -/
inductive Scan
  | accepted (width codePoint : ℕ)
  | rejected (width : ℕ)
  | truncated
  deriving DecidableEq, Repr

/-- The loop of `read_char`, `i` bytes behind `_start`. -/
def scan (state codePoint i : ℕ) : List UInt8 → Scan
  | [] => .truncated
  | byte :: rest =>
      let state' := (decode state codePoint byte).1
      let codePoint' := (decode state codePoint byte).2
      if state' = utf8Accept then .accepted (i + 1) codePoint'
      else if state' = utf8Reject then .rejected (i + if i = 0 then 1 else 0)
      else scan state' codePoint' (i + 1) rest

/-! ### The iterator -/

def utf8IsInvalidCodePoint (c : ℕ) : Bool :=
  (0x1 ≤ c && c ≤ 0x8) || c == 0xB || (0xE ≤ c && c ≤ 0x1F) || (0x7F ≤ c && c ≤ 0x9F) ||
    (0xFDD0 ≤ c && c ≤ 0xFDEF) || (c &&& 0xFFFF) == 0xFFFE || (c &&& 0xFFFF) == 0xFFFF

def rawValue (bytes : List UInt8) : ℕ := bytes.foldl (fun v b => (v <<< 8) ||| b.toNat) 0

def addError (iter : Utf8Iterator) (type : GumboErrorType) : Utf8Iterator :=
  { iter with
    parser := gumboAddError iter.parser
      { type, position := iter.pos, originalText := iter.start
        codepoint := some (rawValue ((iter.source.drop iter.start).take iter.width)) } }

/-- What `read_char` does at a carriage return in front of a newline. -/
def skipCarriageReturn (iter : Utf8Iterator) : Utf8Iterator :=
  if iter.source[iter.start + 1]? = some 10 then
    { iter with start := iter.start + 1, pos.offset := iter.pos.offset + 1 }
  else iter

def readChar (iter : Utf8Iterator) : Utf8Iterator :=
  if iter.source.length ≤ iter.start then { iter with current := -1, width := 0 }
  else
    match scan utf8Accept 0 0 (iter.source.drop iter.start) with
    | .accepted width codePoint =>
        let iter := { iter with width }
        let iter := if codePoint = 13 then skipCarriageReturn iter else iter
        let codePoint := if codePoint = 13 then 10 else codePoint
        if utf8IsInvalidCodePoint codePoint then
          { addError iter .utf8Invalid with current := utf8ReplacementChar }
        else { iter with current := codePoint }
    | .rejected width =>
        addError { iter with width, current := utf8ReplacementChar } .utf8Invalid
    | .truncated =>
        addError { iter with current := utf8ReplacementChar
                             width := iter.source.length - iter.start } .utf8Truncated

def updatePosition (iter : Utf8Iterator) : Utf8Iterator :=
  let pos := { iter.pos with offset := iter.pos.offset + iter.width }
  if iter.current = 10 then { iter with pos := { pos with line := pos.line + 1, column := 1 } }
  else if iter.current = 9 then
    { iter with
      pos := { pos with
        column := (pos.column / iter.parser.tabStop + 1) * iter.parser.tabStop } }
  else if iter.current ≠ -1 then { iter with pos := { pos with column := pos.column + 1 } }
  else { iter with pos }

/-- `utf8iterator_init`, which leaves the mark as it finds it. -/
def utf8iteratorInit (parser : GumboParser) (source : List UInt8) (iter : Utf8Iterator) :
    Utf8Iterator :=
  readChar { iter with
    source, start := 0, pos := { line := 1, column := 1, offset := 0 }, parser }

def utf8iteratorNext (iter : Utf8Iterator) : Utf8Iterator :=
  let iter := updatePosition iter
  readChar { iter with start := iter.start + iter.width }

def utf8iteratorMark (iter : Utf8Iterator) : Utf8Iterator :=
  { iter with mark := iter.start, markPos := iter.pos }

def utf8iteratorReset (iter : Utf8Iterator) : Utf8Iterator :=
  readChar { iter with start := iter.mark, pos := iter.markPos }

/-- The first `length` calls of `utf8iterator_next`. -/
def utf8iteratorSkip : ℕ → Utf8Iterator → Utf8Iterator
  | 0, iter => iter
  | n + 1, iter => utf8iteratorSkip n (utf8iteratorNext iter)

/-- What `utf8iterator_maybe_consume_match` finds out first. -/
def matched (iter : Utf8Iterator) (literal : List UInt8) (caseSensitive : Bool) : Bool :=
  iter.start + literal.length ≤ iter.source.length &&
    if caseSensitive then
      strncmp literal.length (cstr (iter.source.drop iter.start)) (cstr literal)
    else strncasecmp literal.length (cstr (iter.source.drop iter.start)) (cstr literal)

def utf8iteratorMaybeConsumeMatch (iter : Utf8Iterator) (literal : List UInt8)
    (caseSensitive : Bool) : Bool × Utf8Iterator :=
  if matched iter literal caseSensitive then (true, utf8iteratorSkip literal.length iter)
  else (false, iter)

end HtmlBenchmark.Gumbo
