import HtmlBenchmark.Gumbo.Marks
import Mathlib.Data.Nat.Digits.Defs

/-!
The numeric character references of `gumbo-parser/char_ref.c`.

The tokenizer calls `consume_char_ref` on an ampersand. The table of the named
references is left to a parameter. The code point of a numeric reference is an
`int`; a numeral that does not fit has no defined value, and the functions have
no result then.
-/

namespace HtmlBenchmark.Gumbo

open Library Library.Utf8

/-- `kCharReplacements`, without its terminator. -/
def charReplacements : List (ℕ × ℕ) := [(0x00, 0xfffd),
  (0x0d, 0x000d), (0x80, 0x20ac), (0x81, 0x0081), (0x82, 0x201A),
  (0x83, 0x0192), (0x84, 0x201E), (0x85, 0x2026), (0x86, 0x2020),
  (0x87, 0x2021), (0x88, 0x02C6), (0x89, 0x2030), (0x8A, 0x0160),
  (0x8B, 0x2039), (0x8C, 0x0152), (0x8D, 0x008D), (0x8E, 0x017D),
  (0x8F, 0x008F), (0x90, 0x0090), (0x91, 0x2018), (0x92, 0x2019),
  (0x93, 0x201C), (0x94, 0x201D), (0x95, 0x2022), (0x96, 0x2013),
  (0x97, 0x2014), (0x98, 0x02DC), (0x99, 0x2122), (0x9A, 0x0161),
  (0x9B, 0x203A), (0x9C, 0x0153), (0x9D, 0x009D), (0x9E, 0x017E),
  (0x9F, 0x0178)]

/-- `parse_digit`; `none` stands for -1. -/
def parseDigit (c : ℤ) (allowHex : Bool) : Option ℕ :=
  if 48 ≤ c ∧ c ≤ 57 then some (c - 48).toNat
  else if allowHex ∧ 97 ≤ c ∧ c ≤ 102 then some (c - 97 + 10).toNat
  else if allowHex ∧ 65 ≤ c ∧ c ≤ 70 then some (c - 65 + 10).toNat
  else none

/-- `add_no_digit_error` and `add_codepoint_error`, reported at the mark. -/
def addErrorAtMark (iter : Utf8Iterator) (type : GumboErrorType) (codepoint : Option ℕ) :
    Utf8Iterator :=
  { iter with
    parser := gumboAddError iter.parser
      { type, position := iter.markPos, originalText := iter.mark, codepoint } }

/-- `maybe_replace_codepoint`; `none` stands for -1. -/
def maybeReplaceCodepoint (codepoint : ℕ) : Option ℕ :=
  (charReplacements.find? fun r => r.1 = codepoint).map Prod.snd

def baseOf (isHex : Bool) : ℕ := if isHex then 16 else 10

/-- The loop over the digits, at most `n` rounds of it. -/
def digitLoop (isHex : Bool) : ℕ → ℕ → ℕ → Utf8Iterator → Option (ℕ × Utf8Iterator)
  | 0, _, _, _ => none
  | n + 1, codepoint, digit, iter =>
      let codepoint := codepoint * baseOf isHex + digit
      if 2 ^ 31 ≤ codepoint then none
      else
        let iter := utf8iteratorNext iter
        match parseDigit iter.current isHex with
        | some digit => digitLoop isHex n codepoint digit iter
        | none => some (codepoint, iter)

/-- `consume_numeric_ref` behind the loop: the semicolon, and what the code point
is replaced by. -/
def finishNumericRef (codepoint : ℕ) (iter : Utf8Iterator) : Bool × Option ℕ × Utf8Iterator :=
  let status := iter.current = 59
  let iter :=
    if iter.current = 59 then utf8iteratorNext iter
    else addErrorAtMark iter .numericCharRefWithoutSemicolon (some codepoint)
  match maybeReplaceCodepoint codepoint with
  | some replacement =>
      (false, some replacement, addErrorAtMark iter .numericCharRefInvalid (some codepoint))
  | none =>
      if (0xd800 ≤ codepoint ∧ codepoint ≤ 0xdfff) ∨ 0x10ffff < codepoint then
        (false, some 0xfffd, addErrorAtMark iter .numericCharRefInvalid (some codepoint))
      else if utf8IsInvalidCodePoint codepoint ∨ codepoint = 0xb then
        -- it is returned anyway
        (false, some codepoint, addErrorAtMark iter .numericCharRefInvalid (some codepoint))
      else (status, some codepoint, iter)

/-- `consume_numeric_ref`: the status, `*output` (`none` for `kGumboNoChar`) and the
iterator. -/
def consumeNumericRef (iter : Utf8Iterator) : Option (Bool × Option ℕ × Utf8Iterator) :=
  let iter := utf8iteratorNext iter
  let isHex : Bool := iter.current = 120 ∨ iter.current = 88
  let iter := if isHex then utf8iteratorNext iter else iter
  match parseDigit iter.current isHex with
  | none => some (false, none, utf8iteratorReset (addErrorAtMark iter .numericCharRefNoDigits none))
  | some digit =>
      (digitLoop isHex iter.source.length 0 digit iter).map fun r => finishNumericRef r.1 r.2

/-- What `consume_char_ref` returns: the status, the one or two code points and the
iterator. -/
abbrev CharRefResult := Option (Bool × (Option ℕ × Option ℕ) × Utf8Iterator)

def consumeCharRef (consumeNamedRef : Utf8Iterator → Bool → CharRefResult) (iter : Utf8Iterator)
    (additionalAllowedChar : ℤ) (isInAttribute : Bool) : CharRefResult :=
  let iter := utf8iteratorNext (utf8iteratorMark iter)
  if iter.current = additionalAllowedChar ∨ iter.current ∈ [9, 10, 12, 32, 60, 38, -1] then
    some (true, (none, none), utf8iteratorReset iter)
  else if iter.current = 35 then
    (consumeNumericRef iter).map fun r => (r.1, (r.2.1, none), r.2.2)
  else consumeNamedRef iter isInAttribute

/-! ### What an iterator stands on -/

theorem readChar_current (iter : Utf8Iterator) :
    (readChar iter).current ∈ [-1, 10, 0xFFFD] ∨
      ∃ c : Char, String.utf8EncodeChar c <+: iter.source.drop iter.start ∧
        (readChar iter).current = c.toNat := by
  obtain ⟨pieces, hpieces⟩ := exists_pieces (iter.source.drop iter.start)
  cases pieces with
  | nil =>
      rw [readChar_end hpieces]
      exact .inl (by simp)
  | cons a pieces =>
      have ha := (divides_cons_iff.mp hpieces).1
      by_cases hreturn : a = .char '\r'
      · subst hreturn
        by_cases hnewline : iter.source[iter.start + 1]? = some 10
        · rw [readChar_return_newline ha hnewline]
          have hvalid : utf8IsInvalidCodePoint 10 = false := by decide
          exact .inl (by simp [standOn, symbolOf, Symbol.skip, hvalid])
        · rw [readChar_return ha hnewline]
          exact .inl (by simp [standOn, symbolOf])
      · rw [readChar_of_ne ha hreturn]
        cases a with
        | char c =>
            have hc : c ≠ '\r' := by simpa using hreturn
            by_cases hinvalid : utf8IsInvalidCodePoint c.toNat
            · exact .inl (by simp [standOn, symbolOf, hc, hinvalid])
            · exact .inr ⟨c, ha.isPrefix, by simp [standOn, symbolOf, hc, hinvalid]⟩
        | illFormed p => exact .inl (by simp [standOn, symbolOf])
        | truncated p => exact .inl (by simp [standOn, symbolOf])

/-- A printable character under the cursor is the next byte of the page. -/
theorem current_eq_iff {iter : Utf8Iterator} {b : UInt8} (hb : Printable b) :
    (readChar iter).current = b.toNat ↔ (iter.source.drop iter.start).head? = some b := by
  obtain ⟨hlow, hhigh⟩ := id hb
  obtain ⟨c, hencode, hsymbol, hreturn, -⟩ := hb.char
  have hc : b.toNat = c.toNat := toNat_eq_of_mem (by rw [hencode]; exact List.mem_singleton_self b)
    (by omega)
  constructor
  · intro hcurrent
    rcases readChar_current iter with hother | ⟨c', hhead, hcurrent'⟩
    · rw [hcurrent] at hother
      simp only [List.mem_cons, List.not_mem_nil, or_false] at hother
      omega
    · obtain rfl : c' = c := Char.toNat_inj.mp (by omega)
      rw [hencode] at hhead
      obtain ⟨rest, hrest⟩ := hhead
      rw [← hrest]
      rfl
  · intro hhead
    obtain ⟨rest, hrest⟩ := List.head?_eq_some_iff.mp hhead
    have hread : readChar iter = standOn iter (symbolOf (.char c)) := readChar_of_ne
      (.char (by rw [hencode, hrest]; exact ⟨rest, rfl⟩)) (by simpa using hreturn)
    rw [hread, hsymbol, hc]
    rfl

theorem exists_printable_of_parseDigit {c : ℤ} {isHex : Bool} {d : ℕ}
    (h : parseDigit c isHex = some d) : ∃ b : UInt8, Printable b ∧ c = b.toNat := by
  have hrange : 48 ≤ c ∧ c ≤ 102 := by
    unfold parseDigit at h
    split_ifs at h <;> omega
  have hb : (UInt8.ofNat c.toNat).toNat = c.toNat := by
    rw [UInt8.toNat_ofNat', Nat.mod_eq_of_lt]
    omega
  refine ⟨UInt8.ofNat c.toNat, ?_, ?_⟩
  · rw [Printable, hb]
    omega
  · rw [hb]
    omega

/-- The digit under the cursor is that of the next byte. -/
theorem parseDigit_current (iter : Utf8Iterator) (isHex : Bool) :
    parseDigit (readChar iter).current isHex =
      (iter.source.drop iter.start).head?.bind fun b => parseDigit b.toNat isHex := by
  apply Option.ext
  intro d
  rw [Option.bind_eq_some_iff]
  constructor
  · intro hd
    obtain ⟨b, hb, hcurrent⟩ := exists_printable_of_parseDigit hd
    exact ⟨b, (current_eq_iff hb).mp hcurrent, hcurrent ▸ hd⟩
  · rintro ⟨b, hhead, hd⟩
    obtain ⟨b', hb', hbyte⟩ := exists_printable_of_parseDigit hd
    obtain rfl : b = b' := UInt8.toNat_inj.mp (Int.ofNat_inj.mp hbyte)
    rw [(current_eq_iff hb').mpr hhead, hd]

/-! ### The numeral -/

/-- The digits a text begins with. -/
def digitsOf (isHex : Bool) (text : List UInt8) : List UInt8 :=
  text.takeWhile fun b => (parseDigit b.toNat isHex).isSome

/-- The value of digits behind the value `v`. -/
def numeral (isHex : Bool) (v : ℕ) (digits : List UInt8) : ℕ :=
  digits.foldl (fun v b => v * baseOf isHex + (parseDigit b.toNat isHex).getD 0) v

theorem le_numeral (isHex : Bool) (v : ℕ) (digits : List UInt8) : v ≤ numeral isHex v digits := by
  induction digits generalizing v with
  | nil => exact Nat.le_refl _
  | cons b digits ih =>
      refine Nat.le_trans ?_ (ih _)
      have hbase : 1 ≤ baseOf isHex := by cases isHex <;> decide
      exact Nat.le_add_right_of_le (Nat.le_mul_of_pos_right v hbase)

theorem numeral_cons {isHex : Bool} {b : UInt8} {d : ℕ} (hd : parseDigit b.toNat isHex = some d)
    (v : ℕ) (digits : List UInt8) :
    numeral isHex v (b :: digits) = numeral isHex (v * baseOf isHex + d) digits := by
  rw [numeral, List.foldl_cons, hd]
  rfl

theorem digitLoop_succ {isHex : Bool} {iter : Utf8Iterator} {b : UInt8} {tail : List UInt8}
    (hdrop : iter.source.drop iter.start = b :: tail) {d : ℕ}
    (hd : parseDigit b.toNat isHex = some d) (n v : ℕ) :
    digitLoop isHex (n + 1) v d (readChar iter) =
      if 2 ^ 31 ≤ v * baseOf isHex + d then none
      else
        match tail.head?.bind fun b => parseDigit b.toNat isHex with
        | some digit => digitLoop isHex n (v * baseOf isHex + d) digit (readChar (moved iter 1))
        | none => some (v * baseOf isHex + d, readChar (moved iter 1)) := by
  obtain ⟨b', hb, hbyte⟩ := exists_printable_of_parseDigit hd
  obtain rfl : b = b' := UInt8.toNat_inj.mp (Int.ofNat_inj.mp hbyte)
  have htail : (moved iter 1).source.drop (moved iter 1).start = tail := by
    rw [moved, ← List.drop_drop, hdrop]
    rfl
  simp only [digitLoop, (readChar_printable hb hdrop).2, parseDigit_current, htail]

/-- **The loop over the digits** reads them all, and has no result exactly if
the numeral does not fit. -/
theorem digitLoop_eq {isHex : Bool} {iter : Utf8Iterator} {b : UInt8} {tail : List UInt8}
    (hdrop : iter.source.drop iter.start = b :: tail) {d : ℕ}
    (hd : parseDigit b.toNat isHex = some d) {n : ℕ} (hn : tail.length < n) (v : ℕ) :
    digitLoop isHex n v d (readChar iter) =
      if 2 ^ 31 ≤ numeral isHex v (b :: digitsOf isHex tail) then none
      else some (numeral isHex v (b :: digitsOf isHex tail),
        readChar (moved iter (1 + (digitsOf isHex tail).length))) := by
  obtain ⟨n, rfl⟩ : ∃ m, n = m + 1 := ⟨n - 1, by omega⟩
  induction tail generalizing iter b d n v with
  | nil =>
      rw [digitLoop_succ hdrop hd, numeral_cons hd]
      rfl
  | cons b' tail ih =>
      obtain ⟨n, rfl⟩ : ∃ m, n = m + 1 := ⟨n - 1, by simp at hn; omega⟩
      rw [digitLoop_succ hdrop hd, numeral_cons hd, List.head?_cons, Option.bind_some]
      by_cases hlarge : 2 ^ 31 ≤ v * baseOf isHex + d
      · rw [if_pos hlarge, if_pos (Nat.le_trans hlarge (le_numeral _ _ _))]
      · rw [if_neg hlarge]
        cases hd' : parseDigit b'.toNat isHex with
        | none =>
            have hdigits : digitsOf isHex (b' :: tail) = [] := by simp [digitsOf, hd']
            rw [hdigits]
            exact (if_neg hlarge).symm
        | some d' =>
            have hdigits : digitsOf isHex (b' :: tail) = b' :: digitsOf isHex tail := by
              simp [digitsOf, hd']
            have htail : (moved iter 1).source.drop (moved iter 1).start = b' :: tail := by
              rw [moved, ← List.drop_drop, hdrop]
              rfl
            have hloop := ih htail hd' (v * baseOf isHex + d) n (by simpa using hn)
            rw [moved_moved] at hloop
            rw [hdigits, List.length_cons, Nat.add_comm (digitsOf isHex tail).length]
            exact hloop

/-! ### References -/

def OutOfRange (v : ℕ) : Prop := 0xd800 ≤ v ∧ v ≤ 0xdfff ∨ 0x10ffff < v

instance (v : ℕ) : Decidable (OutOfRange v) := inferInstanceAs (Decidable (_ ∨ _))

/-- The code point a value is read as. -/
def refChar (v : ℕ) : ℕ := (maybeReplaceCodepoint v).getD (if OutOfRange v then 0xfffd else v)

/-- The values that are read without an error. -/
def RefValid (v : ℕ) : Prop :=
  maybeReplaceCodepoint v = none ∧ ¬OutOfRange v ∧ ¬utf8IsInvalidCodePoint v

instance (v : ℕ) : Decidable (RefValid v) := inferInstanceAs (Decidable (_ ∧ _ ∧ _))

/-- The iterator behind a reference to `v`, with the errors reported on the way. -/
def behindRef (v : ℕ) (semicolon : Bool) (iter : Utf8Iterator) : Utf8Iterator :=
  let iter :=
    if semicolon then readChar (moved iter 1)
    else addErrorAtMark (readChar iter) .numericCharRefWithoutSemicolon (some v)
  if RefValid v then iter else addErrorAtMark iter .numericCharRefInvalid (some v)

theorem finishNumericRef_eq (v : ℕ) (iter : Utf8Iterator) :
    finishNumericRef v (readChar iter) =
      (decide ((iter.source.drop iter.start).head? = some 59 ∧ RefValid v), some (refChar v),
        behindRef v (decide ((iter.source.drop iter.start).head? = some 59)) iter) := by
  have hprintable : Printable 59 := by decide
  have hsemicolon : (readChar iter).current = 59 ↔
      (iter.source.drop iter.start).head? = some 59 := current_eq_iff hprintable
  have hbehind : (if (readChar iter).current = 59 then utf8iteratorNext (readChar iter)
      else addErrorAtMark (readChar iter) .numericCharRefWithoutSemicolon (some v)) =
      if (iter.source.drop iter.start).head? = some 59 then readChar (moved iter 1)
      else addErrorAtMark (readChar iter) .numericCharRefWithoutSemicolon (some v) := by
    refine if_ctx_congr hsemicolon (fun h => ?_) fun _ => rfl
    obtain ⟨rest, hrest⟩ := List.head?_eq_some_iff.mp h
    exact (readChar_printable hprintable hrest).2
  have hinvalid : utf8IsInvalidCodePoint v ∨ v = 0xb ↔ utf8IsInvalidCodePoint v :=
    or_iff_left_of_imp fun h => by rw [h]; decide
  simp only [finishNumericRef, hbehind, hinvalid, behindRef, decide_eq_true_eq]
  cases hreplace : maybeReplaceCodepoint v with
  | some r => simp [RefValid, refChar, hreplace]
  | none =>
      simp only [RefValid, refChar, hreplace, Option.getD_none, true_and]
      by_cases hrange : OutOfRange v
      · have hrange' : (0xd800 ≤ v ∧ v ≤ 0xdfff) ∨ 0x10ffff < v := hrange
        simp [hrange, hrange']
      · have hrange' : ¬((0xd800 ≤ v ∧ v ≤ 0xdfff) ∨ 0x10ffff < v) := hrange
        rw [if_neg hrange', if_neg hrange]
        by_cases hcontrol : utf8IsInvalidCodePoint v
        · simp [hcontrol]
        · simp [hcontrol, hrange, hsemicolon]

/-! ### References in a page -/

/-- The base a text behind `&#` announces. -/
def isHexRef (text : List UInt8) : Bool := text.head? = some 120 ∨ text.head? = some 88

/-- The length of `&#`, and of the `x` behind it if there is one. -/
def refWidth (text : List UInt8) : ℕ := if isHexRef text then 3 else 2

def refDigits (text : List UInt8) : List UInt8 :=
  digitsOf (isHexRef text) (if isHexRef text then text.tail else text)

def refValue (text : List UInt8) : ℕ := numeral (isHexRef text) 0 (refDigits text)

def refEnds (text : List UInt8) : Bool :=
  (text.drop (refWidth text - 2 + (refDigits text).length)).head? = some 59

theorem digitsOf_eq_nil {isHex : Bool} {text : List UInt8} :
    digitsOf isHex text = [] ↔ (text.head?.bind fun b => parseDigit b.toNat isHex) = none := by
  cases text with
  | nil => simp [digitsOf]
  | cons b text =>
      rw [List.head?_cons, Option.bind_some, digitsOf]
      cases hd : parseDigit b.toNat isHex <;> simp [hd]

theorem isHex_current {iter : Utf8Iterator} {text : List UInt8}
    (hdrop : iter.source.drop iter.start = text) :
    decide ((readChar iter).current = 120 ∨ (readChar iter).current = 88) = isHexRef text ∧
      (if isHexRef text then utf8iteratorNext (readChar iter) else readChar iter) =
        readChar (moved iter (refWidth text - 2)) := by
  have hx : (readChar iter).current = 120 ↔ text.head? = some 120 :=
    hdrop ▸ current_eq_iff (b := 120) (by decide)
  have hX : (readChar iter).current = 88 ↔ text.head? = some 88 :=
    hdrop ▸ current_eq_iff (b := 88) (by decide)
  refine ⟨by simp only [hx, hX, isHexRef], ?_⟩
  by_cases hhex : isHexRef text
  · rw [if_pos hhex, refWidth, if_pos hhex]
    rw [isHexRef, decide_eq_true_eq] at hhex
    rcases hhex with h | h
    all_goals
      obtain ⟨rest, rfl⟩ := List.head?_eq_some_iff.mp h
      exact (readChar_printable (by decide) hdrop).2
  · rw [if_neg hhex, refWidth, if_neg hhex]
    rfl

theorem source_readChar (iter : Utf8Iterator) : (readChar iter).source = iter.source :=
  congrArg Prod.fst (pageAndMark_readChar iter)

theorem drop_moved {iter : Utf8Iterator} {text : List UInt8}
    (hdrop : iter.source.drop iter.start = text) (n : ℕ) :
    (moved iter n).source.drop (moved iter n).start = text.drop n := by
  rw [moved, ← List.drop_drop, hdrop]

theorem consumeNumericRef_eq {iter : Utf8Iterator} {text : List UInt8}
    (hdrop : iter.source.drop iter.start = 35 :: text) :
    consumeNumericRef (readChar iter) =
      if refDigits text = [] then
        some (false, none, utf8iteratorReset
          (addErrorAtMark (readChar (moved iter (refWidth text - 1))) .numericCharRefNoDigits none))
      else if 2 ^ 31 ≤ refValue text then none
      else some (refEnds text && decide (RefValid (refValue text)), some (refChar (refValue text)),
        behindRef (refValue text) (refEnds text)
          (moved iter (refWidth text - 1 + (refDigits text).length))) := by
  have hnext := (readChar_printable (by decide) hdrop).2
  have htext : (moved iter 1).source.drop (moved iter 1).start = text := drop_moved hdrop 1
  obtain ⟨hhex, hbase⟩ := isHex_current htext
  have hwidth : 1 + (refWidth text - 2) = refWidth text - 1 := by
    rw [refWidth]
    split_ifs <;> rfl
  rw [moved_moved, hwidth] at hbase
  generalize hplace : moved iter (refWidth text - 1) = place at hbase
  have hbody : place.source.drop place.start =
      if isHexRef text then text.tail else text := by
    rw [← hplace, drop_moved hdrop, refWidth]
    by_cases hhex : isHexRef text
    · rw [if_pos hhex, if_pos hhex, ← List.drop_one]
      rfl
    · rw [if_neg hhex, if_neg hhex]
      rfl
  rw [consumeNumericRef]
  simp only [hnext, hhex, hbase, parseDigit_current, hbody, source_readChar]
  generalize hbodyText : (if isHexRef text then text.tail else text) = body at hbody
  have hdigits : refDigits text = digitsOf (isHexRef text) body := by rw [refDigits, hbodyText]
  cases body with
  | nil =>
      rw [if_pos (by rw [hdigits]; rfl)]
      rfl
  | cons b body =>
      rw [List.head?_cons, Option.bind_some]
      cases hd : parseDigit b.toNat (isHexRef text) with
      | none =>
          have hnil : refDigits text = [] := by
            rw [hdigits, digitsOf_eq_nil, List.head?_cons, Option.bind_some, hd]
          rw [if_pos hnil]
      | some d =>
          have hcons : refDigits text = b :: digitsOf (isHexRef text) body := by
            rw [hdigits]
            simp [digitsOf, hd]
          have hfuel : body.length < place.source.length := by
            have hlength := congrArg List.length hbody
            rw [List.length_drop, List.length_cons] at hlength
            omega
          have hlength : 1 + (digitsOf (isHexRef text) body).length = (refDigits text).length := by
            rw [hcons, List.length_cons, Nat.add_comm]
          have hbehind : moved place (refDigits text).length =
              moved iter (refWidth text - 1 + (refDigits text).length) := by
            rw [← hplace, moved_moved]
          have hends : decide ((((moved place (refDigits text).length).source.drop
              (moved place (refDigits text).length).start)).head? = some 59) = refEnds text := by
            have hoffset : refWidth text - 1 + (refDigits text).length =
                refWidth text - 2 + (refDigits text).length + 1 := by
              rw [refWidth]
              split_ifs <;> omega
            rw [hbehind, drop_moved hdrop, refEnds, hoffset, List.drop_succ_cons]
          have hloop := digitLoop_eq hbody hd hfuel 0
          rw [← hcons, ← refValue, hlength] at hloop
          rw [if_neg (by rw [hcons]; exact List.cons_ne_nil _ _)]
          simp only [hloop]
          by_cases hlarge : 2 ^ 31 ≤ refValue text
          · rw [if_pos hlarge, if_pos hlarge]
            rfl
          · rw [if_neg hlarge, if_neg hlarge, Option.map_some, finishNumericRef_eq,
              Bool.decide_and, hends, hbehind]

/-- Back at a printable character, no error is reported again. -/
theorem Settled.reset_printable {iter later : Utf8Iterator} (h : Settled iter) {b : UInt8}
    (hb : Printable b) {rest : List UInt8} (hdrop : iter.source.drop iter.start = b :: rest)
    (hmark : pageAndMark later = pageAndMark (utf8iteratorMark iter)) :
    utf8iteratorReset later = { utf8iteratorMark iter with parser := later.parser } := by
  obtain ⟨error, -, -, hreset⟩ := h.reset hmark
  simp only [pageAndMark, utf8iteratorMark, Prod.mk.injEq] at hmark
  obtain ⟨hsource, hstart, -⟩ := hmark
  have hback : later.source.drop later.mark = b :: rest := by rw [hsource, hstart, hdrop]
  have hparser : (utf8iteratorReset later).parser = later.parser :=
    (@readChar_printable { later with start := later.mark, pos := later.markPos } b hb rest
      hback).1
  rw [hreset] at hparser ⊢
  exact congrArg (fun p => { utf8iteratorMark iter with parser := p }) hparser

theorem Settled.numericRef (consumeNamedRef : Utf8Iterator → Bool → CharRefResult)
    {iter₁ : Utf8Iterator} (hsettled : Settled iter₁)
    {text : List UInt8} (hdrop : iter₁.source.drop iter₁.start = 38 :: 35 :: text)
    {additionalAllowedChar : ℤ} (hallowed : additionalAllowedChar ≠ 35) (isInAttribute : Bool) :
    consumeCharRef consumeNamedRef iter₁ additionalAllowedChar isInAttribute =
      if refDigits text = [] then
        some (false, (none, none), { utf8iteratorMark iter₁ with
          parser := (addErrorAtMark (readChar (moved (utf8iteratorMark iter₁) (refWidth text)))
            .numericCharRefNoDigits none).parser })
      else if 2 ^ 31 ≤ refValue text then none
      else some (refEnds text && decide (RefValid (refValue text)),
        (some (refChar (refValue text)), none),
        behindRef (refValue text) (refEnds text)
          (moved (utf8iteratorMark iter₁) (refWidth text + (refDigits text).length))) := by
  have hampersand : Printable 38 := by decide
  have hnext : utf8iteratorNext (utf8iteratorMark iter₁) =
      readChar (moved (utf8iteratorMark iter₁) 1) :=
    (hsettled.call .mark).skip (List.cons_ne_nil 38 [])
      (List.forall_mem_singleton.mpr hampersand) ⟨35 :: text, hdrop.symm⟩
  have hsharp : (moved (utf8iteratorMark iter₁) 1).source.drop
      (moved (utf8iteratorMark iter₁) 1).start = 35 :: text := drop_moved hdrop 1
  have hcurrent : (readChar (moved (utf8iteratorMark iter₁) 1)).current = 35 :=
    (current_eq_iff (b := 35) (by decide)).mpr (by rw [hsharp]; rfl)
  have hwidth : 1 + (refWidth text - 1) = refWidth text := by
    rw [refWidth]
    split_ifs <;> rfl
  have hother : ¬((35 : ℤ) = additionalAllowedChar ∨
      (35 : ℤ) ∈ ([9, 10, 12, 32, 60, 38, -1] : List ℤ)) := by
    rw [not_or]
    exact ⟨hallowed.symm, by decide⟩
  simp only [consumeCharRef, hnext, hcurrent]
  rw [if_neg hother, if_pos True.intro, consumeNumericRef_eq hsharp, moved_moved, moved_moved,
    ← Nat.add_assoc, hwidth]
  split_ifs with hdigits hlarge
  · have hmark : pageAndMark (addErrorAtMark (readChar (moved (utf8iteratorMark iter₁)
        (refWidth text))) .numericCharRefNoDigits none) = pageAndMark (utf8iteratorMark iter₁) :=
      pageAndMark_readChar _
    rw [Option.map_some, hsettled.reset_printable hampersand hdrop hmark]
  · rfl
  · rfl

/-- **Numeric references.** Wherever calls have brought the iterator, in front of
`&#` it reads the numeral, in base sixteen behind an `x`, and the semicolon. The
character it gives is that of the numeral, or what stands for it; the reference is
good exactly if the semicolon is there and the value needs no replacement. Without
a digit it comes back to the ampersand, with the error reported there. -/
theorem consumeCharRef_numeric (consumeNamedRef : Utf8Iterator → Bool → CharRefResult)
    (parser : GumboParser) (source : List UInt8) (iter : Utf8Iterator) (calls : List Call)
    {iter₁ : Utf8Iterator} (hcalls : iter₁ = runCalls calls (utf8iteratorInit parser source iter))
    {text : List UInt8} (hdrop : iter₁.source.drop iter₁.start = 38 :: 35 :: text)
    {additionalAllowedChar : ℤ} (hallowed : additionalAllowedChar ≠ 35) (isInAttribute : Bool) :
    consumeCharRef consumeNamedRef iter₁ additionalAllowedChar isInAttribute =
      if refDigits text = [] then
        some (false, (none, none), { utf8iteratorMark iter₁ with
          parser := (addErrorAtMark (readChar (moved (utf8iteratorMark iter₁) (refWidth text)))
            .numericCharRefNoDigits none).parser })
      else if 2 ^ 31 ≤ refValue text then none
      else some (refEnds text && decide (RefValid (refValue text)),
        (some (refChar (refValue text)), none),
        behindRef (refValue text) (refEnds text)
          (moved (utf8iteratorMark iter₁) (refWidth text + (refDigits text).length))) :=
  (hcalls ▸ Settled.runCalls (readChar_settled _) calls).numericRef consumeNamedRef hdrop hallowed
    isInAttribute

/-- A numeral in base sixteen without its semicolon. -/
theorem consumeCharRef_numeric_unended :
    (consumeCharRef (fun _ _ => none) (utf8iteratorInit defaultParser (bytes "&#x41 b") default)
      (-1) false).map (fun r => (r.1, r.2.1, r.2.2.start)) =
        some (false, (some 0x41, none), 5) := by
  generalize hopened : utf8iteratorInit defaultParser (bytes "&#x41 b") default = opened
  have hdrop : opened.source.drop opened.start = 38 :: 35 :: bytes "x41 b" := by
    rw [← hopened]
    decide +kernel
  rw [consumeCharRef_numeric _ defaultParser (bytes "&#x41 b") default [] hopened.symm hdrop
    (by decide) false, ← hopened]
  decide +kernel

/-! ### Writing references -/

def digitByte (d : ℕ) : UInt8 := UInt8.ofNat (if d < 10 then 48 + d else 87 + d)

def numeralOf (isHex : Bool) (v : ℕ) : List UInt8 :=
  (Nat.digits (baseOf isHex) v).reverse.map digitByte

/-- A reference to a value, in front of a text. -/
def writtenRef (isHex : Bool) (v : ℕ) (rest : List UInt8) : List UInt8 :=
  38 :: 35 :: ((if isHex then [120] else []) ++ numeralOf isHex v ++ 59 :: rest)

theorem parseDigit_digitByte {isHex : Bool} {d : ℕ} (hd : d < baseOf isHex) :
    parseDigit (digitByte d).toNat isHex = some d := by
  have htable : ∀ isHex, ∀ d < baseOf isHex, parseDigit (digitByte d).toNat isHex = some d := by
    decide
  exact htable isHex d hd

theorem one_lt_baseOf (isHex : Bool) : 1 < baseOf isHex := by cases isHex <;> decide

theorem isSome_parseDigit_of_mem {isHex : Bool} {v : ℕ} {b : UInt8} (hb : b ∈ numeralOf isHex v) :
    (parseDigit b.toNat isHex).isSome := by
  rw [numeralOf, List.mem_map] at hb
  obtain ⟨d, hd, rfl⟩ := hb
  have hlt := Nat.digits_lt_base (one_lt_baseOf isHex) (List.mem_reverse.mp hd)
  rw [parseDigit_digitByte hlt]
  rfl

theorem digitsOf_numeralOf (isHex : Bool) (v : ℕ) (rest : List UInt8) :
    digitsOf isHex (numeralOf isHex v ++ 59 :: rest) = numeralOf isHex v := by
  have hend : (parseDigit ((59 : UInt8).toNat : ℤ) isHex).isSome = false := by
    cases isHex <;> decide
  rw [digitsOf, List.takeWhile_append_of_pos fun b hb => isSome_parseDigit_of_mem hb,
    List.takeWhile_cons_of_neg (by rw [hend]; exact Bool.false_ne_true), List.append_nil]

theorem numeral_map_digitByte {isHex : Bool} {ds : List ℕ} (hds : ∀ d ∈ ds, d < baseOf isHex) :
    numeral isHex 0 (ds.reverse.map digitByte) = Nat.ofDigits (baseOf isHex) ds := by
  induction ds with
  | nil => rfl
  | cons d ds ih =>
      obtain ⟨hd, hds⟩ := List.forall_mem_cons.mp hds
      have hlast : numeral isHex 0 ((d :: ds).reverse.map digitByte) =
          numeral isHex (numeral isHex 0 (ds.reverse.map digitByte)) [digitByte d] := by
        rw [List.reverse_cons, List.map_append, numeral, List.foldl_append]
        rfl
      rw [hlast, ih hds, numeral_cons (parseDigit_digitByte hd), Nat.ofDigits_cons, numeral,
        List.foldl_nil, Nat.mul_comm, Nat.add_comm]

theorem numeral_numeralOf (isHex : Bool) (v : ℕ) : numeral isHex 0 (numeralOf isHex v) = v := by
  have hlt : ∀ d ∈ Nat.digits (baseOf isHex) v, d < baseOf isHex :=
    fun _ hd => Nat.digits_lt_base (one_lt_baseOf isHex) hd
  rw [numeralOf, numeral_map_digitByte hlt, Nat.ofDigits_digits]

theorem numeralOf_ne_nil (isHex : Bool) {v : ℕ} (hv : v ≠ 0) : numeralOf isHex v ≠ [] := by
  rwa [numeralOf, ne_eq, List.map_eq_nil_iff, List.reverse_eq_nil_iff,
    Nat.digits_eq_nil_iff_eq_zero]

theorem isHexRef_writtenRef {isHex : Bool} {v : ℕ} (hv : v ≠ 0) (rest : List UInt8) :
    isHexRef ((if isHex then [120] else []) ++ numeralOf isHex v ++ rest) = isHex := by
  cases isHex with
  | true => rfl
  | false =>
      obtain ⟨b, digits, hcons⟩ := List.exists_cons_of_ne_nil (numeralOf_ne_nil false hv)
      have hdigit := isSome_parseDigit_of_mem (hcons ▸ List.mem_cons_self)
      rw [if_neg Bool.false_ne_true, List.nil_append, hcons, isHexRef]
      simp only [List.cons_append, List.head?_cons, Option.some.injEq, decide_eq_false_iff_not]
      rintro (rfl | rfl)
      all_goals exact absurd hdigit (by decide)

theorem RefValid.refChar {v : ℕ} (h : RefValid v) : refChar v = v := by
  rw [Gumbo.refChar, h.1, Option.getD_none, if_neg h.2.1]

theorem RefValid.pos_lt {v : ℕ} (h : RefValid v) : v ≠ 0 ∧ v < 2 ^ 31 := by
  obtain ⟨hreplace, hrange, -⟩ := h
  rw [OutOfRange] at hrange
  refine ⟨?_, by omega⟩
  rintro rfl
  exact absurd hreplace (by decide)

/-- **Written references** are read back, in either base, by a good reference
that reports nothing. -/
theorem consumeCharRef_writtenRef (consumeNamedRef : Utf8Iterator → Bool → CharRefResult)
    (parser : GumboParser) (source : List UInt8) (iter : Utf8Iterator) (calls : List Call)
    {iter₁ : Utf8Iterator} (hcalls : iter₁ = runCalls calls (utf8iteratorInit parser source iter))
    (isHex : Bool) {v : ℕ} (hv : RefValid v) {rest : List UInt8}
    (hdrop : iter₁.source.drop iter₁.start = writtenRef isHex v rest)
    {additionalAllowedChar : ℤ} (hallowed : additionalAllowedChar ≠ 35) (isInAttribute : Bool) :
    consumeCharRef consumeNamedRef iter₁ additionalAllowedChar isInAttribute =
      some (true, (some v, none),
        readChar (moved (utf8iteratorMark iter₁) (writtenRef isHex v []).length)) := by
  obtain ⟨hpos, hlarge⟩ := hv.pos_lt
  have hsettled : Settled iter₁ := hcalls ▸ Settled.runCalls (readChar_settled _) calls
  generalize htext : (if isHex then [120] else []) ++ numeralOf isHex v ++ 59 :: rest = text
  rw [writtenRef, htext] at hdrop
  have hhex : isHexRef text = isHex := htext ▸ isHexRef_writtenRef hpos (59 :: rest)
  have hbody : (if isHex then text.tail else text) = numeralOf isHex v ++ 59 :: rest := by
    rw [← htext]
    cases isHex <;> rfl
  have hdigits : refDigits text = numeralOf isHex v := by
    rw [refDigits, hhex, hbody, digitsOf_numeralOf]
  have hvalue : refValue text = v := by rw [refValue, hhex, hdigits, numeral_numeralOf]
  have hends : refEnds text = true := by
    have hbehind : text.drop (refWidth text - 2 + (numeralOf isHex v).length) = 59 :: rest := by
      rw [← List.drop_drop, refWidth, hhex, ← htext]
      cases isHex <;> simp
    rw [refEnds, hdigits, hbehind]
    rfl
  have hlength :
      refWidth text + (numeralOf isHex v).length + 1 = (writtenRef isHex v []).length := by
    rw [refWidth, hhex, writtenRef]
    cases isHex <;> simp <;> omega
  rw [hsettled.numericRef consumeNamedRef hdrop hallowed isInAttribute, hdigits, hvalue, hends,
    if_neg (numeralOf_ne_nil isHex hpos), if_neg (by omega), hv.refChar, behindRef, if_pos hv,
    if_pos rfl, moved_moved, hlength, decide_eq_true hv]
  rfl

/-- The sign of the euro, in base sixteen. -/
theorem consumeCharRef_writtenRef_euro :
    (consumeCharRef (fun _ _ => none) (utf8iteratorInit defaultParser (bytes "&#x20ac;!") default)
      (-1) false).map (fun r => (r.1, r.2.1, r.2.2.start)) =
        some (true, (some 0x20AC, none), 8) := by
  generalize hopened : utf8iteratorInit defaultParser (bytes "&#x20ac;!") default = opened
  have hdrop : opened.source.drop opened.start = writtenRef true 0x20AC (bytes "!") := by
    rw [← hopened]
    decide +kernel
  rw [consumeCharRef_writtenRef _ defaultParser (bytes "&#x20ac;!") default [] hopened.symm true
    (by decide +kernel) hdrop (by decide) false, ← hopened]
  decide +kernel

end HtmlBenchmark.Gumbo
