import HtmlBenchmark.Library.Stores
import HtmlBenchmark.StreamParser.Blanks
import HtmlBenchmark.StreamParser.Store

/-!
Where the parser and its helpers access the buffers.

The stores of a call are listed in order. Performed on the buffers before the
call they give the buffers after it, so the list leaves nothing out, and its
addresses are those of the source. A helper stores only below the length it is
called with.

A text begins in its buffer with a byte that sets the length back, and from there
on every byte of it is one the parser stores.

Of the two trims the reads are listed too. Each of them looks at a byte before
it asks whether there is one, so the last byte `html_parser_ltrim` looks at can
be the one behind the text, and `html_parser_rtrim` can look in front of it.
-/

namespace HtmlBenchmark.StreamParser

open Library

/-- The buffers a parser has been given. -/
inductive Buffer
  | tagName | attrName | attrValue | innerText
  deriving DecidableEq, Repr

/-- The bytes of the four buffers. -/
def HtmlStreamParser.memory (hsp : HtmlStreamParser) : Buffer × ℕ → UInt8
  | (.tagName, i) => hsp.tagName.data i
  | (.attrName, i) => hsp.attrName.data i
  | (.attrValue, i) => hsp.attrValue.data i
  | (.innerText, i) => hsp.innerText.data i

/-! ### One byte -/

/-- The store of `TextBuf.put`, if there is room. -/
def TextBuf.putStores (b : TextBuf) (c : UInt8) : List (ℕ × UInt8) :=
  if b.len < b.maxLen then [(b.len, c)] else []

/-- The stores of `html_parser_char_parse`. -/
def charParseStores (hsp : HtmlStreamParser) (c : UInt8) : List ((Buffer × ℕ) × UInt8) :=
  let s := htmlParserControl hsp.toControl c
  if s.htmlPart.innerText then
    inRegion .innerText ((hsp.innerText.clearIf s.htmlPart.innerTextBeginning).putStores c)
  else if s.inName then
    inRegion .tagName ((hsp.tagName.clearIf s.startsName).putStores
      (if hsp.tagNameToLower then tolower c else c))
  else if s.htmlPart.attr then
    inRegion .attrName ((hsp.attrName.clearIf s.htmlPart.attrBeginning).putStores
      (if hsp.attrNameToLower then tolower c else c))
  else if s.htmlPart.value then
    inRegion .attrValue ((hsp.attrValue.clearIf s.htmlPart.valueBeginning).putStores
      (if hsp.attrValToLower then tolower c else c))
  else []

theorem TextBuf.put_data (b : TextBuf) (c : UInt8) :
    (b.put c).data = storeAll b.data (b.putStores c) := by
  simp only [put, putStores]
  split_ifs <;> rfl

/-- Stores to one buffer, seen from each of the four. -/
theorem storeAll_inRegion (m : Buffer × ℕ → UInt8) (r : Buffer) (stores : List (ℕ × UInt8))
    (a : Buffer × ℕ) : storeAll m (inRegion r stores) a =
      if a.1 = r then storeAll (fun i => m (r, i)) stores a.2 else m a := by
  obtain ⟨r', i⟩ := a
  split_ifs with h
  · obtain rfl : r' = r := h
    exact storeAll_inRegion_self m r' stores i
  · exact storeAll_inRegion_of_ne (Ne.symm h) m stores i

/-- **One byte.** The stores account for what a call leaves in the buffers. -/
theorem memory_charParse (hsp : HtmlStreamParser) (c : UInt8) :
    (htmlParserCharParse hsp c).memory = storeAll hsp.memory (charParseStores hsp c) := by
  funext ⟨r, i⟩
  rw [charParseStores]
  -- each branch stores to one buffer, which is seen from all four
  split_ifs <;> cases r <;>
    simp_all [HtmlStreamParser.memory, charParse_innerText, charParse_tagName, charParse_attrName,
      charParse_attrValue, TextBuf.put_data, storeAll_inRegion]

/-! ### What a text is made of -/

def HtmlStreamParser.textBuf (hsp : HtmlStreamParser) : Buffer → TextBuf
  | .tagName => hsp.tagName
  | .attrName => hsp.attrName
  | .attrValue => hsp.attrValue
  | .innerText => hsp.innerText

section TextBuf

variable (hsp : HtmlStreamParser)

@[simp] theorem textBuf_tagName : hsp.textBuf .tagName = hsp.tagName := rfl
@[simp] theorem textBuf_attrName : hsp.textBuf .attrName = hsp.attrName := rfl
@[simp] theorem textBuf_attrValue : hsp.textBuf .attrValue = hsp.attrValue := rfl
@[simp] theorem textBuf_innerText : hsp.textBuf .innerText = hsp.innerText := rfl

end TextBuf

def goesTo (hsp : HtmlStreamParser) (c : UInt8) : Option Buffer :=
  let s := htmlParserControl hsp.toControl c
  if s.htmlPart.innerText then some .innerText
  else if s.inName then some .tagName
  else if s.htmlPart.attr then some .attrName
  else if s.htmlPart.value then some .attrValue
  else none

/-- Whether a byte begins a text in a buffer: the length there goes back to 0. -/
def begins (hsp : HtmlStreamParser) (c : UInt8) (r : Buffer) : Bool :=
  let s := htmlParserControl hsp.toControl c
  match goesTo hsp c with
  | none => false
  | some .innerText => r = .innerText && s.htmlPart.innerTextBeginning
  -- a name begins a tag, an attribute its value
  | some .tagName => r ≠ .innerText && s.startsName
  | some .attrName => (r = .attrName || r = .attrValue) && s.htmlPart.attrBeginning
  | some .attrValue => r = .attrValue && s.htmlPart.valueBeginning

def keptAs (hsp : HtmlStreamParser) (c : UInt8) : Buffer → UInt8
  | .tagName => if hsp.tagNameToLower then tolower c else c
  | .attrName => if hsp.attrNameToLower then tolower c else c
  | .attrValue => if hsp.attrValToLower then tolower c else c
  | .innerText => c

/-- The offsets stored to since the text in a buffer began, one byte later. -/
def written (hsp : HtmlStreamParser) (c : UInt8) (r : Buffer) (since : List ℕ) : List ℕ :=
  (if begins hsp c r then [] else since) ++ offsetsIn r (charParseStores hsp c)

section Written

variable {since : List ℕ}

theorem TextBuf.written_clearIf {b : TextBuf} (h : ∀ i < b.len, i ∈ since) (fresh : Bool) :
    ∀ i < (b.clearIf fresh).len, i ∈ if fresh then [] else since := by
  cases fresh with
  | false => exact h
  | true => exact fun i hi => absurd hi (Nat.not_lt_zero i)

theorem TextBuf.written_put {b : TextBuf} (h : ∀ i < b.len, i ∈ since) (c : UInt8) :
    ∀ i < (b.put c).len, i ∈ since ++ (b.putStores c).map Prod.fst := by
  intro i hi
  rw [put] at hi
  rw [putStores, List.mem_append]
  split_ifs at hi ⊢
  · rcases Nat.lt_succ_iff_lt_or_eq.mp hi with hi | rfl
    · exact .inl (h i hi)
    · exact .inr (List.mem_singleton_self _)
  · exact .inl (h i hi)

/-- One byte, seen from one text: the text may begin, and then it may grow. -/
theorem charParse_textBuf (hsp : HtmlStreamParser) (c : UInt8) (r : Buffer) :
    (htmlParserCharParse hsp c).textBuf r =
      let b := (hsp.textBuf r).clearIf (begins hsp c r)
      if goesTo hsp c = some r then b.put (keptAs hsp c r) else b := by
  simp only [begins, goesTo]
  split_ifs <;> cases r <;>
    simp_all [charParse_innerText, charParse_tagName, charParse_attrName, charParse_attrValue,
      keptAs]

theorem offsetsIn_charParseStores (hsp : HtmlStreamParser) (c : UInt8) (r : Buffer) :
    offsetsIn r (charParseStores hsp c) =
      if goesTo hsp c = some r then
        (((hsp.textBuf r).clearIf (begins hsp c r)).putStores (keptAs hsp c r)).map Prod.fst
      else [] := by
  simp only [begins, goesTo, charParseStores]
  split_ifs <;> cases r <;> simp_all [offsetsIn_inRegion_of_ne, keptAs]

/-- The bytes of a text are bytes stored since it began. -/
theorem mem_written {hsp : HtmlStreamParser} {r : Buffer}
    (h : ∀ i < (hsp.textBuf r).len, i ∈ since) (c : UInt8) :
    ∀ i < ((htmlParserCharParse hsp c).textBuf r).len, i ∈ written hsp c r since := by
  have hclear := TextBuf.written_clearIf h (begins hsp c r)
  rw [charParse_textBuf, written, offsetsIn_charParseStores]
  by_cases hgoes : goesTo hsp c = some r
  · simp only [if_pos hgoes]
    exact TextBuf.written_put hclear _
  · simp only [if_neg hgoes, List.append_nil]
    exact hclear

end Written

/-! ### Collapsing in place -/

/-- The stores of the loop of `html_parser_replace_spaces`. -/
def replaceSpacesStores (src : ℕ) : ℕ → ℕ → ℕ → Bool → Buf → List (ℕ × UInt8)
  | 0, _, _, _, _ => []
  | n + 1, i, l, ws, b =>
      if !ishtmlspace (b (src + i)) then
        (src + l, b (src + i)) ::
          replaceSpacesStores src n (i + 1) (l + 1) true
            (Function.update b (src + l) (b (src + i)))
      else if ws then
        (src + l, 32) ::
          replaceSpacesStores src n (i + 1) (l + 1) false (Function.update b (src + l) 32)
      else replaceSpacesStores src n (i + 1) l ws b

theorem replaceSpacesLoop_stores (src n i l : ℕ) (ws : Bool) (b : Buf) :
    (replaceSpacesLoop src n i l ws b).1 = storeAll b (replaceSpacesStores src n i l ws b) := by
  induction n generalizing i l ws b with
  | zero => rfl
  | succ n ih =>
      rw [replaceSpacesLoop, replaceSpacesStores]
      split_ifs
      · rw [ih, storeAll_cons]
      · rw [ih, storeAll_cons]
      · rw [ih]

theorem replaceSpacesStores_lt (src n i l : ℕ) (ws : Bool) (b : Buf) :
    ∀ s ∈ replaceSpacesStores src n i l ws b, s.1 < src + l + n := by
  induction n generalizing i l ws b with
  | zero => exact fun s hs => absurd hs List.not_mem_nil
  | succ n ih =>
      intro s hs
      rw [replaceSpacesStores] at hs
      split_ifs at hs
      · rcases List.mem_cons.mp hs with rfl | hs
        · simp only
          omega
        · have := ih _ _ _ _ s hs
          omega
      · rcases List.mem_cons.mp hs with rfl | hs
        · simp only
          omega
        · have := ih _ _ _ _ s hs
          omega
      · have := ih _ _ _ _ s hs
        omega

/-- The stores of `html_parser_replace_spaces(html_parser_trim(b, &len), &len)`. -/
def trimSpacesStores (b : Buf) (len : ℕ) : List (ℕ × UInt8) :=
  let (src, len) := htmlParserTrim b 0 len
  replaceSpacesStores src len 0 0 true b

theorem trimSpaces_stores (b : Buf) (len : ℕ) :
    (trimSpaces b len).1 = storeAll b (trimSpacesStores b len) :=
  replaceSpacesLoop_stores _ _ _ _ _ _

theorem htmlParserTrim_le (b : Buf) (len : ℕ) :
    (htmlParserTrim b 0 len).1 + (htmlParserTrim b 0 len).2 ≤ len := by
  have hle := leading_le b 0 len
  simp only [htmlParserTrim, htmlParserLtrim_eq, Nat.zero_add]
  have := htmlParserRtrim_le b (leading ishtmlspace (readAt b 0 len))
    (len - leading ishtmlspace (readAt b 0 len))
  omega

theorem trimSpacesStores_lt (b : Buf) (len : ℕ) : ∀ s ∈ trimSpacesStores b len, s.1 < len := by
  intro s hs
  have hlt : s.1 < (htmlParserTrim b 0 len).1 + 0 + (htmlParserTrim b 0 len).2 :=
    replaceSpacesStores_lt _ _ _ _ _ _ s hs
  have := htmlParserTrim_le b len
  omega

/-- The pointer returned and the length behind it are inside the text. -/
theorem trimSpaces_le (b : Buf) (len : ℕ) :
    (trimSpaces b len).2.1 + (trimSpaces b len).2.2 ≤ len := by
  obtain ⟨hsrc, hlen, -⟩ := trimSpaces_spec b len
  have := length_normalizeText_le (readAt b 0 len)
  rw [length_readAt] at this
  omega

/-! ### The reads of the trims -/

/-- The offsets of the bytes `html_parser_ltrim` looks at. -/
def ltrimReads (b : Buf) : ℕ → ℕ → List ℕ
  | src, 0 => [src]
  | src, len + 1 => src :: if ishtmlspace (b src) then ltrimReads b (src + 1) len else []

/-- The values of `*len` for which `html_parser_rtrim` looks at `src[(*len)-1]`. -/
def rtrimTests (b : Buf) (src : ℕ) : ℕ → List ℕ
  | 0 => [0]
  | len + 1 => (len + 1) :: if ishtmlspace (b (src + len)) then rtrimTests b src len else []

/-- A call of `html_parser_trim` on `len` bytes looks at none but these. -/
structure TrimSound (b : Buf) (len : ℕ) : Prop where
  ltrim : ∀ i ∈ ltrimReads b 0 len, i < len
  rtrim : ∀ l ∈ rtrimTests b (htmlParserLtrim b 0 len).1 (htmlParserLtrim b 0 len).2, 1 ≤ l
  inside : ∀ l ∈ rtrimTests b (htmlParserLtrim b 0 len).1 (htmlParserLtrim b 0 len).2,
    (htmlParserLtrim b 0 len).1 + (l - 1) < len

/-- It looks at the byte it stops at, too. -/
theorem mem_ltrimReads (b : Buf) (src len i : ℕ) :
    i ∈ ltrimReads b src len ↔
      src ≤ i ∧ i ≤ src + leading ishtmlspace (readAt b src len) := by
  induction len generalizing src with
  | zero =>
      rw [ltrimReads, readAt, leading, List.takeWhile_nil, List.length_nil, List.mem_singleton]
      omega
  | succ len ih =>
      rw [ltrimReads, readAt, leading, List.takeWhile_cons, List.mem_cons]
      split_ifs
      · rw [ih, leading, List.length_cons]
        omega
      · rw [List.length_nil]
        simp
        omega

/-- A text that is not blank stops the pointer. -/
theorem htmlParserLtrim_stops (b : Buf) (src len : ℕ) :
    (htmlParserLtrim b src len).2 ≠ 0 → ishtmlspace (b (htmlParserLtrim b src len).1) = false := by
  induction len generalizing src with
  | zero => exact fun h => absurd rfl h
  | succ len ih =>
      rw [htmlParserLtrim]
      split_ifs with hblank
      · exact ih (src + 1)
      · exact fun _ => by simpa using hblank

theorem rtrimTests_le (b : Buf) (src len : ℕ) : ∀ l ∈ rtrimTests b src len, l ≤ len := by
  induction len with
  | zero => simp [rtrimTests]
  | succ len ih =>
      intro l hl
      rw [rtrimTests] at hl
      rcases List.mem_cons.mp hl with rfl | hl
      · exact Nat.le_refl _
      · split_ifs at hl
        · exact (ih l hl).trans (Nat.le_succ _)
        · cases hl

/-- A byte in front that is not blank stops the length. -/
theorem zero_notMem_rtrimTests {b : Buf} {src len : ℕ} (hlen : len ≠ 0)
    (hfirst : ishtmlspace (b src) = false) : 0 ∉ rtrimTests b src len := by
  induction len with
  | zero => exact absurd rfl hlen
  | succ len ih =>
      rw [rtrimTests]
      cases len with
      | zero => simp [hfirst]
      | succ len =>
          split_ifs
          · simpa using ih (Nat.succ_ne_zero len)
          · simp

theorem leading_lt_iff (b : Buf) (src len : ℕ) :
    leading ishtmlspace (readAt b src len) < len ↔
      ∃ i < len, ishtmlspace (b (src + i)) = false := by
  induction len generalizing src with
  | zero => simp
  | succ len ih =>
      rw [readAt, leading, List.takeWhile_cons, Nat.exists_lt_succ_left]
      split_ifs with hblank
      · have hrest := ih (src + 1)
        rw [leading] at hrest
        simp only [Nat.add_zero, List.length_cons, Nat.add_lt_add_iff_right, hrest, hblank,
          Bool.true_eq_false, false_or, Nat.add_assoc, Nat.add_comm 1]
      · rw [Bool.not_eq_true] at hblank
        simp [hblank]

/-- **A trim** looks at nothing but its text exactly when not all of the text is
blank; an empty text is. -/
theorem trimSound_iff (b : Buf) (len : ℕ) :
    TrimSound b len ↔ ∃ i < len, ishtmlspace (b i) = false := by
  have hlead := leading_lt_iff b 0 len
  simp only [Nat.zero_add] at hlead
  rw [← hlead]
  constructor
  · intro h
    refine h.ltrim _ ((mem_ltrimReads b 0 len _).mpr ⟨Nat.zero_le _, ?_⟩)
    rw [Nat.zero_add]
  · intro hlt
    have heq := htmlParserLtrim_eq b 0 len
    rw [Nat.zero_add] at heq
    have hleft : (htmlParserLtrim b 0 len).2 ≠ 0 := by
      rw [heq]
      simp only
      omega
    have hnone := zero_notMem_rtrimTests hleft (htmlParserLtrim_stops b 0 len hleft)
    have hpos : ∀ l ∈ rtrimTests b (htmlParserLtrim b 0 len).1 (htmlParserLtrim b 0 len).2,
        1 ≤ l := fun l hl => Nat.one_le_iff_ne_zero.mpr fun hzero => hnone (hzero ▸ hl)
    refine ⟨fun i hi => ?_, hpos, fun l hl => ?_⟩
    · have := ((mem_ltrimReads b 0 len i).mp hi).2
      omega
    · have hle := rtrimTests_le _ _ _ l hl
      have := hpos l hl
      rw [heq] at hle ⊢
      simp only at hle ⊢
      omega

end HtmlBenchmark.StreamParser
