import HtmlBenchmark.Library.Blanks
import HtmlBenchmark.StreamParser.Parser

/-!
What the trimming helpers leave in a buffer.

They work in place on a pointer and a length. Read as lists, the two trims drop
the blanks at the ends, and `html_parser_replace_spaces` writes the collapsed
text over the text it is called on. In particular nothing the driver sees of a
buffer depends on the bytes beyond the length it passes.
-/

namespace HtmlBenchmark.StreamParser

open Library

/-! ### The trims -/

theorem htmlParserLtrim_eq (b : Buf) (src len : ℕ) :
    htmlParserLtrim b src len =
      (src + leading ishtmlspace (readAt b src len),
        len - leading ishtmlspace (readAt b src len)) := by
  induction len generalizing src with
  | zero => rfl
  | succ len ih =>
      rw [htmlParserLtrim, readAt, leading, List.takeWhile_cons]
      split_ifs
      · rw [ih, leading, List.length_cons]
        exact Prod.ext (by simp only; omega) (by simp only; omega)
      · rfl

theorem leading_le (b : Buf) (src len : ℕ) : leading ishtmlspace (readAt b src len) ≤ len := by
  have h := (List.takeWhile_sublist ishtmlspace (l := readAt b src len)).length_le
  rwa [length_readAt] at h

theorem readAt_ltrim (b : Buf) (src len : ℕ) :
    readAt b (src + leading ishtmlspace (readAt b src len))
        (len - leading ishtmlspace (readAt b src len)) =
      (readAt b src len).dropWhile ishtmlspace := by
  induction len generalizing src with
  | zero => rfl
  | succ len ih =>
      rw [readAt, leading, List.takeWhile_cons, List.dropWhile_cons]
      split_ifs
      · rw [← ih (src + 1), leading, List.length_cons]
        congr 1 <;> omega
      · rfl

theorem readAt_rtrim (b : Buf) (src len : ℕ) :
    readAt b src (htmlParserRtrim b src len) = (readAt b src len).rdropWhile ishtmlspace := by
  induction len with
  | zero => rfl
  | succ len ih =>
      rw [readAt_succ, List.rdropWhile_concat, htmlParserRtrim]
      split_ifs
      · exact ih
      · rw [readAt_succ]

theorem htmlParserRtrim_le (b : Buf) (src len : ℕ) : htmlParserRtrim b src len ≤ len := by
  induction len with
  | zero => exact Nat.le_refl _
  | succ len ih =>
      rw [htmlParserRtrim]
      split_ifs
      · omega
      · exact Nat.le_refl _

/-! ### Collapsing in place -/

/-- `b'` is `b` with the bytes `t` written at `dst`. -/
structure Wrote (b : Buf) (dst : ℕ) (t : List UInt8) (b' : Buf) : Prop where
  text : readAt b' dst t.length = t
  rest : ∀ j, j < dst ∨ dst + t.length ≤ j → b' j = b j

theorem Wrote.nil (b : Buf) (dst : ℕ) : Wrote b dst [] b := ⟨rfl, fun _ _ => rfl⟩

theorem Wrote.cons {b b' : Buf} {dst : ℕ} {v : UInt8} {t : List UInt8}
    (h : Wrote (Function.update b dst v) (dst + 1) t b') : Wrote b dst (v :: t) b' where
  text := by
    rw [List.length_cons, readAt, h.text, h.rest dst (by omega), Function.update_self]
  rest j hj := by
    rw [List.length_cons] at hj
    rw [h.rest j (by omega), Function.update_of_ne (by omega)]

/-- What the loop writes is the collapsed rest of the text. The bytes still to
be read are safe because `l` never overtakes `i`. -/
theorem replaceSpacesLoop_spec (src n i l : ℕ) (ws : Bool) (b : Buf) (hl : l ≤ i) :
    Wrote b (src + l) (collapse ishtmlspace 32 ws (readAt b (src + i) n))
        (replaceSpacesLoop src n i l ws b).1 ∧
      (replaceSpacesLoop src n i l ws b).2 =
        l + (collapse ishtmlspace 32 ws (readAt b (src + i) n)).length := by
  induction n generalizing i l ws b with
  | zero => exact ⟨.nil b _, rfl⟩
  | succ n ih =>
      have hread : ∀ v, readAt (Function.update b (src + l) v) (src + (i + 1)) n =
          readAt b (src + i + 1) n := fun v =>
        readAt_congr fun j hj _ => Function.update_of_ne (by omega) _ _
      simp only [replaceSpacesLoop, readAt, collapse]
      cases hc : ishtmlspace (b (src + i)) with
      | false =>
          obtain ⟨hwrote, hlen⟩ := ih (i + 1) (l + 1) true
            (Function.update b (src + l) (b (src + i))) (by omega)
          rw [hread] at hwrote hlen
          exact ⟨hwrote.cons, by simp [hlen, Nat.add_assoc, Nat.add_comm 1]⟩
      | true =>
          cases ws with
          | true =>
              obtain ⟨hwrote, hlen⟩ := ih (i + 1) (l + 1) false
                (Function.update b (src + l) 32) (by omega)
              rw [hread] at hwrote hlen
              exact ⟨hwrote.cons, by simp [hlen, Nat.add_assoc, Nat.add_comm 1]⟩
          | false => exact ih (i + 1) l false b (by omega)

/-! ### Both together -/

/-- The text of `len` bytes with its blanks trimmed and collapsed. -/
def normalizeText (t : List UInt8) : List UInt8 := normalizeBlanks ishtmlspace 32 t

/-- The text of `len` bytes as `html_parser_replace_spaces` leaves it. -/
def compactText (t : List UInt8) : List UInt8 := overwrite ishtmlspace t (normalizeText t)

/-- **The trimming helpers.** The pointer leads to the first byte that is not
blank, the bytes at it are the normalized text, and no other byte of the
buffer has changed. -/
theorem trimSpaces_spec (b : Buf) (len : ℕ) :
    (trimSpaces b len).2.1 = leading ishtmlspace (readAt b 0 len) ∧
      (trimSpaces b len).2.2 = (normalizeText (readAt b 0 len)).length ∧
      Wrote b (leading ishtmlspace (readAt b 0 len)) (normalizeText (readAt b 0 len))
        (trimSpaces b len).1 := by
  have hle := leading_le b 0 len
  have hltrim := readAt_ltrim b 0 len
  rw [Nat.zero_add] at hltrim
  simp only [trimSpaces, htmlParserTrim, htmlParserReplaceSpaces, htmlParserLtrim_eq, Nat.zero_add]
  generalize leading ishtmlspace (readAt b 0 len) = src at hle hltrim ⊢
  have htext : readAt b (src + 0) (htmlParserRtrim b src (len - src)) =
      trim ishtmlspace (readAt b 0 len) := by
    rw [Nat.add_zero, readAt_rtrim, hltrim, trim]
  have hloop := replaceSpacesLoop_spec src (htmlParserRtrim b src (len - src)) 0 0 true b le_rfl
  rw [htext] at hloop
  exact ⟨trivial, by simpa [normalizeText, normalizeBlanks] using hloop.2, hloop.1⟩

theorem length_normalizeText_le (t : List UInt8) :
    leading ishtmlspace t + (normalizeText t).length ≤ t.length := by
  obtain ⟨b, hb, -⟩ := exists_trim_around (p := ishtmlspace) t
  have hlen := congrArg List.length hb
  have hle : (normalizeText t).length ≤ (trim ishtmlspace t).length := length_normalize_le t
  simp only [List.length_append] at hlen
  simp only [leading]
  omega

theorem readAt_trimSpaces (b : Buf) (len : ℕ) :
    readAt (trimSpaces b len).1 0 len = compactText (readAt b 0 len) := by
  obtain ⟨-, -, hwrote⟩ := trimSpaces_spec b len
  have hle := length_normalizeText_le (readAt b 0 len)
  rw [length_readAt] at hle
  rw [compactText, overwrite]
  generalize normalizeText (readAt b 0 len) = c at hwrote hle ⊢
  obtain ⟨n, hn⟩ := Nat.exists_eq_add_of_le hle
  have hsplit : ∀ b' : Buf, readAt b' 0 len =
      readAt b' 0 (leading ishtmlspace (readAt b 0 len)) ++
        readAt b' (leading ishtmlspace (readAt b 0 len)) c.length ++
        readAt b' (leading ishtmlspace (readAt b 0 len) + c.length) n := by
    intro b'
    conv_lhs => rw [hn, readAt_add, readAt_add]
    simp
  have hfront : readAt b 0 (leading ishtmlspace (readAt b 0 len)) =
      (readAt b 0 len).takeWhile ishtmlspace := by
    have hprefix := List.takeWhile_prefix ishtmlspace (l := readAt b 0 len)
    exact (take_readAt (by omega)).symm.trans (List.prefix_iff_eq_take.mp hprefix).symm
  have hback := drop_readAt b 0 (leading ishtmlspace (readAt b 0 len) + c.length) n
  rw [← hn, Nat.zero_add] at hback
  rw [hsplit, hwrote.text, ← hfront, hback]
  congr 1
  · congr 1
    exact readAt_congr fun j _ hj => hwrote.rest j (.inl (by omega))
  · exact readAt_congr fun j hj _ => hwrote.rest j (.inr (by omega))

/-! ### The text in a buffer of the parser -/

def TextBuf.text (b : TextBuf) : List UInt8 := readAt b.data 0 b.len

@[simp] theorem TextBuf.length_text (b : TextBuf) : b.text.length = b.len := length_readAt ..

theorem TextBuf.text_put (b : TextBuf) (c : UInt8) :
    (b.put c).text = (b.text ++ [c]).take (max b.len b.maxLen) := by
  simp only [TextBuf.put]
  split_ifs with h
  · rw [List.take_of_length_le (by simp; omega)]
    simp only [text]
    rw [readAt_succ, Nat.zero_add, Function.update_self]
    congr 1
    exact readAt_congr fun i _ hi => Function.update_of_ne (by omega) _ _
  · rw [Nat.max_eq_left (by omega), List.take_append_of_le_length (by simp),
      List.take_of_length_le (by simp)]
    rfl

theorem readAt_update (b : Buf) (i : ℕ) (v : UInt8) (n : ℕ) :
    readAt (Function.update b i v) 0 n = (readAt b 0 n).set i v := by
  apply List.ext_getElem (by simp)
  intro j hj _
  rw [getElem_readAt, List.getElem_set, Nat.zero_add]
  split_ifs with hij
  · rw [hij, Function.update_self]
  · rw [Function.update_of_ne (by omega), getElem_readAt, Nat.zero_add]

/-! ### Buffers that cannot be told apart -/

/-- Where two buffers agree below the length, the helpers give the same pointer
and length, and the buffers still agree wherever they did. -/
theorem trimSpaces_congr {b b' : Buf} {len : ℕ} (h : ∀ i < len, b i = b' i) :
    (trimSpaces b len).2 = (trimSpaces b' len).2 ∧
      ∀ i, b i = b' i → (trimSpaces b len).1 i = (trimSpaces b' len).1 i := by
  obtain ⟨hsrc, hlen, hwrote⟩ := trimSpaces_spec b len
  obtain ⟨hsrc', hlen', hwrote'⟩ := trimSpaces_spec b' len
  have hread : readAt b' 0 len = readAt b 0 len :=
    readAt_congr fun i _ hi => (h i (by omega)).symm
  rw [hread] at hsrc' hlen' hwrote'
  refine ⟨Prod.ext (hsrc.trans hsrc'.symm) (hlen.trans hlen'.symm), fun i hi => ?_⟩
  -- Inside the text written both hold the same byte of it, outside both are untouched.
  generalize leading ishtmlspace (readAt b 0 len) = src at hwrote hwrote'
  generalize normalizeText (readAt b 0 len) = t at hwrote hwrote'
  by_cases hin : src ≤ i ∧ i < src + t.length
  · obtain ⟨k, rfl⟩ := Nat.exists_eq_add_of_le hin.1
    have hk : k < (readAt (trimSpaces b len).1 src t.length).length := by
      rw [length_readAt]
      omega
    have hk' : k < (readAt (trimSpaces b' len).1 src t.length).length := by
      rw [length_readAt]
      omega
    rw [← getElem_readAt hk, ← getElem_readAt hk']
    simp only [hwrote.text, hwrote'.text]
  · rw [hwrote.rest i (by omega), hwrote'.rest i (by omega), hi]

end HtmlBenchmark.StreamParser
