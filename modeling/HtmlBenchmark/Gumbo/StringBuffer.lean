import HtmlBenchmark.Gumbo.Decoding

/-!
The growing buffer of `gumbo-parser/string_buffer.c`.

A buffer is what has been written to its block, and the size of the block. The
functions also return the sizes they ask the allocator for, since the benchmark
counts these.
-/

namespace HtmlBenchmark.Gumbo

open Library.Utf8

structure GumboStringBuffer where
  data : List UInt8
  capacity : ℕ
  positive : 0 < capacity
  fits : data.length ≤ capacity

/-- At most `n` rounds of the loop that doubles the capacity. -/
def growCapacity (newLength : ℕ) : ℕ → ℕ → ℕ
  | 0, capacity => capacity
  | n + 1, capacity =>
      if capacity < newLength then growCapacity newLength n (capacity * 2) else capacity

/-- The loop ends where the capacity suffices, and it ends before `newLength`
rounds. -/
theorem le_growCapacity {newLength n capacity : ℕ} (h : newLength ≤ capacity * 2 ^ n) :
    newLength ≤ growCapacity newLength n capacity := by
  induction n generalizing capacity with
  | zero => rwa [Nat.pow_zero, Nat.mul_one] at h
  | succ n ih =>
      rw [growCapacity]
      split_ifs with hless
      · exact ih (by rwa [Nat.mul_assoc, ← Nat.pow_succ'])
      · exact Nat.le_of_not_lt hless

/-- Either there was room, or the capacity has at least doubled, and one round
less would not have sufficed. -/
theorem growCapacity_cases (newLength n capacity : ℕ) :
    growCapacity newLength n capacity = capacity ∨
      capacity * 2 ≤ growCapacity newLength n capacity ∧
        growCapacity newLength n capacity < newLength * 2 := by
  induction n generalizing capacity with
  | zero => exact .inl rfl
  | succ n ih =>
      rw [growCapacity]
      split_ifs with hless
      · rcases ih (capacity * 2) with h | h <;> omega
      · exact .inl rfl

theorem capacity_le_growCapacity (newLength n capacity : ℕ) :
    capacity ≤ growCapacity newLength n capacity := by
  rcases growCapacity_cases newLength n capacity with h | h <;> omega

namespace GumboStringBuffer

/-- `maybe_resize_string_buffer` -/
def maybeResize (additionalChars : ℕ) (buffer : GumboStringBuffer) :
    GumboStringBuffer × List ℕ :=
  let newLength := buffer.data.length + additionalChars
  let newCapacity := growCapacity newLength newLength buffer.capacity
  ({ buffer with
      capacity := newCapacity
      positive := Nat.lt_of_lt_of_le buffer.positive (capacity_le_growCapacity _ _ _)
      fits := Nat.le_trans buffer.fits (capacity_le_growCapacity _ _ _) },
    if newCapacity ≠ buffer.capacity then [newCapacity] else [])

theorem le_maybeResize_capacity (additionalChars : ℕ) (buffer : GumboStringBuffer) :
    buffer.data.length + additionalChars ≤ (buffer.maybeResize additionalChars).1.capacity := by
  refine le_growCapacity (Nat.le_trans (Nat.le_of_lt Nat.lt_two_pow_self) ?_)
  exact Nat.le_mul_of_pos_left _ buffer.positive

/-- Stores behind what has been written, in a buffer with room for it. -/
def write (bytes : List UInt8) (buffer : GumboStringBuffer) : GumboStringBuffer × List ℕ :=
  ({ (buffer.maybeResize bytes.length).1 with
      data := buffer.data ++ bytes
      fits := by
        rw [List.length_append]
        exact buffer.le_maybeResize_capacity bytes.length },
    (buffer.maybeResize bytes.length).2)

def init : GumboStringBuffer × List ℕ :=
  ({ data := [], capacity := 5, positive := by decide, fits := by decide }, [5])

/-- The continuation bytes, `i` of them. -/
def continuation (c : ℕ) : ℕ → List UInt8
  | 0 => []
  | i + 1 => UInt8.ofNat (0x80 ||| (0x3f &&& (c >>> (i * 6)))) :: continuation c i

/-- The bytes `gumbo_string_buffer_append_codepoint` stores. -/
def codepointBytes (c : ℕ) : List UInt8 :=
  let (numBytes, marker) :=
    if c ≤ 0x7f then (0, 0)
    else if c ≤ 0x7ff then (1, 0xc0)
    else if c ≤ 0xffff then (2, 0xe0)
    else (3, 0xf0)
  UInt8.ofNat (marker ||| (c >>> (numBytes * 6))) :: continuation c numBytes

def appendCodepoint (c : ℕ) (buffer : GumboStringBuffer) : GumboStringBuffer × List ℕ :=
  buffer.write (codepointBytes c)

def appendString (str : List UInt8) (buffer : GumboStringBuffer) : GumboStringBuffer × List ℕ :=
  buffer.write str

def clear (buffer : GumboStringBuffer) : GumboStringBuffer :=
  { buffer with data := [], fits := Nat.zero_le _ }

/-! ### The bytes of a character -/

theorem continuation_eq (c k : ℕ) : continuation c k = tailBytes k c := by
  induction k with
  | zero => rfl
  | succ k ih =>
      have hmask : 0x3f &&& (c >>> (k * 6)) = c / 64 ^ k % 64 := by
        rw [Nat.and_comm, Nat.and_two_pow_sub_one_eq_mod _ 6, Nat.shiftRight_eq_div_pow,
          Nat.mul_comm, Nat.pow_mul]
      have hor := Nat.two_pow_add_eq_or_of_lt (i := 7) (b := c / 64 ^ k % 64) (by omega) 1
      rw [continuation, tailBytes, ih, hmask, ← hor]

/-- **The encoder.** A character is appended as its UTF-8 encoding. -/
theorem codepointBytes_char (c : Char) : codepointBytes c.toNat = String.utf8EncodeChar c := by
  rw [utf8EncodeChar_eq]
  rcases tailCount_cases (toNat_lt c) with ⟨hcount, hc⟩ | ⟨hcount, hc⟩ | ⟨hcount, hc⟩ | ⟨hcount, hc⟩
  · have h₁ : c.toNat ≤ 0x7f := by omega
    simp [codepointBytes, h₁, hcount, leadMark, continuation, tailBytes]
  · have h₁ : ¬c.toNat ≤ 0x7f := by omega
    have h₂ : c.toNat ≤ 0x7ff := by omega
    have hor := Nat.two_pow_add_eq_or_of_lt (i := 6) (b := c.toNat / 64) (by omega) 3
    simp only [codepointBytes, h₁, h₂, if_true, if_false, hcount, leadMark, continuation_eq,
      Nat.shiftRight_eq_div_pow, Nat.reduceMul, Nat.reducePow, ← hor]
  · have h₁ : ¬c.toNat ≤ 0x7f := by omega
    have h₂ : ¬c.toNat ≤ 0x7ff := by omega
    have h₃ : c.toNat ≤ 0xffff := by omega
    have hor := Nat.two_pow_add_eq_or_of_lt (i := 5) (b := c.toNat / 4096) (by omega) 7
    simp only [codepointBytes, h₁, h₂, h₃, if_true, if_false, hcount, leadMark, continuation_eq,
      Nat.shiftRight_eq_div_pow, Nat.reduceMul, Nat.reducePow, ← hor]
  · have h₁ : ¬c.toNat ≤ 0x7f := by omega
    have h₂ : ¬c.toNat ≤ 0x7ff := by omega
    have h₃ : ¬c.toNat ≤ 0xffff := by omega
    have hor := Nat.two_pow_add_eq_or_of_lt (i := 4) (b := c.toNat / 262144) (by omega) 15
    simp only [codepointBytes, h₁, h₂, h₃, if_false, hcount, leadMark, continuation_eq,
      Nat.shiftRight_eq_div_pow, Nat.reduceMul, Nat.reducePow, ← hor]

/-! ### Any sequence of calls -/

inductive Op
  | appendCodepoint (c : ℕ)
  | appendString (str : List UInt8)
  | clear

def Op.call : Op → GumboStringBuffer → GumboStringBuffer × List ℕ
  | .appendCodepoint c, buffer => buffer.appendCodepoint c
  | .appendString str, buffer => buffer.appendString str
  | .clear, buffer => (buffer.clear, [])

/-- The buffer and the sizes asked for, after one call more. -/
def Op.step (state : GumboStringBuffer × List ℕ) (op : Op) : GumboStringBuffer × List ℕ :=
  ((op.call state.1).1, state.2 ++ (op.call state.1).2)

/-- What the buffer is to hold after a call. -/
def Op.apply (data : List UInt8) : Op → List UInt8
  | .appendCodepoint c => data ++ codepointBytes c
  | .appendString str => data ++ str
  | .clear => []

def peak (data : List UInt8) : List Op → ℕ
  | [] => data.length
  | op :: ops => max data.length (peak (op.apply data) ops)

theorem Op.call_data (op : Op) (buffer : GumboStringBuffer) :
    (op.call buffer).1.data = op.apply buffer.data := by
  cases op <;> rfl

theorem length_le_peak (data : List UInt8) (ops : List Op) : data.length ≤ peak data ops := by
  cases ops with
  | nil => exact Nat.le_refl _
  | cons op ops => exact Nat.le_max_left _ _

/-- What a call asks for: nothing, or one block of at least the double size, and
that only for a content of more than half of it. -/
theorem Op.call_cases (op : Op) (buffer : GumboStringBuffer) :
    (op.call buffer).1.capacity = buffer.capacity ∧ (op.call buffer).2 = [] ∨
      buffer.capacity * 2 ≤ (op.call buffer).1.capacity ∧
        (op.call buffer).1.capacity < (op.apply buffer.data).length * 2 ∧
        (op.call buffer).2 = [(op.call buffer).1.capacity] := by
  have hwrite : ∀ bytes, (buffer.write bytes).1.capacity = buffer.capacity ∧
      (buffer.write bytes).2 = [] ∨
      buffer.capacity * 2 ≤ (buffer.write bytes).1.capacity ∧
        (buffer.write bytes).1.capacity < (buffer.data ++ bytes).length * 2 ∧
        (buffer.write bytes).2 = [(buffer.write bytes).1.capacity] := by
    intro bytes
    have hpos := buffer.positive
    rw [List.length_append]
    rcases growCapacity_cases (buffer.data.length + bytes.length)
      (buffer.data.length + bytes.length) buffer.capacity with h | ⟨hdouble, hless⟩
    · exact .inl ⟨h, by simp [write, maybeResize, h]⟩
    · refine .inr ⟨hdouble, hless, if_pos ?_⟩
      omega
  cases op with
  | appendCodepoint c => exact hwrite _
  | appendString str => exact hwrite _
  | clear => exact .inl ⟨rfl, rfl⟩

/-- The sizes asked for add up to less than two blocks of the last size. -/
structure Account (m : ℕ) (state : GumboStringBuffer × List ℕ) : Prop where
  sum_le : state.2.sum ≤ 2 * state.1.capacity
  capacity_le : state.1.capacity ≤ max 5 (2 * m)

theorem Account.step {m : ℕ} {state : GumboStringBuffer × List ℕ} (h : Account m state) (op : Op)
    (hm : (op.apply state.1.data).length ≤ m) : Account m (op.step state) := by
  have hsum := h.sum_le
  have hcapacity := h.capacity_le
  rcases op.call_cases state.1 with ⟨hsame, hnone⟩ | ⟨hdouble, hless, hone⟩
  · refine ⟨?_, ?_⟩
    · simpa [Op.step, hsame, hnone] using hsum
    · simpa [Op.step, hsame] using hcapacity
  · refine ⟨?_, ?_⟩
    · simp only [Op.step, hone, List.sum_append, List.sum_singleton]
      omega
    · simp only [Op.step]
      omega

theorem foldl_step_data (ops : List Op) (state : GumboStringBuffer × List ℕ) :
    (ops.foldl Op.step state).1.data = ops.foldl Op.apply state.1.data :=
  (List.foldl_hom (fun s : GumboStringBuffer × List ℕ => s.1.data) fun s op =>
    (op.call_data s.1).symm).symm

theorem Account.foldl_step {m : ℕ} (ops : List Op) {state : GumboStringBuffer × List ℕ}
    (h : Account m state) (hpeak : peak state.1.data ops ≤ m) :
    Account m (ops.foldl Op.step state) := by
  induction ops generalizing state with
  | nil => exact h
  | cons op ops ih =>
      rw [peak, Nat.max_le, ← op.call_data] at hpeak
      have hlength := Nat.le_trans (length_le_peak _ ops) hpeak.2
      rw [op.call_data] at hlength
      exact ih (h.step op hlength) hpeak.2

/-- **The buffer.** After any calls it holds what was appended since the last
time it was cleared. It has asked for at most four times the greatest length it
ever had, or for ten bytes. -/
theorem foldl_step_init (ops : List Op) :
    (ops.foldl Op.step init).1.data = ops.foldl Op.apply [] ∧
      (ops.foldl Op.step init).1.capacity ≤ max 5 (2 * peak [] ops) ∧
      (ops.foldl Op.step init).2.sum ≤ max 10 (4 * peak [] ops) := by
  have haccount : Account (peak [] ops) (ops.foldl Op.step init) :=
    Account.foldl_step ops ⟨by decide, Nat.le_max_left _ _⟩ (Nat.le_refl _)
  have hsum := haccount.sum_le
  have hcapacity := haccount.capacity_le
  exact ⟨foldl_step_data ops init, hcapacity, by omega⟩

end GumboStringBuffer

end HtmlBenchmark.Gumbo
