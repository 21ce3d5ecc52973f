import HtmlBenchmark.Library.Words
import Mathlib.Data.Nat.Notation
import Mathlib.Tactic.IntervalCases

/-!
UTF-8 text as a reader meets it, one byte after the other.

Behind the first bytes of a character the reader knows how many more are to come
and which value they have had so far, and these two numbers tell what the
character can still be (`Narrows`). A text begins with a character or with a
piece that is none; of such a piece the reader takes the longest beginning that
could have become a character, and one byte at least. So every text divides into
pieces.
-/

namespace HtmlBenchmark.Library.Utf8

/-- The bytes of an encoding behind the first one. -/
def tailCount (v : ℕ) : ℕ :=
  if v ≤ 0x7f then 0 else if v ≤ 0x7ff then 1 else if v ≤ 0xffff then 2 else 3

/-- What marks the first byte of an encoding with `n` tail bytes. -/
def leadMark : ℕ → ℕ
  | 0 => 0
  | 1 => 0xc0
  | 2 => 0xe0
  | _ => 0xf0

/-- The last `k` bytes of the encoding of `v`. -/
def tailBytes : ℕ → ℕ → List UInt8
  | 0, _ => []
  | k + 1, v => UInt8.ofNat (0x80 + v / 64 ^ k % 64) :: tailBytes k v

@[simp] theorem length_tailBytes (k v : ℕ) : (tailBytes k v).length = k := by
  induction k with
  | zero => rfl
  | succ k ih => rw [tailBytes, List.length_cons, ih]

theorem getElem?_tailBytes {k v i : ℕ} (h : i < k) :
    (tailBytes k v)[i]? = some (UInt8.ofNat (0x80 + v / 64 ^ (k - 1 - i) % 64)) := by
  induction k generalizing i with
  | zero => omega
  | succ k ih =>
      cases i with
      | zero => rfl
      | succ i =>
          rw [tailBytes, List.getElem?_cons_succ, ih (by omega),
            show k + 1 - 1 - (i + 1) = k - 1 - i by omega]

theorem tailCount_cases {v : ℕ} (h : v < 0x110000) :
    tailCount v = 0 ∧ v < 0x80 ∨ tailCount v = 1 ∧ 0x80 ≤ v ∧ v < 0x800 ∨
      tailCount v = 2 ∧ 0x800 ≤ v ∧ v < 0x10000 ∨
      tailCount v = 3 ∧ 0x10000 ≤ v ∧ v < 0x110000 := by
  grind [tailCount]

theorem toNat_lt (c : Char) : c.toNat < 0x110000 := by
  rcases c.valid with h | h
  · exact Nat.lt_trans h (by decide)
  · exact h.2

theorem utf8EncodeChar_eq (c : Char) :
    String.utf8EncodeChar c =
      UInt8.ofNat (leadMark (tailCount c.toNat) + c.toNat / 64 ^ tailCount c.toNat) ::
        tailBytes (tailCount c.toNat) c.toNat := by
  have hlt := toNat_lt c
  have hval : c.val.toNat = c.toNat := rfl
  simp only [String.utf8EncodeChar, tailCount, hval]
  split_ifs with h₁ h₂ h₃
  · simp [leadMark, tailBytes]
  · have hlead : c.toNat / 64 < 0x20 := by omega
    simp only [leadMark, tailBytes, Nat.reducePow, Nat.div_one, Nat.mod_eq_of_lt hlead,
      Nat.add_comm]
  · have hlead : c.toNat / 4096 < 0x10 := by omega
    simp only [leadMark, tailBytes, Nat.reducePow, Nat.div_one, Nat.mod_eq_of_lt hlead,
      Nat.add_comm]
  · have hlead : c.toNat / 262144 < 0x8 := by omega
    simp only [leadMark, tailBytes, Nat.reducePow, Nat.div_one, Nat.mod_eq_of_lt hlead,
      Nat.add_comm]

theorem toNat_of_mem_tailBytes {k v : ℕ} {b : UInt8} (h : b ∈ tailBytes k v) :
    0x80 ≤ b.toNat := by
  induction k with
  | zero => cases h
  | succ k ih =>
      rcases List.mem_cons.mp h with rfl | h
      · rw [UInt8.toNat_ofNat']
        omega
      · exact ih h

/-- An ASCII byte stands for itself only. -/
theorem toNat_eq_of_mem {c : Char} {b : UInt8} (h : b ∈ String.utf8EncodeChar c)
    (hb : b.toNat < 0x80) : b.toNat = c.toNat := by
  rw [utf8EncodeChar_eq] at h
  rcases List.mem_cons.mp h with rfl | h
  · rw [UInt8.toNat_ofNat'] at hb ⊢
    rcases tailCount_cases (toNat_lt c) with
      ⟨hcount, hc⟩ | ⟨hcount, hc⟩ | ⟨hcount, hc⟩ | ⟨hcount, hc⟩ <;>
      simp only [hcount, leadMark, Nat.reducePow] at hb ⊢ <;> omega
  · exact absurd hb (Nat.not_lt.mpr (toNat_of_mem_tailBytes h))

/-! ### The characters that are still possible -/

/-- A beginning of some character. -/
def Starts (p : List UInt8) : Prop := ∃ c : Char, p <+: String.utf8EncodeChar c

/-- The characters beginning with `p` are those with `n` tail bytes whose value
is `v` when the `k` bytes to come are left out. -/
structure Narrows (p : List UInt8) (n k v : ℕ) : Prop where
  length : p.length + k = n + 1
  iff : ∀ c : Char, p <+: String.utf8EncodeChar c ↔
    tailCount c.toNat = n ∧ c.toNat / 64 ^ k = v

/-- The value of a first byte, by the number of tail bytes it announces. -/
theorem singleton_prefix_iff {b : UInt8} {c : Char} :
    [b] <+: String.utf8EncodeChar c ↔
      b.toNat = leadMark (tailCount c.toNat) + c.toNat / 64 ^ tailCount c.toNat := by
  have hlt := toNat_lt c
  rw [utf8EncodeChar_eq, List.cons_prefix_cons, and_iff_left List.nil_prefix, ← UInt8.toNat_inj,
    UInt8.toNat_ofNat']
  rw [Nat.mod_eq_of_lt]
  simp only [tailCount]
  split_ifs <;> simp only [leadMark, Nat.reducePow] <;> omega

def leadCount (b : UInt8) : Option ℕ :=
  if b.toNat < 0x80 then some 0 else if b.toNat < 0xc0 then none
  else if b.toNat < 0xe0 then some 1 else if b.toNat < 0xf0 then some 2
  else if b.toNat < 0xf8 then some 3 else none

theorem leadCount_eq {b : UInt8} {c : Char} (h : [b] <+: String.utf8EncodeChar c) :
    leadCount b = some (tailCount c.toNat) := by
  have hlt := toNat_lt c
  have hb := singleton_prefix_iff.mp h
  rcases tailCount_cases hlt with ⟨hcount, hc⟩ | ⟨hcount, hc⟩ | ⟨hcount, hc⟩ | ⟨hcount, hc⟩ <;>
    simp only [hcount, leadMark, Nat.reducePow] at hb ⊢ <;> grind [leadCount]

theorem narrows_singleton {b : UInt8} {n : ℕ} (h : leadCount b = some n) :
    Narrows [b] n n (b.toNat - leadMark n) where
  length := by rw [List.length_singleton, Nat.add_comm]
  iff := fun c => by
    have hmark : leadMark n ≤ b.toNat := by
      simp only [leadCount] at h
      split_ifs at h <;> cases h <;> simp only [leadMark] <;> omega
    constructor
    · intro hc
      obtain rfl : tailCount c.toNat = n := Option.some.inj ((leadCount_eq hc).symm.trans h)
      have hb := singleton_prefix_iff.mp hc
      exact ⟨rfl, by omega⟩
    · rintro ⟨rfl, hc⟩
      rw [singleton_prefix_iff]
      omega

theorem not_starts_singleton {b : UInt8} (h : leadCount b = none) : ¬Starts [b] := by
  rintro ⟨c, hc⟩
  rw [leadCount_eq hc] at h
  cases h

def IsTail (b : UInt8) : Prop := 0x80 ≤ b.toNat ∧ b.toNat ≤ 0xbf

instance (b : UInt8) : Decidable (IsTail b) := inferInstanceAs (Decidable (_ ∧ _))

/-- One byte more of a character. -/
theorem Narrows.snoc_iff {p : List UInt8} {n k v : ℕ} (h : Narrows p n (k + 1) v) (hp : p ≠ [])
    (b : UInt8) (c : Char) :
    p ++ [b] <+: String.utf8EncodeChar c ↔
      IsTail b ∧ tailCount c.toNat = n ∧ c.toNat / 64 ^ k = v * 64 + (b.toNat - 0x80) := by
  have hlength := h.length
  have hpos := List.length_pos_iff.mpr hp
  have hb := b.toNat_lt
  have hdiv : c.toNat / 64 ^ (k + 1) = c.toNat / 64 ^ k / 64 := by
    rw [Nat.pow_succ, Nat.div_div_eq_div_mul]
  rw [append_singleton_prefix_iff, h.iff c, hdiv, and_assoc, and_left_comm (a := IsTail b)]
  refine and_congr_right fun hcount => ?_
  obtain ⟨i, hi⟩ : ∃ i, p.length = i + 1 := ⟨p.length - 1, by omega⟩
  rw [utf8EncodeChar_eq, hi, List.getElem?_cons_succ, hcount, getElem?_tailBytes (by omega),
    show n - 1 - i = k by omega, Option.some.injEq, ← UInt8.toNat_inj, UInt8.toNat_ofNat',
    IsTail]
  omega

theorem Narrows.snoc {p : List UInt8} {n k v : ℕ} (h : Narrows p n (k + 1) v) (hp : p ≠ [])
    {b : UInt8} (hb : IsTail b) : Narrows (p ++ [b]) n k (v * 64 + (b.toNat - 0x80)) where
  length := by
    have hlength := h.length
    rw [List.length_append, List.length_singleton]
    omega
  iff := fun c => (h.snoc_iff hp b c).trans (and_iff_right hb)

theorem Narrows.not_starts_snoc {p : List UInt8} {n k v : ℕ} (h : Narrows p n (k + 1) v)
    (hp : p ≠ []) {b : UInt8} (hb : ¬IsTail b) : ¬Starts (p ++ [b]) :=
  fun ⟨c, hc⟩ => hb ((h.snoc_iff hp b c).mp hc).1

theorem Narrows.append_tailBytes {p : List UInt8} {n k m : ℕ} (h : Narrows p n k (m / 64 ^ k))
    (hp : p ≠ []) : Narrows (p ++ tailBytes k m) n 0 m := by
  induction k generalizing p with
  | zero => simpa [tailBytes] using h
  | succ k ih =>
      have hb : (UInt8.ofNat (0x80 + m / 64 ^ k % 64)).toNat = 0x80 + m / 64 ^ k % 64 := by
        rw [UInt8.toNat_ofNat', Nat.mod_eq_of_lt]
        omega
      have htail : IsTail (UInt8.ofNat (0x80 + m / 64 ^ k % 64)) := by
        rw [IsTail, hb]
        omega
      have hsnoc := h.snoc hp htail
      rw [hb, Nat.add_sub_cancel_left, Nat.pow_succ, ← Nat.div_div_eq_div_mul,
        Nat.div_add_mod'] at hsnoc
      rw [tailBytes, List.append_cons]
      exact ih hsnoc (by simp)

/-- A whole character leaves itself only. -/
theorem narrows_utf8EncodeChar (c : Char) :
    Narrows (String.utf8EncodeChar c) (tailCount c.toNat) 0 c.toNat := by
  have hfirst : [UInt8.ofNat (leadMark (tailCount c.toNat) + c.toNat / 64 ^ tailCount c.toNat)] <+:
      String.utf8EncodeChar c := by
    rw [utf8EncodeChar_eq]
    exact List.prefix_append _ _
  have hlead := narrows_singleton (leadCount_eq hfirst)
  rw [singleton_prefix_iff.mp hfirst, Nat.add_sub_cancel_left] at hlead
  rw [utf8EncodeChar_eq]
  exact hlead.append_tailBytes (List.cons_ne_nil _ _)

theorem utf8EncodeChar_prefix_iff {c d : Char} :
    String.utf8EncodeChar c <+: String.utf8EncodeChar d ↔ c = d := by
  constructor
  · intro h
    have hd := ((narrows_utf8EncodeChar c).iff d).mp h
    exact Char.toNat_inj.mp (by simpa using hd.2.symm)
  · rintro rfl
    exact List.prefix_rfl

theorem exists_char_iff {P : ℕ → Prop} : (∃ c : Char, P c.toNat) ↔ ∃ m, m.isValidChar ∧ P m :=
  ⟨fun ⟨c, h⟩ => ⟨c.toNat, c.valid, h⟩, fun ⟨m, hm, h⟩ => ⟨Char.ofNatAux m hm, h⟩⟩

def lowest : ℕ → ℕ
  | 0 => 0
  | 1 => 0x80
  | 2 => 0x800
  | _ => 0x10000

def highest : ℕ → ℕ
  | 0 => 0x7f
  | 1 => 0x7ff
  | 2 => 0xffff
  | _ => 0x10ffff

/-- `v` can still become a character: it is neither too small nor too great for
`n` tail bytes, and not the beginning of a surrogate only. -/
def Possible (n k v : ℕ) : Prop :=
  lowest n / 64 ^ k ≤ v ∧ v ≤ highest n / 64 ^ k ∧ ¬(n = 2 ∧ k ≤ 1 ∧ v * 64 ^ k / 0x800 = 0x1b)

instance (n k v : ℕ) : Decidable (Possible n k v) := inferInstanceAs (Decidable (_ ∧ _))

theorem tailCount_eq_iff {m n : ℕ} (hm : m < 0x110000) (hn : n ≤ 3) :
    tailCount m = n ↔ lowest n ≤ m ∧ m ≤ highest n := by
  interval_cases n <;> simp only [lowest, highest, tailCount] <;> grind

theorem possible_iff {n k v : ℕ} (hn : n ≤ 3) (hk : k ≤ n) :
    Possible n k v ↔ ∃ c : Char, tailCount c.toNat = n ∧ c.toNat / 64 ^ k = v := by
  rw [exists_char_iff (P := fun m => tailCount m = n ∧ m / 64 ^ k = v)]
  constructor
  · rintro ⟨hlow, hhigh, hsurrogate⟩
    -- the least of the values that are left, or the least with so many bytes
    have hvalid : (max (lowest n) (v * 64 ^ k)).isValidChar := by
      interval_cases n <;> interval_cases k <;>
        simp only [Nat.isValidChar, lowest, highest, Nat.reducePow, true_and] at * <;> omega
    refine ⟨_, hvalid, ?_⟩
    rw [tailCount_eq_iff (by rcases hvalid with h | h <;> omega) hn]
    interval_cases n <;> interval_cases k <;>
      simp only [lowest, highest, Nat.reducePow] at * <;> omega
  · rintro ⟨m, hm, hcount, rfl⟩
    rw [tailCount_eq_iff (by rcases hm with h | h <;> omega) hn] at hcount
    interval_cases n <;> interval_cases k <;>
      simp only [Possible, Nat.isValidChar, lowest, highest, Nat.reducePow, true_and] at * <;>
        omega

theorem Narrows.starts_iff {p : List UInt8} {n k v : ℕ} (h : Narrows p n k v) (hn : n ≤ 3)
    (hp : p ≠ []) : Starts p ↔ Possible n k v := by
  have hlength := h.length
  have hpos := List.length_pos_iff.mpr hp
  rw [possible_iff hn (by omega)]
  exact exists_congr h.iff

/-- A beginning of a character that is not all of it. -/
theorem Narrows.not_char {p : List UInt8} {n k v : ℕ} (h : Narrows p n (k + 1) v) (c : Char) :
    String.utf8EncodeChar c ≠ p := by
  rintro rfl
  have hcount := ((h.iff c).mp List.prefix_rfl).1
  have hlength := h.length
  rw [utf8EncodeChar_eq, List.length_cons, length_tailBytes] at hlength
  omega

/-- No byte is left to come. -/
theorem Narrows.eq_char {p : List UInt8} {n v : ℕ} (h : Narrows p n 0 v) (hstarts : Starts p) :
    ∃ c : Char, String.utf8EncodeChar c = p ∧ c.toNat = v := by
  obtain ⟨c, hc⟩ := hstarts
  obtain ⟨hcount, hvalue⟩ := (h.iff c).mp hc
  refine ⟨c, (hc.eq_of_length ?_).symm, by simpa using hvalue⟩
  have hlength := h.length
  rw [utf8EncodeChar_eq, List.length_cons, length_tailBytes, hcount]
  omega

/-! ### The pieces of a text -/

/-- What is replaced where no character stands: the longest beginning of one,
and a byte at least. -/
structure MaximalSubpart (p text : List UInt8) : Prop where
  ne_nil : p ≠ []
  isPrefix : p <+: text
  not_char : ∀ c : Char, ¬String.utf8EncodeChar c <+: text
  starts : p.length = 1 ∨ Starts p
  maximal : ∀ q, q <+: text → Starts q → q.length ≤ p.length

theorem MaximalSubpart.length_le {p q text : List UInt8} (hp : MaximalSubpart p text)
    (hq : MaximalSubpart q text) : p.length ≤ q.length := by
  rcases hp.starts with hone | hstarts
  · rw [hone]
    exact List.length_pos_iff.mpr hq.ne_nil
  · exact hq.maximal p hp.isPrefix hstarts

theorem MaximalSubpart.unique {p q text : List UInt8} (hp : MaximalSubpart p text)
    (hq : MaximalSubpart q text) : p = q :=
  (List.prefix_of_prefix_length_le hp.isPrefix hq.isPrefix
    (hp.length_le hq)).eq_of_length_le (hq.length_le hp)

theorem Starts.of_prefix {p q : List UInt8} (h : Starts q) (hp : p <+: q) : Starts p :=
  h.imp fun _ hq => hp.trans hq

/-- Nothing longer is a beginning of a character if the next byte rules it out. -/
theorem length_le_of_not_starts {p rest : List UInt8}
    (hnext : ∀ b ∈ rest.head?, ¬Starts (p ++ [b])) {q : List UInt8} (hq : q <+: p ++ rest)
    (hstarts : Starts q) : q.length ≤ p.length := by
  by_contra hlong
  cases rest with
  | nil => exact hlong (by simpa using hq.length_le)
  | cons b rest =>
      refine hnext b rfl (hstarts.of_prefix ?_)
      rw [List.append_cons] at hq
      refine List.prefix_of_prefix_length_le (List.prefix_append _ _) hq ?_
      rw [List.length_append, List.length_singleton]
      omega

/-- A byte that begins no character. -/
theorem maximalSubpart_singleton {b : UInt8} (h : ¬Starts [b]) (rest : List UInt8) :
    MaximalSubpart [b] (b :: rest) where
  ne_nil := List.cons_ne_nil _ _
  isPrefix := ⟨rest, rfl⟩
  not_char := fun c hc => by
    obtain ⟨b', l, hl⟩ := List.exists_cons_of_ne_nil (String.utf8EncodeChar_ne_nil (c := c))
    rw [hl, List.cons_prefix_cons] at hc
    exact h ⟨c, by rw [hl, hc.1]; exact List.prefix_append _ _⟩
  starts := .inl rfl
  maximal := fun q hq hstarts => by
    cases q with
    | nil => exact Nat.zero_le _
    | cons b' q =>
        rw [List.cons_prefix_cons] at hq
        exact absurd (hstarts.of_prefix ⟨q, by rw [hq.1]; rfl⟩) h

/-- A character breaks off where the text ends or another byte stands. -/
theorem maximalSubpart_of_narrows {p rest : List UInt8} {n k v : ℕ} (h : Narrows p n (k + 1) v)
    (hp : p ≠ []) (hstarts : Starts p) (hnext : ∀ b ∈ rest.head?, ¬Starts (p ++ [b])) :
    MaximalSubpart p (p ++ rest) where
  ne_nil := hp
  isPrefix := List.prefix_append _ _
  not_char := fun c hc => by
    have hlength := length_le_of_not_starts hnext hc ⟨c, List.prefix_rfl⟩
    obtain ⟨d, hd⟩ := hstarts
    have hcp := List.prefix_of_prefix_length_le hc (List.prefix_append p rest) hlength
    obtain rfl := utf8EncodeChar_prefix_iff.mp (hcp.trans hd)
    exact h.not_char c (hcp.eq_of_length_le hd.length_le)
  starts := .inr hstarts
  maximal := fun _ hq hqs => length_le_of_not_starts hnext hq hqs

/-- A piece of a text. A character that breaks off may be cut off by the end of
the text. -/
inductive Piece
  | char (c : Char)
  | illFormed (p : List UInt8)
  | truncated (p : List UInt8)
  deriving DecidableEq

def Piece.bytes : Piece → List UInt8
  | .char c => String.utf8EncodeChar c
  | .illFormed p => p
  | .truncated p => p

/-- What a text begins with. -/
inductive Heads : Piece → List UInt8 → Prop
  | char {c : Char} {text : List UInt8} (h : String.utf8EncodeChar c <+: text) :
      Heads (.char c) text
  | illFormed {p text : List UInt8} (h : MaximalSubpart p text) (hstarts : ¬Starts text) :
      Heads (.illFormed p) text
  | truncated {text : List UInt8} (h : MaximalSubpart text text) (hstarts : Starts text) :
      Heads (.truncated text) text

theorem heads_unique {a b : Piece} {text : List UInt8} (ha : Heads a text) (hb : Heads b text) :
    a = b := by
  cases ha with
  | char hc =>
      cases hb with
      | char hd =>
          rw [Piece.char.injEq]
          rcases List.prefix_or_prefix_of_prefix hc hd with h | h
          · exact utf8EncodeChar_prefix_iff.mp h
          · exact (utf8EncodeChar_prefix_iff.mp h).symm
      | illFormed hp _ => exact absurd hc (hp.not_char _)
      | truncated hp _ => exact absurd hc (hp.not_char _)
  | illFormed hp hstarts =>
      cases hb with
      | char hd => exact absurd hd (hp.not_char _)
      | illFormed hq _ => rw [hp.unique hq]
      | truncated _ hstarts' => exact absurd hstarts' hstarts
  | truncated hp hstarts =>
      cases hb with
      | char hd => exact absurd hd (hp.not_char _)
      | illFormed _ hstarts' => exact absurd hstarts hstarts'
      | truncated _ _ => rfl

theorem Heads.isPrefix {a : Piece} {text : List UInt8} (h : Heads a text) : a.bytes <+: text := by
  cases h with
  | char h => exact h
  | illFormed h _ => exact h.isPrefix
  | truncated h _ => exact h.isPrefix

theorem Heads.bytes_ne_nil {a : Piece} {text : List UInt8} (h : Heads a text) : a.bytes ≠ [] := by
  cases h with
  | char h => exact String.utf8EncodeChar_ne_nil
  | illFormed h _ => exact h.ne_nil
  | truncated h _ => exact h.ne_nil

/-- A text and its pieces, from the left to the right. -/
inductive Divides : List UInt8 → List Piece → Prop
  | nil : Divides [] []
  | cons {a : Piece} {rest : List UInt8} {pieces : List Piece} (h : Heads a (a.bytes ++ rest))
      (hrest : Divides rest pieces) : Divides (a.bytes ++ rest) (a :: pieces)

theorem divides_cons_iff {text : List UInt8} {a : Piece} {pieces : List Piece} :
    Divides text (a :: pieces) ↔ Heads a text ∧ Divides (text.drop a.bytes.length) pieces := by
  constructor
  · intro h
    cases h with
    | cons ha hrest => exact ⟨ha, by rwa [List.drop_left]⟩
  · rintro ⟨ha, hrest⟩
    obtain ⟨rest, rfl⟩ := ha.isPrefix
    rw [List.drop_left] at hrest
    exact .cons ha hrest

theorem Divides.flatMap_bytes {text : List UInt8} {pieces : List Piece} (h : Divides text pieces) :
    pieces.flatMap Piece.bytes = text := by
  induction h with
  | nil => rfl
  | cons h hrest ih => rw [List.flatMap_cons, ih]

theorem Divides.length_le {text : List UInt8} {pieces : List Piece} (h : Divides text pieces) :
    pieces.length ≤ text.length := by
  induction h with
  | nil => exact Nat.le_refl _
  | cons ha hrest ih =>
      have hpos := List.length_pos_iff.mpr ha.bytes_ne_nil
      rw [List.length_cons, List.length_append]
      omega

/-- A text of characters divides into these. -/
theorem divides_chars (cs : List Char) :
    Divides (cs.flatMap String.utf8EncodeChar) (cs.map .char) := by
  induction cs with
  | nil => exact .nil
  | cons c cs ih => exact .cons (.char (List.prefix_append _ _)) ih

/-- Where every text begins with a piece, every text divides into pieces. -/
theorem exists_divides (heads : ∀ text, text ≠ [] → ∃ a, Heads a text) (text : List UInt8) :
    ∃ pieces, Divides text pieces := by
  induction hn : text.length using Nat.strong_induction_on generalizing text with
  | _ n ih =>
      by_cases hnil : text = []
      · exact ⟨[], hnil ▸ .nil⟩
      · obtain ⟨a, ha⟩ := heads text hnil
        obtain ⟨rest, rfl⟩ := ha.isPrefix
        have hpos := List.length_pos_iff.mpr ha.bytes_ne_nil
        rw [List.length_append] at hn
        obtain ⟨pieces, hpieces⟩ := ih rest.length (by omega) rest rfl
        exact ⟨a :: pieces, .cons ha hpieces⟩

end HtmlBenchmark.Library.Utf8
