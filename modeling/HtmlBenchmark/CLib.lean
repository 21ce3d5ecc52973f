import Mathlib.Data.List.Basic
import Mathlib.Data.Nat.Notation
import Mathlib.Logic.Function.Basic

/-!
The part of the C library the benchmark calls, on bytes.

The program never calls `setlocale`, so the character classes are those of the
"C" locale: only ASCII letters have a case, and bytes from 128 on belong to no
class. A `char` buffer is the memory its pointer leads to; comparisons read it
one position at a time and stop where the C functions stop.
-/

namespace HtmlBenchmark

/-- The memory a `char*` leads to, by offset. -/
abbrev Buf := ℕ → UInt8

def readAt (b : Buf) : ℕ → ℕ → List UInt8
  | _, 0 => []
  | src, n + 1 => b src :: readAt b (src + 1) n

@[simp] theorem length_readAt (b : Buf) (src n : ℕ) : (readAt b src n).length = n := by
  induction n generalizing src with
  | zero => rfl
  | succ n ih => simp [readAt, ih]

theorem readAt_congr {b b' : Buf} {src n : ℕ} (h : ∀ i, src ≤ i → i < src + n → b i = b' i) :
    readAt b src n = readAt b' src n := by
  induction n generalizing src with
  | zero => rfl
  | succ n ih =>
      rw [readAt, readAt, h src (by omega) (by omega), ih fun i hi hin => h i (by omega) (by omega)]

theorem readAt_add (b : Buf) (src m n : ℕ) :
    readAt b src (m + n) = readAt b src m ++ readAt b (src + m) n := by
  induction m generalizing src with
  | zero => simp [readAt]
  | succ m ih =>
      rw [Nat.succ_add, readAt, readAt, ih (src + 1), List.cons_append,
        show src + 1 + m = src + (m + 1) by omega]

theorem readAt_succ (b : Buf) (src n : ℕ) :
    readAt b src (n + 1) = readAt b src n ++ [b (src + n)] := readAt_add b src n 1

theorem getElem_readAt {b : Buf} {src n i : ℕ} (h : i < (readAt b src n).length) :
    (readAt b src n)[i] = b (src + i) := by
  induction n generalizing src i with
  | zero => simp at h
  | succ n ih =>
      cases i with
      | zero => rfl
      | succ i =>
          simp only [readAt, List.getElem_cons_succ]
          rw [ih, Nat.add_assoc, Nat.add_comm 1]

theorem readAt_eq_map (b : Buf) (src n : ℕ) :
    readAt b src n = (List.range n).map fun i => b (src + i) := by
  apply List.ext_getElem (by simp)
  intro i h₁ h₂
  rw [getElem_readAt, List.getElem_map, List.getElem_range]

theorem readAt_shift (b : Buf) (n : ℕ) : readAt b 1 n = readAt (fun i => b (i + 1)) 0 n := by
  apply List.ext_getElem (by simp)
  intro i h₁ h₂
  rw [getElem_readAt, getElem_readAt, Nat.zero_add, Nat.add_comm]

theorem take_readAt {b : Buf} {src m n : ℕ} (h : m ≤ n) :
    (readAt b src n).take m = readAt b src m := by
  obtain ⟨k, rfl⟩ := Nat.exists_eq_add_of_le h
  rw [readAt_add, List.take_append_of_le_length (by simp), List.take_of_length_le (by simp)]

theorem drop_readAt (b : Buf) (src m n : ℕ) :
    (readAt b src (m + n)).drop m = readAt b (src + m) n := by
  rw [readAt_add, List.drop_append_of_le_length (by simp), List.drop_eq_nil_of_le (by simp),
    List.nil_append]

/-- A C string literal, without its terminator. -/
def bytes (s : String) : List UInt8 := s.toList.map Char.toUInt8

/-- The memory of a C string: its bytes, followed by the terminator. -/
def cstr (s : List UInt8) : Buf := fun i => s.getD i 0

theorem readAt_cstr (t : List UInt8) : readAt (cstr t) 0 t.length = t := by
  apply List.ext_getElem (by simp)
  intro i h _
  rw [getElem_readAt, cstr, Nat.zero_add, ← List.getElem_eq_getD]

def isupper (c : UInt8) : Bool := 65 ≤ c && c ≤ 90

def islower (c : UInt8) : Bool := 97 ≤ c && c ≤ 122

def isalpha (c : UInt8) : Bool := isupper c || islower c

def isspace (c : UInt8) : Bool := c == 32 || (9 ≤ c && c ≤ 13)

def tolower (c : UInt8) : UInt8 := if isupper c then c + 32 else c

/-- `strncmp(s, t, n) == 0`, the bytes being compared after `norm`: equal so
far, until `n` bytes are compared or both strings end. -/
def cmpn (norm : UInt8 → UInt8) : ℕ → Buf → Buf → Bool
  | 0, _, _ => true
  | n + 1, s, t =>
      norm (s 0) == norm (t 0) &&
        (s 0 == 0 || cmpn norm n (fun i => s (i + 1)) (fun i => t (i + 1)))

/-- `strncmp(s, t, n) == 0` -/
def strncmp (n : ℕ) (s t : Buf) : Bool := cmpn id n s t

/-- `strncasecmp(s, t, n) == 0` -/
def strncasecmp (n : ℕ) (s t : Buf) : Bool := cmpn tolower n s t

/-- A C string: no byte before its terminator is 0. -/
structure CString where
  bytes : List UInt8
  noNul : 0 ∉ bytes
  deriving DecidableEq

def CString.empty : CString := ⟨[], List.not_mem_nil⟩

/-- `strcmp(s, t) == 0` -/
def strcmp (s t : CString) : Bool := s = t

/-- `strcasecmp(s, t) == 0` -/
def strcasecmp (s t : CString) : Bool := s.bytes.map tolower = t.bytes.map tolower

theorem tolower_eq_zero {c : UInt8} : tolower c = 0 ↔ c = 0 := by
  grind [tolower, isupper]

/-- What `strncpy(dst, src, n)` leaves in the `n` bytes at `dst`: the source up
to its first 0, then zeros. -/
def strncpy : ℕ → Buf → List UInt8
  | 0, _ => []
  | n + 1, src =>
      if src 0 = 0 then List.replicate (n + 1) 0
      else src 0 :: strncpy n (fun i => src (i + 1))

@[simp] theorem length_strncpy (n : ℕ) (src : Buf) : (strncpy n src).length = n := by
  induction n generalizing src with
  | zero => rfl
  | succ n ih =>
      simp only [strncpy]
      split <;> simp [ih]

/-- `strncpy` reads nothing beyond the `n` bytes it is asked for. -/
theorem strncpy_congr {n : ℕ} {s t : Buf} (h : ∀ i < n, s i = t i) :
    strncpy n s = strncpy n t := by
  induction n generalizing s t with
  | zero => rfl
  | succ n ih =>
      have h0 : s 0 = t 0 := h 0 (by omega)
      have htail : strncpy n (fun i => s (i + 1)) = strncpy n (fun i => t (i + 1)) :=
        ih fun i hi => h (i + 1) (by omega)
      simp only [strncpy, h0, htail]

/-- What `strncpy(dst, s, len)` copies of a text of `len` bytes. -/
def copied (s : List UInt8) : List UInt8 := strncpy s.length (cstr s)

@[simp] theorem length_copied (s : List UInt8) : (copied s).length = s.length := length_strncpy ..

@[simp] theorem copied_nil : copied [] = [] := rfl

theorem copied_cons (c : UInt8) (s : List UInt8) :
    copied (c :: s) = if c = 0 then List.replicate (s.length + 1) 0 else c :: copied s := rfl

/-- A text without a 0 is copied as it is, and so is what follows it. -/
theorem copied_append_of_noNul {s : List UInt8} (h : 0 ∉ s) (t : List UInt8) :
    copied (s ++ t) = s ++ copied t := by
  induction s with
  | nil => rfl
  | cons c s ih =>
      simp only [List.mem_cons, not_or] at h
      rw [List.cons_append, copied_cons, if_neg fun hc => h.1 hc.symm, ih h.2, List.cons_append]

theorem copied_of_noNul {s : List UInt8} (h : 0 ∉ s) : copied s = s := by
  simpa using copied_append_of_noNul h []

/-- Behind a 0 only zeros are copied. -/
theorem copied_append_of_nul {s : List UInt8} (h : 0 ∈ s) (t : List UInt8) :
    copied (s ++ t) = copied s ++ List.replicate t.length 0 := by
  induction s with
  | nil => cases h
  | cons c s ih =>
      rw [List.cons_append, copied_cons, copied_cons]
      split_ifs with hc
      · rw [List.replicate_append_replicate, List.length_append]
        congr 1
        omega
      · rw [ih ((List.mem_cons.mp h).resolve_left fun h => hc h.symm), List.cons_append]

/-- Nothing but zeros stands behind a 0. -/
def ZerosLast (s : List UInt8) : Prop := ∀ c ∈ s.dropWhile (· ≠ 0), c = 0

instance (s : List UInt8) : Decidable (ZerosLast s) := inferInstanceAs (Decidable (∀ c ∈ _, c = 0))

/-- The texts that are copied as they are. -/
theorem copied_eq_self_iff (s : List UInt8) : copied s = s ↔ ZerosLast s := by
  induction s with
  | nil => simp [ZerosLast]
  | cons c s ih =>
      rw [copied_cons, ZerosLast, List.dropWhile_cons]
      by_cases hc : c = 0
      · simp [hc, eq_comm, List.eq_replicate_iff]
      · simp [hc, ih, ZerosLast]

theorem zero_mem_copied_iff (s : List UInt8) : 0 ∈ copied s ↔ 0 ∈ s := by
  induction s with
  | nil => rfl
  | cons c s ih =>
      rw [copied_cons]
      split_ifs with hc
      · simp [hc]
      · rw [List.mem_cons, List.mem_cons, ih]

@[simp] theorem copied_copied (s : List UInt8) : copied (copied s) = copied s := by
  induction s with
  | nil => rfl
  | cons c s ih =>
      rw [copied_cons]
      split_ifs with hc
      · rw [List.replicate_succ, copied_cons, if_pos rfl, List.length_replicate]
        rfl
      · rw [copied_cons, if_neg hc, ih]

/-- Parts that have been copied are copied together as the parts are. -/
theorem copied_flatMap_copied {α : Type*} (f : α → List UInt8) (l : List α) :
    copied (l.flatMap fun a => copied (f a)) = copied (l.flatMap f) := by
  induction l with
  | nil => rfl
  | cons a l ih =>
      rw [List.flatMap_cons, List.flatMap_cons]
      by_cases hnul : 0 ∈ f a
      · have hlength := congrArg List.length ih
        rw [length_copied, length_copied] at hlength
        rw [copied_append_of_nul hnul, copied_append_of_nul ((zero_mem_copied_iff _).mpr hnul),
          copied_copied, hlength]
      · rw [copied_of_noNul hnul, copied_append_of_noNul hnul, copied_append_of_noNul hnul, ih]

/-- A comparison of at most `n` bytes depends on the first `n` bytes only. -/
theorem cmpn_congr {norm : UInt8 → UInt8} {n : ℕ} {s t t' : Buf}
    (h : ∀ i < n, t i = t' i) : cmpn norm n s t = cmpn norm n s t' := by
  induction n generalizing s t t' with
  | zero => rfl
  | succ n ih =>
      have h0 : t 0 = t' 0 := h 0 (by omega)
      have htail := ih (s := fun i => s (i + 1)) (t := fun i => t (i + 1))
        fun i hi => h (i + 1) (by omega)
      simp only [cmpn, h0, htail]

/-- A comparison with all of a string compares as many bytes. -/
theorem cmpn_cstr_iff {norm : UInt8 → UInt8} (hnorm : ∀ c, norm c = norm 0 → c = 0)
    {name : List UInt8} (hnul : 0 ∉ name) (s : Buf) :
    cmpn norm name.length s (cstr name) = true ↔
      (readAt s 0 name.length).map norm = name.map norm := by
  induction name generalizing s with
  | nil => simp [cmpn, readAt]
  | cons c name ih =>
      rw [List.mem_cons, not_or] at hnul
      have htail : (fun i => cstr (c :: name) (i + 1)) = cstr name := rfl
      have hhead : cstr (c :: name) 0 = c := rfl
      rw [List.length_cons, cmpn, htail, hhead, readAt, readAt_shift, Bool.and_eq_true,
        Bool.or_eq_true, ih hnul.2, beq_iff_eq, beq_iff_eq, List.map_cons, List.map_cons,
        List.cons.injEq]
      refine and_congr_right fun heq => or_iff_right fun hzero => ?_
      rw [hzero] at heq
      exact hnul.1 (hnorm c heq.symm).symm

end HtmlBenchmark
