import HtmlBenchmark.Library.Lists
import HtmlBenchmark.Library.Stores
import HtmlBenchmark.Util

/-!
Any sequence of appends to a fresh string.

`string_append` is given a length, and the string grows by that length whatever
the bytes are; but it copies with `strncpy`, which stops at the first 0 and
fills up with zeros. So the string is always well formed, nothing is written
outside its block, what was appended before stays, and it holds what was
appended as long as no text goes on behind a 0.
-/

namespace HtmlBenchmark

open Library

/-- The arguments of an append: the memory `str` points to, and `len`. -/
structure Appended where
  str : Buf
  len : ℕ

def Appended.bytes (a : Appended) : List UInt8 := readAt a.str 0 a.len

/-- `string_init` and then the appends. -/
def stringAppends (parts : List Appended) : StringT :=
  parts.foldl (fun d a => stringAppend d a.str a.len) stringInit

/-- The stores of an append in the block `realloc` has made: the terminator by
`string_grow`, then the bytes `strncpy` writes. -/
def stringAppendStores (d : StringT) (str : Buf) (len : ℕ) : List (ℕ × UInt8) :=
  (d.size + len, 0) :: consecutive d.size (strncpy len str)

/-! ### One append -/

/-- The stores account for the block after an append. -/
theorem stringAppend_stores {d : StringT} (h : d.Valid) (str : Buf) (len : ℕ) :
    (stringAppend d str len).data =
      setAll (realloc d.data (d.size + len + 1)) (stringAppendStores d str len) := by
  have hgrow : (realloc d.data (d.size + len + 1)).set (d.size + len) 0 =
      d.contents ++ List.replicate len 0 ++ [0] := by
    rw [List.append_assoc, ← List.replicate_succ']
    exact stringGrow_data h len
  rw [stringAppendStores, setAll_cons, hgrow, ← h.length_contents,
    setAll_consecutive _ _ (by simp), stringAppend_data h]

@[simp] theorem length_stringGrow (d : StringT) (add : ℕ) :
    (stringGrow d add).data.length = d.size + add + 1 := by
  simp only [stringGrow, realloc, List.length_set, List.length_append, List.length_take,
    List.length_replicate]
  omega

theorem stringAppendStores_inside (d : StringT) (str : Buf) (len : ℕ) :
    ∀ s ∈ stringAppendStores d str len, s.1 < (stringGrow d len).data.length := by
  intro s hs
  rw [length_stringGrow]
  rcases List.mem_cons.mp hs with rfl | hs
  · exact Nat.lt_succ_self _
  · have := (mem_consecutive hs).2
    rw [length_strncpy] at this
    omega

/-! ### All of them -/

theorem strncpy_eq_copied (n : ℕ) (b : Buf) : strncpy n b = copied (readAt b 0 n) := by
  rw [copied, length_readAt]
  apply strncpy_congr
  intro i hi
  have hlen : i < (readAt b 0 n).length := by rwa [length_readAt]
  rw [cstr, ← List.getElem_eq_getD (h := hlen), getElem_readAt, Nat.zero_add]

/-- What appends to a string in order leave. -/
theorem foldl_stringAppend {d : StringT} (h : d.Valid) (parts : List Appended) :
    (parts.foldl (fun d a => stringAppend d a.str a.len) d).Valid ∧
      (parts.foldl (fun d a => stringAppend d a.str a.len) d).contents =
        d.contents ++ parts.flatMap fun a => copied a.bytes := by
  induction parts generalizing d with
  | nil => exact ⟨h, (List.append_nil _).symm⟩
  | cons a parts ih =>
      obtain ⟨hvalid, hcontents⟩ := ih (stringAppend_valid h a.str a.len)
      refine ⟨hvalid, ?_⟩
      rw [List.foldl_cons, hcontents, stringAppend_contents h, strncpy_eq_copied, List.append_assoc,
        List.flatMap_cons]
      rfl

theorem stringAppends_spec (parts : List Appended) :
    (stringAppends parts).Valid ∧
      (stringAppends parts).contents = parts.flatMap fun a => copied a.bytes :=
  foldl_stringAppend stringInit_valid parts

/-- The string is as the appends were meant to leave it, and no append has
written outside its block or over what was there before. -/
structure HoldsAppended (parts : List Appended) : Prop where
  size : (stringAppends parts).size = (parts.map Appended.len).sum
  contents : (stringAppends parts).contents = parts.flatMap Appended.bytes
  terminator : (stringAppends parts).data[(stringAppends parts).size]? = some 0
  inside : ∀ before a after, parts = before ++ a :: after →
    ∀ s ∈ stringAppendStores (stringAppends before) a.str a.len,
      s.1 < (stringGrow (stringAppends before) a.len).data.length
  earlier : ∀ before after, parts = before ++ after →
    (stringAppends parts).data.take (stringAppends before).size = (stringAppends before).contents

theorem size_stringAppends (parts : List Appended) :
    (stringAppends parts).size = (parts.map Appended.len).sum := by
  obtain ⟨hvalid, hcontents⟩ := stringAppends_spec parts
  rw [← hvalid.length_contents, hcontents, List.length_flatMap]
  simp [Appended.bytes]

theorem take_stringAppends (before after : List Appended) :
    (stringAppends (before ++ after)).data.take (stringAppends before).size =
      (stringAppends before).contents := by
  obtain ⟨hvalid, hcontents⟩ := stringAppends_spec (before ++ after)
  obtain ⟨hvalid', hcontents'⟩ := stringAppends_spec before
  rw [hvalid.data_eq, hcontents, List.flatMap_append, ← hcontents', List.append_assoc,
    ← hvalid'.length_contents, List.take_left]

/-- **The string holds what was appended** exactly when no appended text has
anything but zeros behind a 0. -/
theorem holdsAppended_iff (parts : List Appended) :
    HoldsAppended parts ↔ ∀ a ∈ parts, ZerosLast a.bytes := by
  obtain ⟨hvalid, hcontents⟩ := stringAppends_spec parts
  have hall : parts.flatMap (fun a => copied a.bytes) = parts.flatMap Appended.bytes ↔
      ∀ a ∈ parts, ZerosLast a.bytes := by
    rw [flatMap_eq_flatMap_iff fun a _ => length_copied a.bytes]
    exact forall₂_congr fun a _ => copied_eq_self_iff a.bytes
  constructor
  · intro h
    exact hall.mp (hcontents.symm.trans h.contents)
  · intro h
    refine ⟨size_stringAppends parts, hcontents.trans (hall.mpr h), hvalid.terminated, ?_, ?_⟩
    · intro before a after _
      exact stringAppendStores_inside _ _ _
    · rintro before after rfl
      exact take_stringAppends before after

/-- A text that goes on behind a 0 is not held. -/
theorem not_forall_holdsAppended : ¬∀ parts : List Appended, HoldsAppended parts := by
  intro h
  have hcontents := (h [{ str := cstr [97, 0, 98], len := 3 }]).contents
  exact absurd hcontents (by decide)

end HtmlBenchmark
