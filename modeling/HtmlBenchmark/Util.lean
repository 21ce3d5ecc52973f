import HtmlBenchmark.CLib

/-!
The growing string of `util.c`.

`data` is the allocated block, one byte longer than `size` to hold the
terminator. `realloc` keeps the bytes of the old block; the bytes it adds have
no defined value and are taken as 0 here, every one of them being overwritten
by the terminator or by the copy that follows.
-/

namespace HtmlBenchmark

structure StringT where
  data : List UInt8
  size : ℕ
  deriving DecidableEq, Repr

def realloc (block : List UInt8) (n : ℕ) : List UInt8 :=
  block.take n ++ List.replicate (n - block.length) 0

/-- The string `{0, 0}`, which has no block. -/
def stringNil : StringT := { data := [], size := 0 }

def stringInit : StringT := { data := [0], size := 0 }

def stringGrow (d : StringT) (add : ℕ) : StringT :=
  { data := (realloc d.data (d.size + add + 1)).set (d.size + add) 0
    size := d.size + add }

/-- Overwrites the bytes of a block from offset `offs` on. -/
def memWrite (block : List UInt8) (offs : ℕ) (src : List UInt8) : List UInt8 :=
  block.take offs ++ src ++ block.drop (offs + src.length)

def stringAppend (d : StringT) (str : Buf) (len : ℕ) : StringT :=
  { stringGrow d len with data := memWrite (stringGrow d len).data d.size (strncpy len str) }

/-- The characters of the string: the block without its terminator. -/
def StringT.contents (d : StringT) : List UInt8 := d.data.take d.size

/-- The block is one byte longer than the string and ends in a 0. -/
structure StringT.Valid (d : StringT) : Prop where
  length : d.data.length = d.size + 1
  terminated : d.data[d.size]? = some 0

theorem StringT.Valid.length_contents {d : StringT} (h : d.Valid) :
    d.contents.length = d.size := by
  rw [StringT.contents, List.length_take, h.length]
  omega

theorem StringT.Valid.data_eq {d : StringT} (h : d.Valid) : d.data = d.contents ++ [0] := by
  have hlen := h.length
  have hget : d.data[d.size] = 0 := by
    have hlast := h.terminated
    rw [List.getElem?_eq_getElem (by omega)] at hlast
    exact Option.some.inj hlast
  have hdrop : d.data.drop d.size = [0] := by
    rw [List.drop_eq_getElem_cons (by omega), hget, List.drop_eq_nil_of_le (by omega)]
  rw [StringT.contents, ← hdrop, List.take_append_drop]

theorem stringInit_valid : stringInit.Valid := ⟨rfl, rfl⟩

@[simp] theorem stringInit_contents : stringInit.contents = [] := rfl

@[simp] theorem stringAppend_size (d : StringT) (str : Buf) (len : ℕ) :
    (stringAppend d str len).size = d.size + len := rfl

theorem stringGrow_data {d : StringT} (h : d.Valid) (add : ℕ) :
    (stringGrow d add).data = d.contents ++ List.replicate (add + 1) 0 := by
  have hlen := h.length
  have hsize := h.length_contents
  have hblock : realloc d.data (d.size + add + 1) =
      d.contents ++ List.replicate (add + 1) 0 := by
    rw [realloc, List.take_of_length_le (by omega), hlen,
      show d.size + add + 1 - (d.size + 1) = add by omega, h.data_eq, List.append_assoc]
    rfl
  simp only [stringGrow, hblock]
  rw [List.set_append_right _ _ (by omega), hsize, Nat.add_sub_cancel_left]
  congr 1
  apply List.ext_getElem (by simp)
  intro i h₁ h₂
  simp

/-- The block after an append: what was there, the copy, the terminator. -/
theorem stringAppend_data {d : StringT} (h : d.Valid) (str : Buf) (len : ℕ) :
    (stringAppend d str len).data = d.contents ++ strncpy len str ++ [0] := by
  have hsize := h.length_contents
  simp only [stringAppend, memWrite, stringGrow_data h, length_strncpy]
  rw [List.take_append_of_le_length (by omega), List.take_of_length_le (by omega),
    List.drop_append, List.drop_eq_nil_of_le (by omega), hsize, Nat.add_sub_cancel_left,
    List.drop_replicate, Nat.add_sub_cancel_left]
  rfl

/-- **An append.** The string grows by exactly what `strncpy` copies. -/
theorem stringAppend_contents {d : StringT} (h : d.Valid) (str : Buf) (len : ℕ) :
    (stringAppend d str len).contents = d.contents ++ strncpy len str := by
  have hsize := h.length_contents
  rw [StringT.contents, stringAppend_data h, stringAppend_size,
    List.take_append_of_le_length (by simp [hsize]), List.take_of_length_le (by simp [hsize])]

theorem stringAppend_cstr {d : StringT} (h : d.Valid) (s : List UInt8) :
    (stringAppend d (cstr s) s.length).contents = d.contents ++ copied s :=
  stringAppend_contents h _ _

/-- Appending a string appends a copy of its characters. -/
theorem stringAppend_copied {d t : StringT} (hd : d.Valid) (ht : t.Valid) :
    (stringAppend d (cstr t.data) t.size).contents = d.contents ++ copied t.contents := by
  have hlen := ht.length_contents
  have hmem : ∀ i < t.size, cstr t.data i = cstr t.contents i := by
    intro i hi
    rw [cstr, cstr, ht.data_eq, List.getD_eq_getElem?_getD,
      List.getElem?_append_left (by omega), List.getD_eq_getElem?_getD]
  have hcopy : strncpy t.size (cstr t.contents) = copied t.contents := by rw [copied, hlen]
  rw [stringAppend_contents hd, strncpy_congr hmem, hcopy]

theorem stringAppend_string {d t : StringT} (hd : d.Valid) (ht : t.Valid)
    (hnul : 0 ∉ t.contents) :
    (stringAppend d (cstr t.data) t.size).contents = d.contents ++ t.contents := by
  rw [stringAppend_copied hd ht, copied_of_noNul hnul]

theorem stringAppend_valid {d : StringT} (h : d.Valid) (str : Buf) (len : ℕ) :
    (stringAppend d str len).Valid := by
  have hsize := h.length_contents
  constructor
  · simp [stringAppend_data h, hsize, Nat.add_assoc]
  · rw [stringAppend_data h, stringAppend_size, List.getElem?_append_right (by simp [hsize])]
    simp [hsize]

/-- A string in order, without a 0 in it. -/
structure Clean (d : StringT) : Prop where
  valid : d.Valid
  noNul : 0 ∉ d.contents

theorem Clean.append {d : StringT} (h : Clean d) {s : List UInt8} (hs : 0 ∉ s) :
    Clean (stringAppend d (cstr s) s.length) ∧
      (stringAppend d (cstr s) s.length).contents = d.contents ++ s := by
  have hcontents : (stringAppend d (cstr s) s.length).contents = d.contents ++ s := by
    rw [stringAppend_cstr h.valid, copied_of_noNul hs]
  refine ⟨⟨stringAppend_valid h.valid _ _, ?_⟩, hcontents⟩
  rw [hcontents, List.mem_append, not_or]
  exact ⟨h.noNul, hs⟩

theorem Clean.appendString {d t : StringT} (hd : Clean d) (ht : Clean t) :
    Clean (stringAppend d (cstr t.data) t.size) ∧
      (stringAppend d (cstr t.data) t.size).contents = d.contents ++ t.contents := by
  have hcontents := stringAppend_string hd.valid ht.valid ht.noNul
  refine ⟨⟨stringAppend_valid hd.valid _ _, ?_⟩, hcontents⟩
  rw [hcontents, List.mem_append, not_or]
  exact ⟨hd.noNul, ht.noNul⟩

theorem clean_stringInit : Clean stringInit := ⟨stringInit_valid, by simp⟩

end HtmlBenchmark
