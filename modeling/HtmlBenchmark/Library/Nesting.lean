import Mathlib.Data.List.Sublists
import Mathlib.Logic.Function.Basic

/-!
A list with markers in it, and a stack of some of its entries.

Entries are put in the list and on the stack at the same time, so that what the
list has before a marker is not above what it has behind it. It does not get
there when entries are dropped from either, renamed in both, or put at the top.
-/

namespace HtmlBenchmark.Library

variable {α : Type*} {l front back : List α}

theorem getElem?_append_cons (front back : List α) (x : α) :
    (front ++ x :: back)[front.length]? = some x := by
  rw [List.getElem?_append_right (Nat.le_refl _), Nat.sub_self, List.getElem?_cons_zero]

theorem eraseIdx_append_cons (front back : List α) (x : α) :
    (front ++ x :: back).eraseIdx front.length = front ++ back := by
  rw [List.eraseIdx_append_of_length_le (Nat.le_refl _), Nat.sub_self, List.eraseIdx_cons_zero]

theorem set_append_cons (front back : List α) (x y : α) :
    (front ++ x :: back).set front.length y = front ++ y :: back := by
  rw [List.set_append_right _ _ (Nat.le_refl _), Nat.sub_self, List.set_cons_zero]

theorem set_of_getElem? {i : ℕ} {x : α} (h : l[i]? = some x) : l.set i x = l := by
  obtain ⟨hlt, rfl⟩ := List.getElem?_eq_some_iff.mp h
  exact List.set_getElem_self hlt

theorem insertIdx_append (front back : List α) (i : ℕ) (x : α) :
    (front ++ back).insertIdx (front.length + i) x = front ++ back.insertIdx i x := by
  induction front with
  | nil => simp
  | cons y front ih =>
      rw [List.length_cons, Nat.succ_add, List.cons_append, List.insertIdx_succ_cons, ih,
        List.cons_append]

theorem idxOf?_append_cons [BEq α] [LawfulBEq α] {x : α} (h : x ∉ front) (back : List α) :
    (front ++ x :: back).idxOf? x = some front.length := by
  induction front with
  | nil => simp [List.idxOf?_cons]
  | cons y front ih =>
      rw [List.mem_cons, not_or] at h
      rw [List.cons_append, List.idxOf?_cons, if_neg (by simpa using Ne.symm h.1), ih h.2,
        Option.map_some, List.length_cons]

theorem sublist_of_getLast?_notMem (h : l.Sublist (front ++ back))
    (hlast : ∀ x ∈ l.getLast?, x ∉ back) : l.Sublist front := by
  obtain ⟨l₁, l₂, rfl, hfront, hback⟩ := List.sublist_append_iff.mp h
  cases l₂ using List.reverseRecOn with
  | nil => rwa [List.append_nil]
  | append_singleton l₂ x =>
      rw [← List.append_assoc, List.getLast?_concat] at hlast
      exact absurd (hback.subset (by simp)) (hlast x rfl)

theorem sublist_of_head?_notMem (h : l.Sublist (front ++ back))
    (hhead : ∀ x ∈ l.head?, x ∉ front) : l.Sublist back := by
  obtain ⟨l₁, l₂, rfl, hfront, hback⟩ := List.sublist_append_iff.mp h
  cases l₁ with
  | nil => exact hback
  | cons x l₁ => exact absurd (hfront.subset (by simp)) (hhead x rfl)

theorem exists_of_idxOf? [BEq α] [LawfulBEq α] {x : α} {i : ℕ} (h : l.idxOf? x = some i) :
    ∃ front back, l = front ++ x :: back ∧ x ∉ front ∧ i = front.length := by
  have hmem : x ∈ l := by
    by_contra hnot
    rw [List.idxOf?_eq_none_iff.mpr hnot] at h
    cases h
  obtain ⟨front, back, rfl, hfirst⟩ := List.eq_append_cons_of_mem hmem
  rw [idxOf?_append_cons hfirst] at h
  exact ⟨front, back, rfl, hfirst, (Option.some.inj h).symm⟩

/-- What stands behind the last marker. -/
theorem exists_segment (list : List (Option α)) : ∃ front seg, list = front ++ seg ∧
    none ∉ seg ∧ (front = [] ∨ ∃ f, front = f ++ [none]) := by
  induction list using List.reverseRecOn with
  | nil => exact ⟨[], [], rfl, List.not_mem_nil, .inl rfl⟩
  | append_singleton list entry ih =>
      cases entry with
      | none => exact ⟨list ++ [none], [], by simp, List.not_mem_nil, .inr ⟨list, rfl⟩⟩
      | some x =>
          obtain ⟨front, seg, rfl, hnone, hfront⟩ := ih
          exact ⟨front, seg ++ [some x], by simp, by simp [hnone], hfront⟩

/-- What is listed before a marker is listed neither behind it nor above it on the
stack. -/
def Nested (list : List (Option α)) (stack : List α) : Prop :=
  ∀ x y, [some x, none, some y].Sublist list → x ≠ y ∧ ¬[y, x].Sublist stack

variable {list list' seg : List (Option α)} {stack stack' : List α}

theorem nested_nil (stack : List α) : Nested [] stack :=
  fun _ _ hsub => absurd hsub (by simp)

theorem Nested.sublist (h : Nested list stack) (hlist : list'.Sublist list)
    (hstack : stack'.Sublist stack) : Nested list' stack' := fun x y hsub =>
  ⟨(h x y (hsub.trans hlist)).1, fun habove => (h x y (hsub.trans hlist)).2 (habove.trans hstack)⟩

/-- What is not listed may be anywhere on the top of the stack. -/
theorem Nested.push (h : Nested list stack) {new : List α} (hnew : ∀ x ∈ new, some x ∉ list) :
    Nested list (stack ++ new) := by
  intro x y hsub
  refine ⟨(h x y hsub).1, fun habove => (h x y hsub).2 ?_⟩
  refine sublist_of_getLast?_notMem habove fun x' hx hmem => hnew x' hmem ?_
  obtain rfl : x = x' := by simpa using hx
  exact hsub.subset (by simp)

/-- What is not listed may also be put in between. -/
theorem Nested.insert (h : Nested list (front ++ back)) {new : α} (hnew : some new ∉ list) :
    Nested list (front ++ new :: back) := by
  intro x y hsub
  refine ⟨(h x y hsub).1, fun habove => (h x y hsub).2 ?_⟩
  obtain ⟨l₁, l₂, heq, hfront, hback⟩ := List.sublist_append_iff.mp habove
  rcases List.sublist_cons_iff.mp hback with hback | ⟨r, rfl, -⟩
  · rw [heq]
    exact hfront.append hback
  · have hin : new ∈ [y, x] := by rw [heq]; simp
    refine absurd (hsub.subset ?_) hnew
    rcases List.mem_pair.mp hin with rfl | rfl <;> simp

theorem Nested.marker (h : Nested list stack) : Nested (list ++ [none]) stack := by
  intro x y hsub
  refine h x y (sublist_of_getLast?_notMem hsub fun e he => ?_)
  obtain rfl : some y = e := by simpa using he
  simp

/-- Behind the last marker there may be what is not below an entry before it. -/
theorem Nested.append {front : List (Option α)} (h : Nested front stack) (hnone : none ∉ seg)
    (hseg : ∀ x y, [some x, none].Sublist front → some y ∈ seg → x ≠ y ∧ ¬[y, x].Sublist stack) :
    Nested (front ++ seg) stack := by
  intro x y hsub
  by_cases hy : some y ∈ seg
  · have hmarker : [some x, none].Sublist [some x, none, some y] :=
      (List.prefix_append [some x, none] [some y]).sublist
    refine hseg x y (sublist_of_getLast?_notMem (hmarker.trans hsub) fun e he => ?_) hy
    obtain rfl : none = e := by simpa using he
    exact hnone
  · refine h x y (sublist_of_getLast?_notMem hsub fun e he => ?_)
    obtain rfl : some y = e := by simpa using he
    exact hy

theorem Nested.behind {front : List (Option α)} (h : Nested (front ++ seg) stack) {x y : α}
    (hx : [some x, none].Sublist front) (hy : some y ∈ seg) : x ≠ y ∧ ¬[y, x].Sublist stack :=
  h x y (hx.append (List.singleton_sublist.mpr hy))

/-- What is above something behind the last marker is not listed before it. -/
theorem Nested.notMem_front {front : List (Option α)} (h : Nested (front ++ seg) stack)
    (hfront : front = [] ∨ ∃ f, front = f ++ [none]) {x y : α} (hy : some y ∈ seg)
    (habove : x = y ∨ [y, x].Sublist stack) : some x ∉ front := by
  intro hmem
  rcases hfront with rfl | ⟨f, rfl⟩
  · exact absurd hmem List.not_mem_nil
  · have hx : [some x].Sublist f := List.singleton_sublist.mpr (by simpa using hmem)
    obtain ⟨hne, hbelow⟩ := h.behind (hx.append (List.Sublist.refl [none])) hy
    exact habove.elim hne hbelow

/-- Other names, which only tell more entries apart. -/
theorem Nested.rename {β : Type*} {f : β → α} {list : List (Option β)} {stack : List β}
    (h : Nested (list.map (Option.map f)) (stack.map f)) : Nested list stack := by
  intro x y hsub
  obtain ⟨hne, habove⟩ := h (f x) (f y) (hsub.map (Option.map f))
  exact ⟨fun heq => hne (congrArg f heq), fun hsub' => habove (hsub'.map f)⟩

/-- Where an entry is, in the list and on the stack, there may be a new one. -/
theorem Nested.set [DecidableEq α] (h : Nested list stack) {i k : ℕ} {x new : α}
    (hi : list[i]? = some (some x)) (hk : stack[k]? = some x) (hlist : some new ∉ list)
    (hstack : new ∉ stack) : Nested (list.set i (some new)) (stack.set k new) := by
  have hold : ∀ y ≠ new, Function.update id new x y = y := fun y hy => Function.update_of_ne hy _ _
  have hlist' : list.map (Option.map (Function.update id new x)) = list := by
    refine (List.map_congr_left fun entry hentry => ?_).trans (List.map_id _)
    cases entry with
    | none => rfl
    | some y => exact congrArg some (hold y fun heq => hlist (heq ▸ hentry))
  have hstack' : stack.map (Function.update id new x) = stack :=
    (List.map_congr_left fun y hy => hold y fun heq => hstack (heq ▸ hy)).trans (List.map_id _)
  -- by its old name, the new entry is where that was
  refine Nested.rename (f := Function.update id new x) ?_
  rw [List.map_set, List.map_set, Option.map_some, Function.update_self, hlist', hstack',
    set_of_getElem? hi, set_of_getElem? hk]
  exact h

end HtmlBenchmark.Library
