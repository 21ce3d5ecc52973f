import HtmlBenchmark.Gumbo.Utf8

/-!
The table of the decoder against UTF-8.

Behind the first bytes of a character the state of the decoder is settled by the
bytes to come and the value so far, and it is the rejecting one as soon as no
character is possible any more.
-/

namespace HtmlBenchmark.Gumbo

open Library Library.Utf8

/-- The state in which `k` of `n` tail bytes are to come behind the value `v`. -/
def stateOf (n k v : ℕ) : ℕ :=
  match k, n with
  | 0, _ => utf8Accept
  | 1, _ => 24
  | 2, 2 => if v = 0 then 48 else if v = 13 then 60 else 36
  | 2, _ => 36
  | _, _ => if v = 0 then 72 else if v = 4 then 96 else 84

theorem forall_byte {P : UInt8 → Prop} (h : ∀ i : Fin 256, P (UInt8.ofFin i)) (b : UInt8) : P b :=
  h b.toFin

theorem decode_lead_none {b : UInt8} (h : leadCount b = none) (codep : ℕ) :
    (decode utf8Accept codep b).1 = utf8Reject := by
  have htable : ∀ b : UInt8, leadCount b = none → (decode utf8Accept 0 b).1 = utf8Reject :=
    forall_byte (by decide +kernel)
  exact htable b h

theorem decode_lead {b : UInt8} {n : ℕ} (h : leadCount b = some n) (codep : ℕ) :
    (decode utf8Accept codep b).1 =
        (if Possible n n (b.toNat - leadMark n) then stateOf n n (b.toNat - leadMark n)
          else utf8Reject) ∧
      (Possible n n (b.toNat - leadMark n) →
        (decode utf8Accept codep b).2 = b.toNat - leadMark n) := by
  have htable : ∀ b : UInt8, ∀ n ∈ leadCount b,
      (decode utf8Accept 0 b).1 =
          (if Possible n n (b.toNat - leadMark n) then stateOf n n (b.toNat - leadMark n)
            else utf8Reject) ∧
        (Possible n n (b.toNat - leadMark n) →
          (decode utf8Accept 0 b).2 = b.toNat - leadMark n) :=
    forall_byte (by decide +kernel)
  exact htable b n h

/-- The bytes a state goes on with, and the state it goes on in. -/
def continues : ℕ → ℕ × ℕ × ℕ
  | 24 => (0x80, 0xbf, utf8Accept)
  | 36 => (0x80, 0xbf, 24)
  | 48 => (0xa0, 0xbf, 24)
  | 60 => (0x80, 0x9f, 24)
  | 72 => (0x90, 0xbf, 36)
  | 84 => (0x80, 0xbf, 36)
  | _ => (0x80, 0x8f, 36)

theorem decode_continues {s : ℕ} (hs : s ∈ [24, 36, 48, 60, 72, 84, 96]) (codep : ℕ) (b : UInt8) :
    (decode s codep b).1 =
      if (continues s).1 ≤ b.toNat ∧ b.toNat ≤ (continues s).2.1 then (continues s).2.2
      else utf8Reject := by
  have htable : ∀ b : UInt8, ∀ s ∈ [24, 36, 48, 60, 72, 84, 96], (decode s 0 b).1 =
      if (continues s).1 ≤ b.toNat ∧ b.toNat ≤ (continues s).2.1 then (continues s).2.2
      else utf8Reject :=
    forall_byte (by decide +kernel)
  exact htable b s hs

theorem decode_codePoint {s : ℕ} (hs : s ≠ utf8Accept) (codep : ℕ) {b : UInt8} (hb : IsTail b) :
    (decode s codep b).2 = codep * 64 + (b.toNat - 0x80) := by
  have hmask : b.toNat &&& 0x3f = b.toNat % 2 ^ 6 := Nat.and_two_pow_sub_one_eq_mod b.toNat 6
  simp only [decode, if_pos hs, hmask]
  rw [Nat.or_comm, ← Nat.shiftLeft_add_eq_or_of_lt (Nat.mod_lt _ (by decide)), Nat.shiftLeft_eq]
  unfold IsTail at hb
  omega

theorem stateOf_mem (n k v : ℕ) : stateOf n (k + 1) v ∈ [24, 36, 48, 60, 72, 84, 96] := by
  unfold stateOf
  split
  · omega
  all_goals try split_ifs
  all_goals simp

theorem continues_stateOf {n k v : ℕ} (hn : n ≤ 3) (hk : k + 1 ≤ n) (hv : Possible n (k + 1) v)
    (b : UInt8) :
    ((continues (stateOf n (k + 1) v)).1 ≤ b.toNat ∧
        b.toNat ≤ (continues (stateOf n (k + 1) v)).2.1 ↔
      IsTail b ∧ Possible n k (v * 64 + (b.toNat - 0x80))) ∧
    (continues (stateOf n (k + 1) v)).2.2 = stateOf n k (v * 64 + (b.toNat - 0x80)) := by
  have hkn : k ≤ 2 := by omega
  interval_cases k <;> interval_cases n <;>
    simp only [stateOf, Possible, lowest, highest, IsTail, Nat.reducePow, Nat.reduceAdd, true_and]
      at hv ⊢
  · simp only [continues, and_true]
    omega
  · simp only [continues, and_true]
    omega
  · simp only [continues, and_true]
    omega
  · split_ifs <;> simp only [continues, and_true] <;> omega
  · simp only [continues, and_true]
    omega
  · split_ifs <;> simp only [continues, and_true] <;> omega

/-- One byte more of a character that is still possible. -/
theorem decode_tail {n k v : ℕ} (hn : n ≤ 3) (hk : k + 1 ≤ n) (hv : Possible n (k + 1) v)
    (b : UInt8) :
    (decode (stateOf n (k + 1) v) v b).1 =
      if IsTail b ∧ Possible n k (v * 64 + (b.toNat - 0x80)) then
        stateOf n k (v * 64 + (b.toNat - 0x80))
      else utf8Reject := by
  obtain ⟨hbytes, hnext⟩ := continues_stateOf hn hk hv b
  rw [decode_continues (stateOf_mem n k v), hnext]
  exact if_congr hbytes rfl rfl

/-- What the loop ends with on a text that begins with a piece. -/
def scanOf : Piece → Scan
  | .char c => .accepted (String.utf8EncodeChar c).length c.toNat
  | .illFormed p => .rejected p.length
  | .truncated _ => .truncated

theorem live_ne {s : ℕ} (hs : s ∈ [24, 36, 48, 60, 72, 84, 96]) :
    s ≠ utf8Accept ∧ s ≠ utf8Reject := by
  revert s
  decide

/-- The loop behind the first bytes of a character. -/
theorem scan_narrows {p rest : List UInt8} {n k v : ℕ} (h : Narrows p n (k + 1) v) (hn : n ≤ 3)
    (hp : p ≠ []) (hv : Possible n (k + 1) v) :
    ∃ a, Heads a (p ++ rest) ∧ scan (stateOf n (k + 1) v) v p.length rest = scanOf a := by
  induction rest generalizing p k v with
  | nil =>
      have hstarts := (h.starts_iff hn hp).mpr hv
      refine ⟨.truncated p, ?_, rfl⟩
      have hsubpart : MaximalSubpart p (p ++ []) :=
        maximalSubpart_of_narrows h hp hstarts (by simp)
      rw [List.append_nil] at hsubpart ⊢
      exact .truncated hsubpart hstarts
  | cons b rest ih =>
      have hlength := h.length
      have hpos := List.length_pos_iff.mpr hp
      have hlive := live_ne (stateOf_mem n k v)
      have hstate := decode_tail hn (by omega) hv b
      rw [scan]
      by_cases hb : IsTail b ∧ Possible n k (v * 64 + (b.toNat - 0x80))
      · rw [if_pos hb] at hstate
        have hsnoc := h.snoc hp hb.1
        have hstarts := (hsnoc.starts_iff hn (by simp)).mpr hb.2
        rw [hstate, decode_codePoint hlive.1 v hb.1]
        cases k with
        | zero =>
            obtain ⟨c, hc, hvalue⟩ := hsnoc.eq_char hstarts
            refine ⟨.char c, .char ?_, ?_⟩
            · exact ⟨rest, by simp [hc]⟩
            · simp [stateOf, scanOf, hc, hvalue]
        | succ k =>
            have hlive' := live_ne (stateOf_mem n k (v * 64 + (b.toNat - 0x80)))
            rw [if_neg hlive'.1, if_neg hlive'.2, List.append_cons]
            have hrest := ih hsnoc (by simp) hb.2
            rwa [List.length_append, List.length_singleton] at hrest
      · rw [if_neg hb] at hstate
        have hnext : ¬Starts (p ++ [b]) := by
          by_cases htail : IsTail b
          · rw [(h.snoc hp htail).starts_iff hn (by simp)]
            exact fun hpossible => hb ⟨htail, hpossible⟩
          · exact h.not_starts_snoc hp htail
        refine ⟨.illFormed p, .illFormed ?_ ?_, ?_⟩
        · refine maximalSubpart_of_narrows h hp ((h.starts_iff hn hp).mpr hv) ?_
          rintro b' ⟨⟩
          exact hnext
        · rw [List.append_cons]
          exact fun hstarts => hnext (hstarts.of_prefix (List.prefix_append _ _))
        · rw [hstate, if_neg (by decide), if_pos rfl, if_neg (by omega)]
          rfl

theorem scan_not_starts {b : UInt8} (hstarts : ¬Starts [b]) (rest : List UInt8)
    (hstate : (decode utf8Accept 0 b).1 = utf8Reject) :
    Heads (.illFormed [b]) (b :: rest) ∧
      scan utf8Accept 0 0 (b :: rest) = scanOf (.illFormed [b]) := by
  refine ⟨.illFormed (maximalSubpart_singleton hstarts rest) ?_, ?_⟩
  · exact fun h => hstarts (h.of_prefix ⟨rest, rfl⟩)
  · rw [scan, hstate, if_neg (by decide), if_pos rfl]
    rfl

theorem exists_scan {text : List UInt8} (h : text ≠ []) :
    ∃ a, Heads a text ∧ scan utf8Accept 0 0 text = scanOf a := by
  obtain ⟨b, rest, rfl⟩ := List.exists_cons_of_ne_nil h
  cases hcount : leadCount b with
  | none =>
      exact ⟨_, scan_not_starts (not_starts_singleton hcount) rest (decode_lead_none hcount 0)⟩
  | some n =>
      have hn : n ≤ 3 := by grind [leadCount]
      have hnarrows := narrows_singleton hcount
      have hstarts := hnarrows.starts_iff hn (List.cons_ne_nil _ _)
      obtain ⟨hstate, hvalue⟩ := decode_lead hcount 0
      by_cases hv : Possible n n (b.toNat - leadMark n)
      · rw [if_pos hv] at hstate
        rw [scan, hstate, hvalue hv]
        cases n with
        | zero =>
            obtain ⟨c, hc, hchar⟩ := hnarrows.eq_char (hstarts.mpr hv)
            refine ⟨.char c, .char (by rw [hc]; exact ⟨rest, rfl⟩), ?_⟩
            simp [stateOf, scanOf, hc, hchar]
        | succ n =>
            have hlive := live_ne (stateOf_mem (n + 1) n (b.toNat - leadMark (n + 1)))
            rw [if_neg hlive.1, if_neg hlive.2]
            exact scan_narrows hnarrows hn (List.cons_ne_nil _ _) hv
      · rw [if_neg hv] at hstate
        exact ⟨_, scan_not_starts (fun h => hv (hstarts.mp h)) rest hstate⟩

/-- **The decoder.** The loop ends at a character if one is there, at the end of
the text if that cuts one off, and else behind the maximal subpart. -/
theorem scan_heads {text : List UInt8} {a : Piece} (h : Heads a text) :
    scan utf8Accept 0 0 text = scanOf a := by
  have hne : text ≠ [] := by
    rintro rfl
    exact h.bytes_ne_nil (List.prefix_nil.mp h.isPrefix)
  obtain ⟨b, hb, hscan⟩ := exists_scan hne
  rw [hscan, heads_unique h hb]

theorem exists_pieces (text : List UInt8) : ∃ pieces, Divides text pieces :=
  exists_divides (fun _ h => (exists_scan h).imp fun _ => And.left) text

end HtmlBenchmark.Gumbo
