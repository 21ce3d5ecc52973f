import HtmlBenchmark.TestHsp.Phases
import HtmlBenchmark.TestHsp.Runs
import Mathlib.Algebra.Ring.Nat

/-!
The driver's inner text against the runs of the one pass.

`runsUpTo` cuts the page into runs. Behind every byte the driver has collected
what `Run.collected` says of the runs so far, and its inner-text buffer holds
what is left of the latest run. Whatever is then due, or collected twice, or
lost, is a matter of the single run.
-/

namespace HtmlBenchmark.TestHsp

open Library StreamParser Driver

/-! ### The runs of a page -/

/-- One byte more, with what the parser reports after it; the latest run comes
first. -/
def scanByte (runs : List Run) (hsp : HtmlStreamParser) (c : UInt8) : List Run :=
  if hsp.htmlPart.innerText then
    match runs with
    | [] => [{ text := [c] }]
    | r :: rs =>
        if hsp.htmlPart.innerTextBeginning then { text := [c] } :: r :: rs
        else { r with text := r.text ++ [c] } :: rs
  else if hsp.htmlPart.tagEnd then
    match runs with
    | [] => []
    | r :: rs => { r with ends := r.ends ++ [tagEndAt hsp] } :: rs
  else runs

def runsUpTo (g : Statics) (page : List UInt8) : ℕ → List Run
  | 0 => []
  | n + 1 => scanByte (runsUpTo g page n) (atByte g page n) (page.getD n 0)

def runsOf (g : Statics) (page : List UInt8) : List Run := runsUpTo g page page.length

def collectedOf (runs : List Run) : ℕ := (runs.map Run.collected).sum

def dueOf (runs : List Run) : ℕ := (runs.map Run.due).sum

/-- What is left of the latest run. -/
def leftOf : List Run → List UInt8
  | [] => []
  | r :: _ => r.left

theorem length_leftOf_le (runs : List Run) : (leftOf runs).length ≤ 8191 := by
  cases runs with
  | nil => exact Nat.zero_le _
  | cons r rs => exact r.length_left_le

/-- The latest run is not followed by a tag end. -/
def Fresh (runs : List Run) : Prop := ∃ text rs, runs = { text := text, ends := [] } :: rs

section Scan

variable {runs : List Run} {hsp : HtmlStreamParser} {c : UInt8}

theorem scanByte_tagEnd (runs : List Run) (c : UInt8) (hin : hsp.htmlPart.innerText = false)
    (h : hsp.htmlPart.tagEnd) :
    collectedOf (scanByte runs hsp c) =
        collectedOf runs + (tagEndAt hsp).collected (leftOf runs) ∧
      leftOf (scanByte runs hsp c) = (tagEndAt hsp).edit (leftOf runs) := by
  simp only [scanByte, hin, h, Bool.false_eq_true, if_false, if_true]
  cases runs with
  | nil =>
      have hblank : normalizeText [] = [] := rfl
      refine ⟨?_, ((tagEndAt hsp).edit_of_blank hblank).symm⟩
      cases tagEndAt hsp <;> rfl
  | cons r rs =>
      simp only [collectedOf, List.map_cons, List.sum_cons, Run.collected, Run.kept,
        collectedFrom_append, leftOf, Run.left, List.foldl_append, List.foldl_cons,
        List.foldl_nil, and_true]
      omega

theorem scanByte_other (hin : hsp.htmlPart.innerText = false) (h : hsp.htmlPart.tagEnd = false) :
    scanByte runs hsp c = runs := by
  simp [scanByte, hin, h]

/-- A byte of text collects nothing. -/
theorem scanByte_text (c : UInt8) (hin : hsp.htmlPart.innerText)
    (hfresh : hsp.htmlPart.innerTextBeginning = false → Fresh runs) :
    collectedOf (scanByte runs hsp c) = collectedOf runs ∧ Fresh (scanByte runs hsp c) ∧
      leftOf (scanByte runs hsp c) =
        ((if hsp.htmlPart.innerTextBeginning then [] else leftOf runs) ++ [c]).take 8191 := by
  simp only [scanByte, hin, if_true]
  by_cases hb : hsp.htmlPart.innerTextBeginning
  · cases runs with
    | nil => exact ⟨rfl, ⟨[c], [], rfl⟩, by simp [leftOf, Run.left, Run.kept, hb]⟩
    | cons r rs =>
        simp only [hb, if_true]
        exact ⟨by simp [collectedOf, Run.collected, collectedFrom], ⟨[c], r :: rs, rfl⟩,
          by simp [leftOf, Run.left, Run.kept]⟩
  · obtain ⟨text, rs, rfl⟩ := hfresh (by simpa using hb)
    simp only [hb, Bool.false_eq_true, if_false]
    refine ⟨by simp [collectedOf, Run.collected, collectedFrom], ⟨text ++ [c], rs, rfl⟩, ?_⟩
    simp only [leftOf, Run.left, Run.kept, List.foldl_nil]
    rw [List.take_append, List.take_append, List.take_take, Nat.min_self, List.length_take,
      show 8191 - min 8191 text.length = 8191 - text.length by omega]

end Scan

section OnePass

variable {g : Statics} {page : List UInt8}

theorem atByte_fresh {n : ℕ} (hn : n < page.length)
    (hin : (atByte g page n).htmlPart.innerText)
    (hb : (atByte g page n).htmlPart.innerTextBeginning = false) :
    (parserAfter g page n).htmlPart.innerText := by
  rw [atByte_control hn] at hin hb
  exact (Control.follows _ _).text hin hb

/-- While a text is read, the latest run is fresh. -/
theorem runsUpTo_fresh {n : ℕ} (hn : n ≤ page.length)
    (h : (parserAfter g page n).htmlPart.innerText) : Fresh (runsUpTo g page n) := by
  induction n with
  | zero => cases h
  | succ n ih =>
      exact (scanByte_text _ h fun hb => ih (by omega) (atByte_fresh (by omega) h hb)).2.1

end OnePass

/-! ### What a step does to the inner text -/

namespace Driver

theorem tagEndAt_congr {p q : HtmlStreamParser} (h : p.SameTags q) : tagEndAt p = tagEndAt q := by
  simp only [tagEndAt, h.cmpTag_eq, h.htmlPart_eq]

section Step

variable (d : Driver)

theorem collect_text (h : d.hsp.htmlPart.innerText = false) :
    d.collect.hsp.innerText.text = compactText d.hsp.innerText.text ∧
      d.collectLen = (normalizeText d.hsp.innerText.text).length := by
  have hlen : htmlParserInnerTextLength d.hsp = d.hsp.innerText.len := by
    simp [htmlParserInnerTextLength, h]
  rw [collect_hsp, collectLen, hlen]
  exact ⟨readAt_trimSpaces _ _, (trimSpaces_spec _ _).2.1⟩

theorem endTitle_text (h : d.hsp.htmlPart.innerText = false) (closing : Bool) :
    d.endTitle.hsp.innerText.text = (TagEnd.title closing).edit d.hsp.innerText.text := by
  have hlen : htmlParserInnerTextLength d.hsp = d.hsp.innerText.len := by
    simp [htmlParserInnerTextLength, h]
  simp only [endTitle, hlen, TextBuf.text, readAt_update, readAt_trimSpaces,
    (trimSpaces_spec _ _).1, TagEnd.edit]

@[simp] theorem endTitle_innerText_maxLen :
    d.endTitle.hsp.innerText.maxLen = d.hsp.innerText.maxLen := rfl

variable (c : UInt8)

theorem forBody_tagEnd (h : (htmlParserCharParse d.hsp c).htmlPart.tagEnd)
    (hin : (htmlParserCharParse d.hsp c).htmlPart.innerText = false) :
    let p := htmlParserCharParse d.hsp c
    (d.forBody c).result.totalInnertextBytes =
        d.result.totalInnertextBytes + (tagEndAt p).collected p.innerText.text ∧
      (d.forBody c).innertext.size = d.innertext.size + (tagEndAt p).collected p.innerText.text ∧
      (d.forBody c).hsp.innerText.text = (tagEndAt p).edit p.innerText.text ∧
      (d.forBody c).hsp.innerText.maxLen = p.innerText.maxLen := by
  have hhsp : (d.parse c).countHref.hsp = htmlParserCharParse d.hsp c := by
    rw [countHref_hsp, parse_hsp]
  have htotal : (d.parse c).countHref.result.totalInnertextBytes =
      d.result.totalInnertextBytes := by
    rw [countHref_result, parse_result]
  have hsize : (d.parse c).countHref.innertext.size = d.innertext.size := by
    rw [countHref_innertext]
    rfl
  rw [← hhsp] at h hin ⊢
  rw [← htotal, ← hsize]
  simp only [forBody, tagEndAt, h, Bool.true_and]
  generalize (d.parse c).countHref = e at hin
  obtain ⟨htext, hlen⟩ := e.collect_text hin
  split_ifs
  · exact ⟨rfl, rfl, rfl, rfl⟩
  · exact ⟨rfl, rfl, e.endTitle_text hin _, rfl⟩
  · simp only [next_result, next_innertext, next_hsp, TagEnd.collected, TagEnd.edit]
    exact ⟨by rw [collect_result, hlen], by rw [collect_innertext_size, hlen], htext,
      by rw [collect_hsp]⟩
  · exact ⟨rfl, rfl, rfl, rfl⟩

theorem forBody_not_tagEnd (h : (htmlParserCharParse d.hsp c).htmlPart.tagEnd = false) :
    (d.forBody c).result.totalInnertextBytes = d.result.totalInnertextBytes ∧
      (d.forBody c).innertext.size = d.innertext.size ∧
      (d.forBody c).hsp.innerText = (htmlParserCharParse d.hsp c).innerText := by
  simp only [forBody, countHref_hsp, parse_hsp, h, Bool.false_and, Bool.false_eq_true, if_false]
  split_ifs <;> simp [parse]

variable (imgSrc imgAlt : Bool)

theorem whileBody_innerText :
    (d.whileBody imgSrc imgAlt c).hsp.innerText = (htmlParserCharParse d.hsp c).innerText := by
  simp only [whileBody]
  split_ifs <;> simp [parse]

end Step

/-! ### The inner text on the way -/

/-- The driver has collected what the runs give. -/
structure Collected (base : TestResult) (runs : List Run) (d : Driver) : Prop where
  total : d.result.totalInnertextBytes = base.totalInnertextBytes + collectedOf runs
  size : d.innertext.size = collectedOf runs

/-- The inner-text buffer holds what is left of the latest run. -/
structure Holds (runs : List Run) (d : Driver) : Prop where
  room : d.hsp.innerText.maxLen = 8191
  text : d.hsp.innerText.text = leftOf runs

structure Collecting (g : Statics) (page : List UInt8) (base : TestResult) (d : Driver) :
    Prop where
  phase : d.Phase g page
  collected : d.Collected base (runsUpTo g page (min d.fed page.length))
  holds : d.i < page.length → d.Holds (runsUpTo g page d.fed)

variable {g : Statics} {page : List UInt8} {base : TestResult} {d : Driver}

/-- What the next byte of the page does to the buffer of the driver's parser,
before the driver looks at it. -/
theorem Holds.charParse {k : ℕ} (hk : k < page.length) (h : d.Holds (runsUpTo g page k))
    (hsame : (htmlParserCharParse d.hsp (page.getD k 0)).SameTags (atByte g page k)) :
    (htmlParserCharParse d.hsp (page.getD k 0)).innerText.maxLen = 8191 ∧
      ((htmlParserCharParse d.hsp (page.getD k 0)).htmlPart.innerText = false →
        (htmlParserCharParse d.hsp (page.getD k 0)).innerText.text =
          leftOf (runsUpTo g page k)) ∧
      ((htmlParserCharParse d.hsp (page.getD k 0)).htmlPart.innerText →
        (htmlParserCharParse d.hsp (page.getD k 0)).innerText.text =
            leftOf (runsUpTo g page (k + 1)) ∧
          collectedOf (runsUpTo g page (k + 1)) = collectedOf (runsUpTo g page k)) := by
  have hcontrol : htmlParserControl d.hsp.toControl (page.getD k 0) =
      (atByte g page k).toControl := by
    rw [← hsame.control, charParse_toControl]
  have hroom := h.room
  rw [charParse_innerText, hsame.htmlPart_eq]
  simp only [hcontrol]
  refine ⟨?_, fun hin => ?_, fun hin => ?_⟩
  · split_ifs <;> simp [hroom]
  · simp only [hin, Bool.false_eq_true, if_false]
    exact h.text
  · obtain ⟨hcol, -, hleft⟩ := scanByte_text (page.getD k 0) hin
      fun hb => runsUpTo_fresh hk.le (atByte_fresh hk hin hb)
    refine ⟨?_, hcol⟩
    rw [runsUpTo, hleft]
    simp only [hin, if_true, TextBuf.text_put]
    cases (atByte g page k).htmlPart.innerTextBeginning with
    | true => simp [TextBuf.clearIf, TextBuf.clear, TextBuf.text, readAt, hroom]
    | false =>
        have hlen : d.hsp.innerText.len ≤ 8191 := by
          rw [← TextBuf.length_text, h.text]
          exact length_leftOf_le _
        simp only [TextBuf.clearIf, Bool.false_eq_true, if_false, h.text, hroom]
        rw [Nat.max_eq_right hlen]

theorem Collecting.forBody (hd : d.Collecting g page base) (h : d.BeforeImg g page)
    (hphase : (d.forBody (page.getD d.i 0)).Phase g page) (hpc : d.pc = .forTest)
    (hi : d.i < page.length) : (d.forBody (page.getD d.i 0)).Collecting g page base := by
  have hcollected := hd.collected
  have hholds := hd.holds hi
  rw [fed_forTest hpc] at hcollected hholds
  rw [Nat.min_eq_left hi.le] at hcollected
  have hsame := h.inStep.atByte_for hpc hi
  obtain ⟨hroom, htag, htext⟩ := hholds.charParse hi hsame
  suffices hnext : (d.forBody (page.getD d.i 0)).Collected base (runsUpTo g page (d.i + 1)) ∧
      (d.forBody (page.getD d.i 0)).Holds (runsUpTo g page (d.i + 1)) by
    have hfed' := fed_forBody hpc (page.getD d.i 0)
    rw [fed_forTest hpc] at hfed'
    refine ⟨hphase, ?_, fun _ => ?_⟩
    · rw [hfed', Nat.min_eq_left hi]
      exact hnext.1
    · rw [hfed']
      exact hnext.2
  have hok := parserAfter_ok g page d.i
  -- a byte of a text, the end of a tag, or a byte inside a tag
  cases hin : (htmlParserCharParse d.hsp (page.getD d.i 0)).htmlPart.innerText with
  | true =>
      obtain ⟨htext', hcol⟩ := htext hin
      have hend : (htmlParserCharParse d.hsp (page.getD d.i 0)).htmlPart.tagEnd = false := by
        rw [hsame.htmlPart_eq] at hin ⊢
        exact ((atByte_ok d.i).control.inner hin).2.1
      obtain ⟨htotal, hsize, hinner⟩ := d.forBody_not_tagEnd _ hend
      exact ⟨⟨by rw [htotal, hcol, hcollected.total], by rw [hsize, hcol, hcollected.size]⟩,
        ⟨by rw [hinner, hroom], by rw [hinner, htext']⟩⟩
  | false =>
      have htext' := htag hin
      cases hend : (htmlParserCharParse d.hsp (page.getD d.i 0)).htmlPart.tagEnd with
      | true =>
          obtain ⟨htotal, hsize, hedit, hmax⟩ := d.forBody_tagEnd _ hend hin
          have hkind : tagEndAt (htmlParserCharParse d.hsp (page.getD d.i 0)) =
              tagEndAt (atByte g page d.i) := tagEndAt_congr hsame
          rw [hsame.htmlPart_eq] at hin hend
          obtain ⟨hcol, hleft⟩ := scanByte_tagEnd (runsUpTo g page d.i) (page.getD d.i 0) hin
            hend
          rw [htext', hkind] at htotal hsize hedit
          refine ⟨⟨?_, ?_⟩, ⟨by rw [hmax, hroom], by rw [hedit, runsUpTo, hleft]⟩⟩
          · rw [htotal, hcollected.total, runsUpTo, hcol, Nat.add_assoc]
          · rw [hsize, hcollected.size, runsUpTo, hcol]
      | false =>
          obtain ⟨htotal, hsize, hinner⟩ := d.forBody_not_tagEnd _ hend
          rw [hsame.htmlPart_eq] at hin hend
          rw [runsUpTo, scanByte_other hin hend]
          exact ⟨⟨by rw [htotal, hcollected.total], by rw [hsize, hcollected.size]⟩,
            ⟨by rw [hinner, hroom], by rw [hinner, htext']⟩⟩

/-- Inside the first image nothing is collected, and its end collects nothing. -/
theorem scanByte_firstImg {k₀ m : ℕ} (h : FirstImg g page k₀) (hm : m < page.length)
    (hk : k₀ ≤ m) (hopen : ∀ j < m, k₀ ≤ j → (atByte g page j).htmlPart.tagEnd = false) :
    (atByte g page m).htmlPart.innerText = false ∧
      collectedOf (runsUpTo g page (m + 1)) = collectedOf (runsUpTo g page m) ∧
      leftOf (runsUpTo g page (m + 1)) = leftOf (runsUpTo g page m) := by
  obtain ⟨hbehind, himg⟩ := h.goes_on hm hk hopen
  refine ⟨hbehind.innerText, ?_⟩
  cases hend : (atByte g page m).htmlPart.tagEnd with
  | true =>
      have hscan := scanByte_tagEnd (runsUpTo g page m) (page.getD m 0)
        hbehind.innerText hend
      have hkind : tagEndAt (atByte g page m) = .img := if_pos himg
      rw [hkind] at hscan
      exact hscan
  | false =>
      rw [runsUpTo, scanByte_other hbehind.innerText hend]
      exact ⟨rfl, rfl⟩

theorem Collecting.whileBody {k₀ : ℕ} {imgSrc imgAlt : Bool} (hd : d.Collecting g page base)
    (h : d.InImg g page k₀) (hpc : d.pc = .whileTest imgSrc imgAlt)
    (hi : d.i + 1 < page.length - 1) (htag : d.hsp.htmlPart.tagEnd = false) :
    (({ d with i := d.i + 1 } : Driver).whileBody imgSrc imgAlt
      (page.getD (d.i + 1) 0)).Collecting g page base := by
  have hbehind := h.behind
  have hcollected := hd.collected
  have hholds := hd.holds (by omega)
  rw [fed_whileTest hpc] at hcollected hholds
  rw [Nat.min_eq_left (by omega)] at hcollected
  have hsame := h.inStep.atByte_while hpc (by omega)
  obtain ⟨hroom, htext, -⟩ := hholds.charParse (by omega) hsame
  obtain ⟨hin, hcol, hleft⟩ := scanByte_firstImg h.first (m := d.i + 1) (by omega) (by omega)
    (h.opened_succ hpc htag)
  rw [hsame.htmlPart_eq] at htext
  have hfed' := fed_whileBody hpc (page.getD (d.i + 1) 0)
  rw [fed_whileTest hpc] at hfed'
  refine ⟨.inImg k₀ _ _ (whileBody_pc { d with i := d.i + 1 } _ imgSrc imgAlt hpc)
    (h.whileBody hpc hi htag), ?_, fun _ => ?_⟩
  · rw [hfed', Nat.min_eq_left (by omega)]
    exact ⟨by rw [whileBody_totalInnertextBytes, hcol]; exact hcollected.total,
      by rw [whileBody_innertext, hcol]; exact hcollected.size⟩
  · rw [hfed']
    exact ⟨by rw [whileBody_innerText, hroom], by rw [whileBody_innerText, htext hin, hleft]⟩

/-- The byte that may be left behind the `while` loop collects nothing. -/
theorem InImg.last_byte {k₀ : ℕ} {imgSrc imgAlt : Bool} (h : d.InImg g page k₀)
    (hpc : d.pc = .whileTest imgSrc imgAlt) (hi : d.i + 2 = page.length) :
    collectedOf (runsUpTo g page (d.i + 2)) = collectedOf (runsUpTo g page (d.i + 1)) := by
  have hbehind := h.behind
  have hstep := h.inStep
  rw [InStep, fed_whileTest hpc] at hstep
  cases htag : d.hsp.htmlPart.tagEnd with
  | false =>
      exact (scanByte_firstImg h.first (by omega) (by omega) (h.opened_succ hpc htag)).2.1
  | true =>
      rw [hstep.htmlPart_eq] at htag
      have hend : (atByte g page (d.i + 1)).htmlPart.tagEnd = false := by
        rw [atByte_control (by omega)]
        exact (parserAfter_ok g page (d.i + 1)).control.not_tagEnd_twice htag _
      cases hin : (atByte g page (d.i + 1)).htmlPart.innerText with
      | true =>
          refine (scanByte_text _ hin fun hb => ?_).1
          exact runsUpTo_fresh (by omega) (atByte_fresh (by omega) hin hb)
      | false => rw [runsUpTo, scanByte_other hin hend]

theorem Collecting.leave (hno : NoEarlyImgEnd g page) {k₀ : ℕ} {imgSrc imgAlt : Bool}
    (hd : d.Collecting g page base) (h : d.InImg g page k₀)
    (hpc : d.pc = .whileTest imgSrc imgAlt)
    (hleave : d.i + 1 < page.length - 1 → d.hsp.htmlPart.tagEnd = true) :
    (({ d with i := d.i + 1 } : Driver).next).Collecting g page base := by
  obtain ⟨hend, hi⟩ := h.leave hno hpc hleave
  have hcollected := hd.collected
  rw [fed_whileTest hpc, Nat.min_eq_left (by omega)] at hcollected
  have hlast : collectedOf (runsUpTo g page page.length) =
      collectedOf (runsUpTo g page (d.i + 1)) := by
    -- the loop is left on the last byte, or one short of it
    rcases Nat.lt_or_ge (d.i + 1) page.length with hlt | hge
    · rw [← h.last_byte hpc (by omega), show d.i + 2 = page.length by omega]
    · rw [show d.i + 1 = page.length by omega]
  refine ⟨.done rfl hend, ?_, fun hi' => ?_⟩
  · rw [fed_forTest (next_pc _), next_i, Nat.min_eq_right hend]
    exact ⟨by rw [hlast]; exact hcollected.total, by rw [hlast]; exact hcollected.size⟩
  · simp only [next_i] at hi'
    omega

theorem Stepped.collecting (hno : NoEarlyImgEnd g page) {d' : Driver} (hstep : Stepped page d d')
    (hd : d.Collecting g page base) : d'.Collecting g page base := by
  have hphase := hstep.phase hno hd.phase
  cases hstep.inPhase hd.phase with
  | forBody hpc hi h => exact hd.forBody h hphase hpc hi
  | whileBody k₀ imgSrc imgAlt hpc hi htag h => exact hd.whileBody h hpc hi htag
  | leave k₀ imgSrc imgAlt hpc hleave h => exact hd.leave hno h hpc hleave

end Driver

theorem finish_collected {g : Statics} {page : List UInt8} (hno : NoEarlyImgEnd g page)
    (result : TestResult) : (finish g result page).Collected result (runsOf g page) := by
  obtain ⟨hcollecting, hpc, hi⟩ := finish_spec g result page
    (I := Driver.Collecting g page result)
    ⟨phase_start g result page, ⟨rfl, rfl⟩, fun _ => ⟨rfl, rfl⟩⟩
    (fun d d' hd _ h => h.collecting hno hd)
  have hcollected := hcollecting.collected
  rwa [fed_forTest hpc, Nat.min_eq_right hi] at hcollected

/-! ### Agreement -/

/-- `test_hsp` collects what is due of every run, in its total and in the
string of all inner text. -/
structure InnerTextAgrees (g : Statics) (result : TestResult) (page : List UInt8) : Prop where
  total : (testHsp g result page).2.totalInnertextBytes =
    result.totalInnertextBytes + dueOf (runsOf g page)
  size : (finish g result page).innertext.size = dueOf (runsOf g page)

theorem collectedOf_eq_dueOf {runs : List Run} (h : ∀ r ∈ runs, r.CollectedOnce) :
    collectedOf runs = dueOf runs := by
  rw [collectedOf, dueOf, List.map_congr_left fun r hr => r.collected_eq_due_iff.mpr (h r hr)]

/-- **Inner text.** As long as no image ends before the last two bytes of the
page and every run is blank or collected once, `test_hsp` collects what is due. -/
theorem innerTextAgrees_of_collectedOnce {g : Statics} {page : List UInt8}
    (hno : NoEarlyImgEnd g page) (hruns : ∀ r ∈ runsOf g page, r.CollectedOnce)
    (result : TestResult) : InnerTextAgrees g result page := by
  have hcollected := finish_collected hno result
  have heq := collectedOf_eq_dueOf hruns
  exact ⟨heq ▸ hcollected.total, heq ▸ hcollected.size⟩

-- A loss and a repetition can make up for each other in the total.
example : collectedOf (runsOf {} (bytes "a<b>b</b></b>")) =
      dueOf (runsOf {} (bytes "a<b>b</b></b>")) ∧
    ¬∀ r ∈ runsOf {} (bytes "a<b>b</b></b>"), r.CollectedOnce := by decide +kernel

/-- A title and a paragraph, each closed by its own tag. -/
theorem innerTextAgrees_title_paragraph :
    NoEarlyImgEnd {} (bytes "<title>t</title><p>a  b</p>\n") ∧
      (∀ r ∈ runsOf {} (bytes "<title>t</title><p>a  b</p>\n"), r.CollectedOnce) ∧
      InnerTextAgrees {} {} (bytes "<title>t</title><p>a  b</p>\n") :=
  have hno : NoEarlyImgEnd {} (bytes "<title>t</title><p>a  b</p>\n") := by decide +kernel
  have hruns : ∀ r ∈ runsOf {} (bytes "<title>t</title><p>a  b</p>\n"), r.CollectedOnce := by
    decide +kernel
  ⟨hno, hruns, innerTextAgrees_of_collectedOnce hno hruns {}⟩

/-- The text of the paragraph is collected again at the next closing tag. -/
theorem not_forall_innerTextAgrees :
    ¬∀ (g : Statics) (result : TestResult) (page : List UInt8), page.length ≤ 2147483647 →
      InnerTextAgrees g result page := by
  intro h
  have htotal := (h {} {} (bytes "<p>a</p></div>") (by decide)).total
  exact absurd htotal (by decide +kernel)

end HtmlBenchmark.TestHsp
