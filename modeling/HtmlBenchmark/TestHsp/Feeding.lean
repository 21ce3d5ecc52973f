import HtmlBenchmark.TestHsp.OnePass

/-!
Which bytes of the page reach the parser.

The `while` loop advances the index before it tests whether the tag has ended,
and the `for` loop advances it again: the byte behind the `>` of an image is
never parsed, and neither is the last byte of a page that ends inside the tag.
So the parser sees the whole page exactly when no `img` is reported before the
last byte.
-/

namespace HtmlBenchmark.TestHsp

open Library StreamParser

/-- No `img` is reported after a proper prefix of the page. -/
def NoImgBeforeLast (g : Statics) (page : List UInt8) : Prop :=
  ∀ k, k + 1 < page.length → htmlParserCmpTag (parserAfter g page (k + 1)) TAG_IMG = false

/-- Every byte so far was parsed, and a `while` loop, if any, stands on the
last one. -/
structure Driver.Complete (g : Statics) (page : List UInt8) (d : Driver) : Prop where
  inStep : d.pc = .forTest ∧ page.length < d.i ∨ d.InStep g page
  parsed : d.parsed = page.take d.fed
  last : d.pc ≠ .forTest → d.i + 1 = page.length

theorem Driver.Stepped.complete {g : Statics} {page : List UInt8} (hno : NoImgBeforeLast g page)
    {d d' : Driver} (h : Driver.Stepped page d d') (hd : d.Complete g page) :
    d'.Complete g page := by
  cases h with
  | forBody hpc hi =>
      have hstep : d.InStep g page := hd.inStep.resolve_left (by omega)
      have hparsed : (d.forBody (page.getD d.i 0)).parsed = page.take (d.fed + 1) := by
        rw [forBody_parsed, hd.parsed, fed_forTest hpc,
          List.take_succ_eq_append_getElem hi, List.getElem_eq_getD 0]
      refine ⟨.inr (hstep.forBody hpc hi), by rw [hparsed, fed_forBody hpc], fun hne => ?_⟩
      have hbody := hstep.forBody_pc hpc hi
      split_ifs at hbody with himg
      · obtain ⟨-, hi'⟩ := Prod.mk.inj hbody
        -- an image reported here is reported at the last byte
        have hlast : ¬d.i + 1 < page.length := fun hlt => by simp [hno d.i hlt] at himg
        omega
      · exact absurd (Prod.mk.inj hbody).1 hne
  | whileBody imgSrc imgAlt hpc hi htag =>
      have := hd.last (by simp [hpc])
      omega
  | leave imgSrc imgAlt hpc hleave =>
      have hlast := hd.last (by simp [hpc])
      refine ⟨.inl ⟨rfl, ?_⟩, ?_, fun hne => absurd rfl hne⟩
      · simp only [next_i]
        omega
      · have hparsed := hd.parsed
        rw [fed_whileTest hpc, hlast] at hparsed
        rw [fed_forTest (next_pc _), next_parsed, next_i, List.take_of_length_le (by simp; omega)]
        simpa using hparsed

/-- On the way to the `img` reported after `k + 1` bytes, inside a `while` loop
that will skip a byte, or a byte behind. -/
def Driver.Losing (g : Statics) (page : List UInt8) (k : ℕ) (d : Driver) : Prop :=
  match d.pc with
  | .forTest =>
      d.i ≤ k ∧ d.InStep g page ∧ d.parsed.length = d.i ∨
        d.parsed.length < d.i ∧ d.parsed.length < page.length
  | .whileTest _ _ =>
      d.i + 1 < page.length ∧ d.parsed.length ≤ d.i + 1 ∨
        d.i < page.length ∧ d.parsed.length < d.i + 1

theorem Driver.losing_forTest {g : Statics} {page : List UInt8} {k : ℕ} {d : Driver}
    (h : d.pc = .forTest) :
    d.Losing g page k ↔ d.i ≤ k ∧ d.InStep g page ∧ d.parsed.length = d.i ∨
      d.parsed.length < d.i ∧ d.parsed.length < page.length := by
  simp only [Losing, h]

theorem Driver.losing_whileTest {g : Statics} {page : List UInt8} {k : ℕ} {d : Driver}
    {imgSrc imgAlt : Bool} (h : d.pc = .whileTest imgSrc imgAlt) :
    d.Losing g page k ↔ d.i + 1 < page.length ∧ d.parsed.length ≤ d.i + 1 ∨
      d.i < page.length ∧ d.parsed.length < d.i + 1 := by
  simp only [Losing, h]

theorem Driver.Stepped.losing {g : Statics} {page : List UInt8} {k : ℕ}
    (hk : k + 1 < page.length) (himg : htmlParserCmpTag (parserAfter g page (k + 1)) TAG_IMG)
    {d d' : Driver} (h : Driver.Stepped page d d') (hd : d.Losing g page k) :
    d'.Losing g page k := by
  cases h with
  | forBody hpc hi =>
      have hparsed : (d.forBody (page.getD d.i 0)).parsed.length = d.parsed.length + 1 := by
        simp [forBody_parsed]
      -- in step and short of the image, or a byte has been lost already
      rcases (losing_forTest hpc).mp hd with ⟨hle, hstep, hlen⟩ | ⟨hlt, hshort⟩
      · have hbody := hstep.forBody_pc hpc hi
        split_ifs at hbody with hfound
        · obtain ⟨hpc', hi'⟩ := Prod.mk.inj hbody
          exact (losing_whileTest hpc').mpr (.inl (by omega))
        · obtain ⟨hpc', hi'⟩ := Prod.mk.inj hbody
          have hne : d.i ≠ k := fun he => hfound (he ▸ himg)
          exact (losing_forTest hpc').mpr (.inl ⟨by omega, hstep.forBody hpc hi, by omega⟩)
      · have hbody := d.forBody_pc (page.getD d.i 0) hpc
        split_ifs at hbody
        · obtain ⟨hpc', hi'⟩ := Prod.mk.inj hbody
          exact (losing_whileTest hpc').mpr (.inr (by omega))
        · obtain ⟨hpc', hi'⟩ := Prod.mk.inj hbody
          exact (losing_forTest hpc').mpr (.inr (by omega))
  | whileBody imgSrc imgAlt hpc hi htag =>
      rw [losing_whileTest (whileBody_pc { d with i := d.i + 1 } _ imgSrc imgAlt hpc), whileBody_i,
        whileBody_parsed]
      rcases (losing_whileTest hpc).mp hd with hd | hd
      · left
        simp only [List.length_append, List.length_singleton]
        omega
      · right
        simp only [List.length_append, List.length_singleton]
        omega
  | leave imgSrc imgAlt hpc hleave =>
      rw [losing_forTest (next_pc _), next_i, next_parsed]
      right
      rcases (losing_whileTest hpc).mp hd with hd | hd
      · simp only
        omega
      · simp only
        omega

/-- **Which pages are parsed whole.** The bytes handed to the parser are the
bytes of the page, in order, exactly when no `img` is reported before the last
byte. -/
theorem parsed_eq_page_iff (g : Statics) (result : TestResult) (page : List UInt8) :
    (finish g result page).parsed = page ↔ NoImgBeforeLast g page := by
  constructor
  · intro hparsed k hk
    by_contra himg
    obtain ⟨hlosing, hpc, hi⟩ := finish_spec g result page
      (I := Driver.Losing g page k)
      ((Driver.losing_forTest rfl).mpr
        (.inl ⟨Nat.zero_le k, Driver.inStep_start g result page, rfl⟩))
      (fun d d' hd _ h => h.losing hk (by simpa using himg) hd)
    rcases (Driver.losing_forTest hpc).mp hlosing with ⟨hle, -, -⟩ | ⟨-, hshort⟩
    · omega
    · rw [hparsed] at hshort
      omega
  · intro hno
    obtain ⟨hcomplete, hpc, hi⟩ := finish_spec g result page
      (I := Driver.Complete g page)
      ⟨.inr (Driver.inStep_start g result page), rfl, fun hne => absurd rfl hne⟩
      (fun d d' hd _ h => h.complete hno hd)
    rw [hcomplete.parsed, Driver.fed_forTest hpc, List.take_of_length_le hi]

/-- The byte behind an image is lost. -/
theorem not_forall_parsed_eq_page :
    ¬∀ (g : Statics) (result : TestResult) (page : List UInt8), page.length ≤ 2147483647 →
      (finish g result page).parsed = page := by
  intro h
  have hpage := h {} {} (bytes "<img>x") (by decide)
  exact absurd hpage (by decide +kernel)

end HtmlBenchmark.TestHsp
