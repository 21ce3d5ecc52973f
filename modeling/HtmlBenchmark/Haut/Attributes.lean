import HtmlBenchmark.Haut.Adapter
import HtmlBenchmark.Library.Lists

/-!
Which attributes the handlers count.

The comparison reads no more bytes than the key has, so a key that is only the
beginning of the name passes, the empty key included; and it stops at a 0, so a
key that goes on behind the whole name and a 0 passes too. These keys over-match.
Every other key passes exactly when it is the name, and the counts are right as
long as no over-matching key turns up where it counts.
-/

namespace HtmlBenchmark.Haut

/-- The key is the name, in upper or lower case. -/
def IsName (key : StrFragment) (name : CString) : Prop :=
  key.size = name.bytes.length ∧ (readAt key.data 0 key.size).map tolower = name.bytes

/-- The key is a proper beginning of the name, or goes on behind the name and
a 0. -/
def OverMatches (key : StrFragment) (name : CString) : Prop :=
  key.size < name.bytes.length ∧
      (readAt key.data 0 key.size).map tolower = name.bytes.take key.size ∨
    name.bytes.length < key.size ∧
      (readAt key.data 0 name.bytes.length).map tolower = name.bytes ∧
      key.data name.bytes.length = 0

instance (key : StrFragment) (name : CString) : Decidable (IsName key name) :=
  inferInstanceAs (Decidable (_ ∧ _))

instance (key : StrFragment) (name : CString) : Decidable (OverMatches key name) :=
  inferInstanceAs (Decidable (_ ∧ _ ∨ _ ∧ _ ∧ _))

/-! ### The comparison -/

/-- What `strncasecmp` finds equal to a name in lower case. -/
theorem strncasecmp_cstr_iff {name : List UInt8} (hlower : name.map tolower = name)
    (hnul : 0 ∉ name) (n : ℕ) (s : Buf) :
    strncasecmp n s (cstr name) = true ↔
      n ≤ name.length ∧ (readAt s 0 n).map tolower = name.take n ∨
        name.length < n ∧ (readAt s 0 name.length).map tolower = name ∧ s name.length = 0 := by
  rw [strncasecmp]
  induction n generalizing s name with
  | zero => simp [cmpn, readAt]
  | succ n ih =>
      -- the comparison goes on only behind a character that is equal and not 0
      rw [cmpn, Bool.and_eq_true, Bool.or_eq_true, beq_iff_eq, beq_iff_eq]
      cases name with
      | nil =>
          have hzero : tolower (s 0) = tolower (cstr [] 0) ↔ s 0 = 0 := tolower_eq_zero
          simp only [hzero, List.length_nil, readAt, List.map_nil, true_and]
          constructor
          · exact fun h => .inr ⟨Nat.succ_pos n, h.1⟩
          · rintro (⟨hle, -⟩ | ⟨-, h⟩)
            · omega
            · exact ⟨h, .inl h⟩
      | cons c name =>
          simp only [List.mem_cons, not_or] at hnul
          simp only [List.map_cons, List.cons.injEq] at hlower
          have hshift : ∀ m, readAt s 1 m = readAt (fun i => s (i + 1)) 0 m := readAt_shift s
          have hrest := ih hlower.2 hnul.2 (fun i => s (i + 1))
          have htail : (fun i => cstr (c :: name) (i + 1)) = cstr name := rfl
          have hhead : tolower (cstr (c :: name) 0) = c := hlower.1
          rw [htail, hhead, hrest]
          simp only [readAt, Nat.zero_add, List.map_cons, List.length_cons, List.take_succ_cons,
            List.cons.injEq, Nat.add_le_add_iff_right, Nat.add_lt_add_iff_right, hshift]
          constructor
          · rintro ⟨hc, hzero | ⟨hle, hr⟩ | ⟨hlt, hr, hend⟩⟩
            · rw [hzero] at hc
              exact absurd hc hnul.1
            · exact .inl ⟨hle, hc, hr⟩
            · exact .inr ⟨hlt, ⟨hc, hr⟩, hend⟩
          · rintro (⟨hle, hc, hr⟩ | ⟨hlt, ⟨hc, hr⟩, hend⟩)
            · exact ⟨hc, .inr (.inl ⟨hle, hr⟩)⟩
            · exact ⟨hc, .inr (.inr ⟨hlt, hr, hend⟩)⟩

/-- A key passes the comparison if it is the name or over-matches. -/
theorem keyMatches_iff {key : StrFragment} {name : CString}
    (hlower : name.bytes.map tolower = name.bytes) :
    keyMatches key name = true ↔ IsName key name ∨ OverMatches key name := by
  rw [keyMatches, strncasecmp_cstr_iff hlower name.noNul, IsName, OverMatches]
  constructor
  · rintro (⟨hle, hr⟩ | h)
    -- a key within the length of the name passes as a prefix; only the full length is the name
    · rcases Nat.lt_or_eq_of_le hle with hlt | heq
      · exact .inr (.inl ⟨hlt, hr⟩)
      · rw [heq, List.take_length] at hr
        exact .inl ⟨heq, heq ▸ hr⟩
    · exact .inr (.inr h)
  · rintro (⟨heq, hr⟩ | ⟨hlt, hr⟩ | h)
    · exact .inl ⟨Nat.le_of_eq heq, by rw [hr, heq, List.take_length]⟩
    · exact .inl ⟨Nat.le_of_lt hlt, hr⟩
    · exact .inr h

/-! ### What is to be counted -/

/-- The events behind the first `element_open` of a body. -/
def afterBody : List HautEvent → List HautEvent
  | [] => []
  | .elementOpen tag :: events => if tag = .TAG_BODY then events else afterBody events
  | .attr _ _ :: events => afterBody events
  | .innertext _ _ :: events => afterBody events

/-- The event is an attribute of an element `tag` whose key satisfies `p`. -/
def HautEvent.isAttr (tag : HautTag) (p : StrFragment → Bool) : HautEvent → Bool
  | .attr t key => decide (t = tag) && p key
  | .elementOpen _ | .innertext _ _ => false

def nameCount (tag : HautTag) (name : CString) (events : List HautEvent) : ℕ :=
  (afterBody events).countP (HautEvent.isAttr tag fun key => IsName key name)

/-- No attribute of an element `tag` in the body has a key that over-matches. -/
def NoOverMatch (tag : HautTag) (name : CString) (events : List HautEvent) : Prop :=
  ∀ key, .attr tag key ∈ afterBody events → ¬OverMatches key name

/-! ### What the handlers count -/

/-- The key passes for `alt`: it is asked only if it does not pass for `src`. -/
def passesAlt (key : StrFragment) : Bool := !keyMatches key nameSrc && keyMatches key nameAlt

/-- The totals have grown by the attributes whose keys pass. -/
structure Counted (d d' : HautData) (events : List HautEvent) : Prop where
  href : d'.result.totalHref = d.result.totalHref +
    events.countP (HautEvent.isAttr .TAG_A fun key => keyMatches key nameHref)
  src : d'.result.totalSrc = d.result.totalSrc +
    events.countP (HautEvent.isAttr .TAG_IMG fun key => keyMatches key nameSrc)
  alt : d'.result.totalAlt = d.result.totalAlt +
    events.countP (HautEvent.isAttr .TAG_IMG passesAlt)
  images : d'.images = d.images +
    events.countP (HautEvent.isAttr .TAG_IMG fun key => keyMatches key nameSrc)

theorem Counted.trans {d d' d'' : HautData} {events events' : List HautEvent}
    (h : Counted d d' events) (h' : Counted d' d'' events') :
    Counted d d'' (events ++ events') where
  href := by rw [h'.href, h.href, List.countP_append, Nat.add_assoc]
  src := by rw [h'.src, h.src, List.countP_append, Nat.add_assoc]
  alt := by rw [h'.alt, h.alt, List.countP_append, Nat.add_assoc]
  images := by rw [h'.images, h.images, List.countP_append, Nat.add_assoc]

/-- Once in the body, an event counts itself, and the body is never left. -/
theorem event_counted {d : HautData} (h : d.inBody) (event : HautEvent) :
    Counted d (d.event event) [event] ∧ (d.event event).inBody := by
  cases event with
  | elementOpen tag =>
      simp only [HautData.event, elementOpen]
      split_ifs
      · exact ⟨⟨rfl, rfl, rfl, rfl⟩, rfl⟩
      · exact ⟨⟨rfl, rfl, rfl, rfl⟩, h⟩
  | attr tag key =>
      rw [HautData.event, attr, if_neg (by simp [h])]
      split_ifs with ha hhref himg hsrc halt
      · exact ⟨by constructor <;> simp [HautEvent.isAttr, ha, hhref], h⟩
      · exact ⟨by constructor <;> simp [HautEvent.isAttr, ha, hhref], h⟩
      · exact ⟨by constructor <;> simp [HautEvent.isAttr, passesAlt, himg, hsrc], h⟩
      · exact ⟨by constructor <;> simp [HautEvent.isAttr, passesAlt, himg, hsrc, halt], h⟩
      · exact ⟨by constructor <;> simp [HautEvent.isAttr, passesAlt, himg, hsrc, halt], h⟩
      · exact ⟨by constructor <;> simp [HautEvent.isAttr, ha, himg], h⟩
  | innertext tag text =>
      cases text with
      | none => exact ⟨⟨rfl, rfl, rfl, rfl⟩, h⟩
      | some text =>
          rw [HautData.event, innertext, if_pos h]
          exact ⟨⟨rfl, rfl, rfl, rfl⟩, h⟩

theorem events_counted {d : HautData} (h : d.inBody) (events : List HautEvent) :
    Counted d (d.events events) events := by
  induction events generalizing d with
  | nil => exact ⟨rfl, rfl, rfl, rfl⟩
  | cons event events ih =>
      obtain ⟨hone, hbody⟩ := event_counted h event
      exact hone.trans (ih hbody)

/-- In front of the body nothing is counted. -/
theorem events_counted_afterBody {d : HautData} (h : d.inBody = false) (events : List HautEvent) :
    Counted d (d.events events) (afterBody events) := by
  induction events generalizing d with
  | nil => exact ⟨rfl, rfl, rfl, rfl⟩
  | cons event events ih =>
      cases event with
      | elementOpen tag =>
          rw [HautData.events, List.foldl_cons, HautData.event, elementOpen, afterBody]
          split_ifs with htag
          · have hcounted := events_counted (d := { d with inBody := true }) rfl events
            exact ⟨hcounted.href, hcounted.src, hcounted.alt, hcounted.images⟩
          · exact ih h
      | attr tag key =>
          have hsame : d.event (.attr tag key) = d := by simp [HautData.event, attr, h]
          rw [HautData.events, List.foldl_cons, hsame]
          exact ih h
      | innertext tag text =>
          have hsame : d.event (.innertext tag text) = d := by
            cases text <;> simp [HautData.event, innertext, h]
          rw [HautData.events, List.foldl_cons, hsame]
          exact ih h

/-! ### Agreement -/

theorem not_overMatches_of_length {key : StrFragment} {name name' : CString} (h : IsName key name)
    (hlen : name.bytes.length = name'.bytes.length) : ¬OverMatches key name' := by
  have hsize := h.1
  rintro (⟨hlt, -⟩ | ⟨hlt, -⟩) <;> omega

/-- Counting the keys that pass is counting the names if and only if no key
over-matches. -/
theorem countP_keyMatches_iff (tag : HautTag) {name : CString}
    (hlower : name.bytes.map tolower = name.bytes) (events : List HautEvent) :
    (afterBody events).countP (HautEvent.isAttr tag fun key => keyMatches key name) =
        nameCount tag name events ↔
      NoOverMatch tag name events := by
  rw [nameCount, Library.countP_eq_iff]
  · constructor
    · intro h key hmem hover
      have hname := h _ hmem (by simp [HautEvent.isAttr, (keyMatches_iff hlower).mpr (.inr hover)])
      simp only [HautEvent.isAttr, decide_true, Bool.true_and, decide_eq_true_eq] at hname
      exact not_overMatches_of_length hname rfl hover
    · intro h event hmem
      cases event with
      | elementOpen t => exact id
      | innertext t text => exact id
      | attr t key =>
          simp only [HautEvent.isAttr, Bool.and_eq_true, decide_eq_true_eq]
          rintro ⟨rfl, hkey⟩
          exact ⟨rfl, ((keyMatches_iff hlower).mp hkey).resolve_right (h key hmem)⟩
  · intro event
    cases event with
    | elementOpen t => exact id
    | innertext t text => exact id
    | attr t key =>
        simp only [HautEvent.isAttr, Bool.and_eq_true, decide_eq_true_eq]
        rintro ⟨rfl, hname⟩
        exact ⟨rfl, (keyMatches_iff hlower).mpr (.inl hname)⟩

theorem lower_nameHref : nameHref.bytes.map tolower = nameHref.bytes := by decide
theorem lower_nameSrc : nameSrc.bytes.map tolower = nameSrc.bytes := by decide
theorem lower_nameAlt : nameAlt.bytes.map tolower = nameAlt.bytes := by decide

theorem not_isName_src_alt {key : StrFragment} (hsrc : IsName key nameSrc) :
    ¬IsName key nameAlt := by
  intro halt
  exact absurd (hsrc.2.symm.trans halt.2) (by decide)

/-- As long as no key over-matches `src`, asking for `src` first takes no key
away from `alt`. -/
theorem isAttr_passesAlt {events : List HautEvent} (hsrc : NoOverMatch .TAG_IMG nameSrc events) :
    (afterBody events).countP (HautEvent.isAttr .TAG_IMG passesAlt) =
      (afterBody events).countP (HautEvent.isAttr .TAG_IMG fun key => keyMatches key nameAlt) := by
  refine List.countP_congr fun event hmem => ?_
  cases event with
  | elementOpen t => exact Iff.rfl
  | innertext t text => exact Iff.rfl
  | attr t key =>
      simp only [HautEvent.isAttr, passesAlt, Bool.and_eq_true, decide_eq_true_eq,
        Bool.not_eq_true']
      constructor
      · rintro ⟨rfl, -, halt⟩
        exact ⟨rfl, halt⟩
      · rintro ⟨rfl, halt⟩
        refine ⟨rfl, Bool.eq_false_iff.mpr fun hkey => ?_, halt⟩
        have hname := ((keyMatches_iff lower_nameSrc).mp hkey).resolve_right (hsrc key hmem)
        rcases (keyMatches_iff lower_nameAlt).mp halt with hname' | hover
        · exact not_isName_src_alt hname hname'
        · have hlen : nameSrc.bytes.length = nameAlt.bytes.length := rfl
          exact not_overMatches_of_length hname hlen hover

/-- `test_haut` counts the attributes that have one of the names. -/
structure AttributesAgree (size : ℕ) (events : List HautEvent) (result : TestResult) : Prop where
  href : (testHaut size events result).totalHref =
    result.totalHref + nameCount .TAG_A nameHref events
  src : (testHaut size events result).totalSrc =
    result.totalSrc + nameCount .TAG_IMG nameSrc events
  alt : (testHaut size events result).totalAlt =
    result.totalAlt + nameCount .TAG_IMG nameAlt events
  images : (testHaut size events result).totalSrc =
    result.totalSrc + ((initial result).events events).images

/-- The number of images is the number of counted sources, whatever the keys. -/
theorem images_eq (size : ℕ) (events : List HautEvent) (result : TestResult) :
    (testHaut size events result).totalSrc =
      result.totalSrc + ((initial result).events events).images := by
  have hcounted := events_counted_afterBody (d := initial result) rfl events
  refine hcounted.src.trans ?_
  rw [hcounted.images]
  exact congrArg _ (Nat.zero_add _).symm

/-- **Attributes.** The counts are right exactly when in the body no attribute
of a link over-matches `href` and none of an image `src` or `alt`. -/
theorem attributesAgree_iff (size : ℕ) (events : List HautEvent) (result : TestResult) :
    AttributesAgree size events result ↔
      NoOverMatch .TAG_A nameHref events ∧ NoOverMatch .TAG_IMG nameSrc events ∧
        NoOverMatch .TAG_IMG nameAlt events := by
  have hcounted := events_counted_afterBody (d := initial result) rfl events
  rw [← countP_keyMatches_iff .TAG_A lower_nameHref, ← countP_keyMatches_iff .TAG_IMG lower_nameAlt]
  constructor
  · rintro ⟨hhref, hsrc, halt, -⟩
    have hno := (countP_keyMatches_iff .TAG_IMG lower_nameSrc events).mp
      (Nat.add_left_cancel (hcounted.src.symm.trans hsrc))
    refine ⟨Nat.add_left_cancel (hcounted.href.symm.trans hhref), hno, ?_⟩
    rw [← isAttr_passesAlt hno]
    exact Nat.add_left_cancel (hcounted.alt.symm.trans halt)
  · rintro ⟨hhref, hsrc, halt⟩
    have hcount := (countP_keyMatches_iff .TAG_IMG lower_nameSrc events).mpr hsrc
    rw [← isAttr_passesAlt hsrc] at halt
    refine ⟨hcounted.href.trans (congrArg _ hhref), hcounted.src.trans (congrArg _ hcount),
      hcounted.alt.trans (congrArg _ halt), images_eq size events result⟩

/-- An attribute named `h` is counted as a link. -/
theorem not_forall_attributesAgree :
    ¬∀ (size : ℕ) (events : List HautEvent) (result : TestResult),
      AttributesAgree size events result := by
  intro h
  have hhref := (h 0 [.elementOpen .TAG_BODY, .attr .TAG_A ⟨cstr (bytes "h=x>"), 1⟩] {}).href
  exact absurd hhref (by decide +kernel)

end HtmlBenchmark.Haut
