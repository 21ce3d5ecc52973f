import HtmlBenchmark.StreamParser.Accesses
import HtmlBenchmark.TestHsp.Steps
import HtmlBenchmark.Util.Appends

/-!
The accesses of `test_hsp` to its static buffers.

A step parses at most one byte and makes at most one edit behind it. The stores
of the step are those of the two; the reads are those of the bytes appended to
the collected text. `Fits` is the invariant: the room the parser is told of and
the lengths it keeps to. The room for a value and for a text is one byte less
than the array, and that byte is where the terminator goes when the text fills
the buffer and is all blank.
-/

namespace HtmlBenchmark.TestHsp

open Library StreamParser

/-- The sizes of the four arrays of `_test_hsp`. -/
def sizeOfBuffer : Buffer → ℕ
  | .tagName => 9
  | .attrName => 9
  | .attrValue => 128
  | .innerText => 8192

/-! ### The edits -/

/-- What the driver does in place once a byte is parsed. -/
inductive Edit
  | title | collect | alt

namespace Edit

def buffer : Edit → Buffer
  | .title => .innerText
  | .collect => .innerText
  | .alt => .attrValue

/-- The bytes and the length that `html_parser_trim` is called on. -/
def text (hsp : HtmlStreamParser) : Edit → Buf × ℕ
  | .title => (hsp.innerText.data, htmlParserInnerTextLength hsp)
  | .collect => (hsp.innerText.data, htmlParserInnerTextLength hsp)
  | .alt => (hsp.attrValue.data, htmlParserValLength hsp)

/-- Whether a 0 is stored at the pointer returned. -/
def cuts : Edit → Bool
  | .title => true
  | .collect => false
  | .alt => true

def stores (hsp : HtmlStreamParser) (edit : Edit) : List ((Buffer × ℕ) × UInt8) :=
  let b := (edit.text hsp).1
  let len := (edit.text hsp).2
  let trim := (trimSpaces b len).2.1
  inRegion edit.buffer (trimSpacesStores b len ++ if edit.cuts then [(trim, 0)] else [])

/-- The bytes `string_append` reads. -/
def reads (hsp : HtmlStreamParser) (edit : Edit) : List (Buffer × ℕ) :=
  match edit with
  | .collect =>
      let b := (edit.text hsp).1
      let len := (edit.text hsp).2
      let text := (trimSpaces b len).2.1
      let textLen := (trimSpaces b len).2.2
      (List.range textLen).map fun i => (.innerText, text + i)
  | _ => []

end Edit

/-- The edit in the body of the `for` loop. -/
def forEdit (hsp : HtmlStreamParser) : Option Edit :=
  if htmlParserCmpTag hsp TAG_IMG then none
  else if htmlParserCmpTag hsp TAG_ENDTITLE then
    if hsp.htmlPart.tagEnd then some .title else none
  else if hsp.htmlPart.tagEnd && hsp.htmlPart.closingTag then some .collect
  else none

/-- The edit in the body of the `while` loop. -/
def whileEdit (hsp : HtmlStreamParser) (imgAlt : Bool) : Option Edit :=
  if htmlParserCmpAttr hsp ATTR_SRC then none
  else if htmlParserCmpAttr hsp ATTR_ALT then
    if hsp.htmlPart.valueEnded && !imgAlt then some .alt else none
  else none

namespace Driver

/-- The byte that the step from a state parses, and the edit behind it. -/
def handled (page : List UInt8) (d : Driver) : Option (UInt8 × Option Edit) :=
  match d.pc with
  | .forTest =>
      if d.i < page.length then
        let c := page.getD d.i 0
        some (c, forEdit (htmlParserCharParse d.hsp c))
      else none
  | .whileTest _ imgAlt =>
      if d.i + 1 < page.length - 1 && !d.hsp.htmlPart.tagEnd then
        let c := page.getD (d.i + 1) 0
        some (c, whileEdit (htmlParserCharParse d.hsp c) imgAlt)
      else none

/-- The stores to the static buffers in the step from a state. -/
def stores (page : List UInt8) (d : Driver) : List ((Buffer × ℕ) × UInt8) :=
  match d.handled page with
  | none => []
  | some (c, edit) =>
      charParseStores d.hsp c ++
        (edit.map (Edit.stores (htmlParserCharParse d.hsp c))).getD []

/-- The reads of the bytes it appends to the collected text. -/
def reads (page : List UInt8) (d : Driver) : List (Buffer × ℕ) :=
  match d.handled page with
  | none => []
  | some (c, edit) => (edit.map (Edit.reads (htmlParserCharParse d.hsp c))).getD []

/-! ### What the edits leave -/

theorem memory_innerText (hsp : HtmlStreamParser) (stores : List (ℕ × UInt8)) :
    ({ hsp with innerText := { hsp.innerText with
        data := storeAll hsp.innerText.data stores } } : HtmlStreamParser).memory =
      storeAll hsp.memory (inRegion .innerText stores) := by
  funext ⟨r, i⟩
  rw [storeAll_inRegion]
  cases r <;> rfl

theorem memory_attrValue (hsp : HtmlStreamParser) (stores : List (ℕ × UInt8)) :
    ({ hsp with attrValue := { hsp.attrValue with
        data := storeAll hsp.attrValue.data stores } } : HtmlStreamParser).memory =
      storeAll hsp.memory (inRegion .attrValue stores) := by
  funext ⟨r, i⟩
  rw [storeAll_inRegion]
  cases r <;> rfl

theorem memory_endTitle (d : Driver) :
    d.endTitle.hsp.memory = storeAll d.hsp.memory (Edit.title.stores d.hsp) := by
  have hstores : Edit.title.stores d.hsp = inRegion .innerText
      (trimSpacesStores d.hsp.innerText.data (htmlParserInnerTextLength d.hsp) ++
        [((trimSpaces d.hsp.innerText.data (htmlParserInnerTextLength d.hsp)).2.1, 0)]) := rfl
  rw [hstores, ← memory_innerText, storeAll_append, ← trimSpaces_stores]
  rfl

theorem memory_collect (d : Driver) :
    d.collect.hsp.memory = storeAll d.hsp.memory (Edit.collect.stores d.hsp) := by
  have hstores : Edit.collect.stores d.hsp = inRegion .innerText
      (trimSpacesStores d.hsp.innerText.data (htmlParserInnerTextLength d.hsp) ++ []) := rfl
  rw [hstores, List.append_nil, ← memory_innerText, ← trimSpaces_stores, collect_hsp]

theorem memory_trimAlt (d : Driver) :
    d.trimAlt.hsp.memory = storeAll d.hsp.memory (Edit.alt.stores d.hsp) := by
  have hstores : Edit.alt.stores d.hsp = inRegion .attrValue
      (trimSpacesStores d.hsp.attrValue.data (htmlParserValLength d.hsp) ++
        [((trimSpaces d.hsp.attrValue.data (htmlParserValLength d.hsp)).2.1, 0)]) := rfl
  rw [hstores, ← memory_attrValue, storeAll_append, ← trimSpaces_stores]
  rfl

theorem innertext_collect {d : Driver} (h : d.innertext.Valid) :
    d.collect.innertext.Valid ∧
      d.collect.innertext.contents =
        d.innertext.contents ++ copied ((Edit.collect.reads d.hsp).map d.collect.hsp.memory) := by
  have hreads : (Edit.collect.reads d.hsp).map d.collect.hsp.memory =
      readAt (fun i => d.collect.hsp.innerText.data
        ((trimSpaces d.hsp.innerText.data (htmlParserInnerTextLength d.hsp)).2.1 + i)) 0
        d.collectLen := by
    rw [Edit.reads, List.map_map, readAt_eq_map]
    simp only [Nat.zero_add]
    rfl
  rw [hreads, ← strncpy_eq_copied, collect_hsp]
  simp only [collect]
  split_ifs with hlen
  · exact ⟨stringAppend_valid h _ _, stringAppend_contents h _ _⟩
  · rw [collectLen, not_not.mp hlen]
    exact ⟨h, (List.append_nil _).symm⟩

/-! ### The bodies -/

section Bodies

variable (d : Driver) (c : UInt8)

theorem memory_forBody : (d.forBody c).hsp.memory =
    storeAll d.hsp.memory (charParseStores d.hsp c ++
      ((forEdit (htmlParserCharParse d.hsp c)).map
        (Edit.stores (htmlParserCharParse d.hsp c))).getD []) := by
  have hhsp : (d.parse c).countHref.hsp = htmlParserCharParse d.hsp c := countHref_hsp _
  rw [storeAll_append, ← memory_charParse, ← hhsp]
  simp only [forBody, forEdit]
  generalize (d.parse c).countHref = e
  split_ifs
  · rfl
  · exact (congrArg _ e.endTitle.next_hsp).trans (memory_endTitle e)
  · rfl
  · exact (congrArg _ e.collect.next_hsp).trans (memory_collect e)
  · rfl

theorem memory_whileBody (imgSrc imgAlt : Bool) : (d.whileBody imgSrc imgAlt c).hsp.memory =
    storeAll d.hsp.memory (charParseStores d.hsp c ++
      ((whileEdit (htmlParserCharParse d.hsp c) imgAlt).map
        (Edit.stores (htmlParserCharParse d.hsp c))).getD []) := by
  rw [storeAll_append, ← memory_charParse, ← parse_hsp]
  simp only [whileBody, whileEdit]
  split_ifs
  · rfl
  · rfl
  · exact memory_trimAlt _
  · rfl
  · rfl

theorem innertext_forBody (h : d.innertext.Valid) :
    (d.forBody c).innertext.Valid ∧
      (d.forBody c).innertext.contents = d.innertext.contents ++
        copied ((((forEdit (htmlParserCharParse d.hsp c)).map
          (Edit.reads (htmlParserCharParse d.hsp c))).getD []).map (d.forBody c).hsp.memory) := by
  have hhsp : (d.parse c).countHref.hsp = htmlParserCharParse d.hsp c := countHref_hsp _
  have htext : (d.parse c).countHref.innertext = d.innertext := countHref_innertext _
  rw [← htext] at h ⊢
  rw [← hhsp]
  simp only [forBody, forEdit]
  generalize (d.parse c).countHref = e at h
  have hnone : ∀ memory : Buffer × ℕ → UInt8, e.innertext.Valid ∧
      e.innertext.contents =
        e.innertext.contents ++ copied (([] : List (Buffer × ℕ)).map memory) :=
    fun _ => ⟨h, (List.append_nil _).symm⟩
  split_ifs
  · exact hnone _
  · rw [next_innertext, endTitle_innertext]
    exact hnone _
  · exact hnone _
  · rw [next_innertext, next_hsp]
    exact innertext_collect h
  · exact hnone _

end Bodies

end Driver

/-! ### The room -/

/-- The parser is told of so much room, and keeps to it. -/
structure TextFits (b : TextBuf) (room : ℕ) : Prop where
  maxLen : b.maxLen = room
  len : b.len ≤ room

/-- The room `test_hsp` tells the parser of. -/
def roomOf : Buffer → ℕ
  | .tagName => 9
  | .attrName => 9
  | .attrValue => 127
  | .innerText => 8191

/-- The four texts of the parser as `test_hsp` configures them. -/
def Fits (hsp : HtmlStreamParser) : Prop := ∀ r, TextFits (hsp.textBuf r) (roomOf r)

theorem roomOf_le (r : Buffer) : roomOf r ≤ sizeOfBuffer r := by
  cases r <;> decide

theorem TextFits.clearIf {b : TextBuf} {room : ℕ} (h : TextFits b room) (fresh : Bool) :
    TextFits (b.clearIf fresh) room := by
  cases fresh with
  | false => exact h
  | true => exact ⟨h.maxLen, Nat.zero_le _⟩

theorem TextFits.put {b : TextBuf} {room : ℕ} (h : TextFits b room) (c : UInt8) :
    TextFits (b.put c) room := by
  have hmax := h.maxLen
  rw [TextBuf.put]
  split_ifs
  · exact ⟨hmax, by simp only; omega⟩
  · exact ⟨hmax, h.len⟩

/-- A byte is stored only where there is room for it. -/
theorem TextFits.putStores_lt {b : TextBuf} {room : ℕ} (h : TextFits b room) (c : UInt8) :
    ∀ s ∈ b.putStores c, s.1 < room := by
  intro s hs
  rw [TextBuf.putStores] at hs
  split_ifs at hs with hlt
  · rw [List.mem_singleton.mp hs, ← h.maxLen]
    exact hlt
  · cases hs

theorem Fits.charParse {hsp : HtmlStreamParser} (h : Fits hsp) (c : UInt8) :
    Fits (htmlParserCharParse hsp c) := by
  intro r
  rw [charParse_textBuf]
  simp only
  split_ifs
  · exact ((h r).clearIf _).put _
  · exact (h r).clearIf _

theorem fits_configured (g : Statics) : Fits (configured g) := by
  intro r
  cases r <;> exact ⟨rfl, Nat.zero_le _⟩

/-- Texts of the same lengths, with the same room. -/
structure SameRoom (hsp hsp' : HtmlStreamParser) : Prop where
  len : ∀ r, (hsp.textBuf r).len = (hsp'.textBuf r).len
  maxLen : ∀ r, (hsp.textBuf r).maxLen = (hsp'.textBuf r).maxLen

theorem SameRoom.refl (hsp : HtmlStreamParser) : SameRoom hsp hsp := ⟨fun _ => rfl, fun _ => rfl⟩

theorem Fits.of_sameRoom {hsp hsp' : HtmlStreamParser} (h : Fits hsp') (hroom : SameRoom hsp hsp') :
    Fits hsp := by
  intro r
  obtain ⟨hmax, hlen⟩ := h r
  exact ⟨(hroom.maxLen r).trans hmax, (hroom.len r).trans_le hlen⟩

/-! ### The bounds -/

/-- Stores to one buffer, within so much room. -/
theorem inRegion_lt {buffer : Buffer} {stores : List (ℕ × UInt8)} {room : ℕ}
    (h : ∀ s ∈ stores, s.1 < room) (hroom : room ≤ sizeOfBuffer buffer) :
    ∀ s ∈ inRegion buffer stores, s.1.2 < sizeOfBuffer s.1.1 := by
  intro s hs
  obtain ⟨hbuffer, hs⟩ := mem_inRegion.mp hs
  rw [hbuffer]
  exact (h _ hs).trans_le hroom

theorem Fits.charParseStores_lt {hsp : HtmlStreamParser} (h : Fits hsp) (c : UInt8) :
    ∀ s ∈ charParseStores hsp c, s.1.2 < sizeOfBuffer s.1.1 := by
  intro s hs
  have hoffset := mem_offsetsIn hs
  rw [offsetsIn_charParseStores] at hoffset
  split_ifs at hoffset
  · obtain ⟨s', hs', hoffset⟩ := List.mem_map.mp hoffset
    rw [← hoffset]
    exact (((h s.1.1).clearIf _).putStores_lt _ s' hs').trans_le (roomOf_le _)
  · cases hoffset

/-- The length of the text of an edit is that in its buffer, or 0. -/
theorem Edit.text_le (hsp : HtmlStreamParser) (edit : Edit) :
    (edit.text hsp).2 ≤ (hsp.textBuf edit.buffer).len := by
  cases edit with
  | title => exact innerTextLength_le hsp
  | collect => exact innerTextLength_le hsp
  | alt => exact valLength_le hsp

/-- Behind the text of an edit there is a byte left. -/
theorem Fits.text_lt {hsp : HtmlStreamParser} (h : Fits hsp) (edit : Edit) :
    (edit.text hsp).2 < sizeOfBuffer edit.buffer := by
  have hroom : roomOf edit.buffer < sizeOfBuffer edit.buffer := by
    cases edit <;> decide
  exact ((edit.text_le hsp).trans (h edit.buffer).len).trans_lt hroom

theorem Fits.edit_stores_lt {hsp : HtmlStreamParser} (h : Fits hsp) (edit : Edit) :
    ∀ s ∈ edit.stores hsp, s.1.2 < sizeOfBuffer s.1.1 := by
  have hlen := h.text_lt edit
  have htrim := trimSpaces_le (edit.text hsp).1 (edit.text hsp).2
  refine inRegion_lt (fun s hs => ?_) (Nat.le_refl _)
  rcases List.mem_append.mp hs with hs | hs
  · exact (trimSpacesStores_lt _ _ _ hs).trans hlen
  · -- the 0 goes behind the text if nothing else is left of it
    split_ifs at hs
    · rw [List.mem_singleton.mp hs]
      simp only
      omega
    · cases hs

theorem Fits.edit_reads_lt {hsp : HtmlStreamParser} (h : Fits hsp) (edit : Edit) :
    ∀ a ∈ edit.reads hsp, a.2 < sizeOfBuffer a.1 := by
  intro a ha
  cases edit with
  | title => cases ha
  | alt => cases ha
  | collect =>
      obtain ⟨i, hi, rfl⟩ := List.mem_map.mp ha
      have hlen := h.text_lt .collect
      have htrim := trimSpaces_le (Edit.collect.text hsp).1 (Edit.collect.text hsp).2
      have hroom : sizeOfBuffer Edit.collect.buffer = sizeOfBuffer .innerText := rfl
      rw [List.mem_range] at hi
      simp only
      omega

namespace Driver

/-- A state is in bounds, with all that the step from it accesses. The stores
account for the change of the buffers, the reads for what is appended. -/
structure InBounds (page : List UInt8) (d : Driver) : Prop where
  tagName : d.hsp.tagName.len ≤ 9
  attrName : d.hsp.attrName.len ≤ 9
  attrValue : d.hsp.attrValue.len ≤ 127
  innerText : d.hsp.innerText.len ≤ 8191
  stores : ∀ s ∈ d.stores page, s.1.2 < sizeOfBuffer s.1.1
  reads : ∀ a ∈ d.reads page, a.2 < sizeOfBuffer a.1
  stored : ∀ d', d.step page = some d' → d'.hsp.memory = storeAll d.hsp.memory (d.stores page)
  appended : ∀ d', d.step page = some d' → d'.innertext.contents =
    d.innertext.contents ++ copied ((d.reads page).map d'.hsp.memory)

structure InRoom (d : Driver) : Prop where
  fits : Fits d.hsp
  innertext : d.innertext.Valid

variable {d : Driver}

/-! The edits leave the lengths alone. -/

theorem endTitle_sameRoom (d : Driver) : SameRoom d.endTitle.hsp d.hsp := by
  constructor <;> (intro r; cases r <;> rfl)

theorem collect_sameRoom (d : Driver) : SameRoom d.collect.hsp d.hsp := by
  rw [collect_hsp]
  constructor <;> (intro r; cases r <;> rfl)

theorem trimAlt_sameRoom (d : Driver) : SameRoom d.trimAlt.hsp d.hsp := by
  constructor <;> (intro r; cases r <;> rfl)

theorem forBody_sameRoom (d : Driver) (c : UInt8) :
    SameRoom (d.forBody c).hsp (htmlParserCharParse d.hsp c) := by
  have hhsp : (d.parse c).countHref.hsp = htmlParserCharParse d.hsp c := countHref_hsp _
  rw [← hhsp]
  simp only [forBody]
  generalize (d.parse c).countHref = e
  split_ifs
  · exact .refl _
  · exact endTitle_sameRoom e
  · exact .refl _
  · rw [next_hsp]
    exact collect_sameRoom e
  · exact .refl _

theorem whileBody_sameRoom (d : Driver) (imgSrc imgAlt : Bool) (c : UInt8) :
    SameRoom (d.whileBody imgSrc imgAlt c).hsp (htmlParserCharParse d.hsp c) := by
  rw [← parse_hsp]
  simp only [whileBody]
  generalize d.parse c = e
  split_ifs
  · exact .refl _
  · exact .refl _
  · exact trimAlt_sameRoom e
  · exact .refl _
  · exact .refl _

theorem Stepped.inRoom {page : List UInt8} {d' : Driver} (hs : Stepped page d d')
    (h : d.InRoom) : d'.InRoom := by
  cases hs with
  | forBody hpc hi =>
      exact ⟨(h.fits.charParse _).of_sameRoom (d.forBody_sameRoom _),
        (innertext_forBody d _ h.innertext).1⟩
  | whileBody imgSrc imgAlt hpc hi htag =>
      refine ⟨(h.fits.charParse _).of_sameRoom
        (whileBody_sameRoom { d with i := d.i + 1 } imgSrc imgAlt _), ?_⟩
      rw [whileBody_innertext]
      exact h.innertext
  | leave imgSrc imgAlt hpc hleave => exact ⟨h.fits, h.innertext⟩

/-! ### The three kinds of step -/

section Handled

variable {page : List UInt8}

theorem handled_for (hpc : d.pc = .forTest) (hi : d.i < page.length) :
    d.handled page = some (page.getD d.i 0,
      forEdit (htmlParserCharParse d.hsp (page.getD d.i 0))) := by
  simp only [handled, hpc, hi, if_true]

theorem handled_while {imgSrc imgAlt : Bool} (hpc : d.pc = .whileTest imgSrc imgAlt)
    (hi : d.i + 1 < page.length - 1) (htag : d.hsp.htmlPart.tagEnd = false) :
    d.handled page = some (page.getD (d.i + 1) 0,
      whileEdit (htmlParserCharParse d.hsp (page.getD (d.i + 1) 0)) imgAlt) := by
  simp only [handled, hpc, hi, htag, decide_true, Bool.not_false, Bool.and_self, if_true]

theorem handled_leave {imgSrc imgAlt : Bool} (hpc : d.pc = .whileTest imgSrc imgAlt)
    (hleave : d.i + 1 < page.length - 1 → d.hsp.htmlPart.tagEnd = true) :
    d.handled page = none := by
  simp only [handled, hpc]
  refine if_neg fun h => ?_
  simp only [Bool.and_eq_true, decide_eq_true_eq, Bool.not_eq_true'] at h
  exact Bool.false_ne_true (h.2.symm.trans (hleave h.1))

/-- The stores of a step make the buffers of the next state out of those of the
last. -/
theorem Stepped.memory {d' : Driver} (hs : Stepped page d d') :
    d'.hsp.memory = storeAll d.hsp.memory (d.stores page) := by
  cases hs with
  | forBody hpc hi =>
      rw [stores, handled_for hpc hi]
      exact memory_forBody d _
  | whileBody imgSrc imgAlt hpc hi htag =>
      rw [stores, handled_while hpc hi htag]
      exact memory_whileBody { d with i := d.i + 1 } _ imgSrc imgAlt
  | leave imgSrc imgAlt hpc hleave =>
      rw [stores, handled_leave hpc hleave]
      rfl

theorem whileEdit_reads (hsp hsp' : HtmlStreamParser) (imgAlt : Bool) :
    ((whileEdit hsp imgAlt).map (Edit.reads hsp')).getD [] = [] := by
  rw [whileEdit]
  split_ifs <;> rfl

/-- The bytes appended in a step are those read, as they are behind its stores. -/
theorem Stepped.appended {d' : Driver} (hs : Stepped page d d') (h : d.innertext.Valid) :
    d'.innertext.contents =
      d.innertext.contents ++ copied ((d.reads page).map d'.hsp.memory) := by
  cases hs with
  | forBody hpc hi =>
      rw [reads, handled_for hpc hi]
      exact (innertext_forBody d _ h).2
  | whileBody imgSrc imgAlt hpc hi htag =>
      rw [reads, handled_while hpc hi htag, whileBody_innertext]
      simp only [whileEdit_reads]
      exact (List.append_nil _).symm
  | leave imgSrc imgAlt hpc hleave =>
      rw [reads, handled_leave hpc hleave]
      exact (List.append_nil _).symm

theorem stores_lt (h : Fits d.hsp) : ∀ s ∈ d.stores page, s.1.2 < sizeOfBuffer s.1.1 := by
  intro s hs
  rw [stores] at hs
  cases hhandled : d.handled page with
  | none =>
      rw [hhandled] at hs
      cases hs
  | some handled =>
      obtain ⟨c, edit⟩ := handled
      rw [hhandled] at hs
      rcases List.mem_append.mp hs with hs | hs
      · exact h.charParseStores_lt c s hs
      · cases edit with
        | none => cases hs
        | some edit => exact (h.charParse c).edit_stores_lt edit s hs

theorem reads_lt (h : Fits d.hsp) : ∀ a ∈ d.reads page, a.2 < sizeOfBuffer a.1 := by
  intro a ha
  rw [reads] at ha
  cases hhandled : d.handled page with
  | none =>
      rw [hhandled] at ha
      cases ha
  | some handled =>
      obtain ⟨c, edit⟩ := handled
      rw [hhandled] at ha
      cases edit with
      | none => cases ha
      | some edit => exact (h.charParse c).edit_reads_lt edit a ha

theorem InRoom.inBounds (h : d.InRoom) (page : List UInt8) : d.InBounds page where
  tagName := (h.fits .tagName).len
  attrName := (h.fits .attrName).len
  attrValue := (h.fits .attrValue).len
  innerText := (h.fits .innerText).len
  stores := stores_lt h.fits
  reads := reads_lt h.fits
  stored _ hstep := (step_cases hstep).memory
  appended _ hstep := (step_cases hstep).appended h.innertext

end Handled

end Driver

theorem inRoom_start (g : Statics) (result : TestResult) : (start g result).InRoom :=
  ⟨fits_configured g, stringInit_valid⟩

/-- **No step accesses a byte outside the buffers**, in any run of `test_hsp` on
any page. -/
theorem inBounds_run (g : Statics) (result : TestResult) (page : List UInt8) (n : ℕ) :
    ((loops page).run n (start g result)).InBounds page :=
  have hstep : ∀ d d', d.InRoom → (loops page).step d = some d' → d'.InRoom :=
    fun _ _ h hs => (Driver.step_cases hs).inRoom h
  (Machine.run_invariant hstep (inRoom_start g result) n).inBounds page

end HtmlBenchmark.TestHsp
