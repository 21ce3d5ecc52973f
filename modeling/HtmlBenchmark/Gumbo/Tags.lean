import HtmlBenchmark.Gumbo.Adapter
import HtmlBenchmark.Gumbo.Decoding

/-!
Tags by name, as in `gumbo-parser/tag.c`.

The tokenizer does not search the table of the names. It looks a name up at one
place, which a generated function computes from its length and three of its
bytes, and compares it with the name that belongs there.
-/

namespace HtmlBenchmark.Gumbo

/-- `GumboTag`, with all tags of `tag_enum.h`. -/
inductive TagEnum
  | html | head | title | base | link | metaTag | style | script | noscript | template | body
  | article | sectionTag | nav | aside | h1 | h2 | h3 | h4 | h5 | h6 | hgroup | header | footer
  | address | p | hr | pre | blockquote | ol | ul | li | dl | dt | dd | figure | figcaption
  | main | div | a | em | strong | small | s | cite | q | dfn | abbr | data | time | code | var
  | samp | kbd | sub | sup | i | b | u | mark | ruby | rt | rp | bdi | bdo | span | br | wbr
  | ins | del | image | img | iframe | embed | object | param | video | audio | source | track
  | canvas | map | area | math | mi | mo | mn | ms | mtext | mglyph | malignmark
  | annotationXml | svg | foreignobject | desc | table | caption | colgroup | col | tbody
  | thead | tfoot | tr | td | th | form | fieldset | legend | label | input | button | select
  | datalist | optgroup | option | textarea | keygen | output | progress | meter | details
  | summary | menu | menuitem | applet | acronym | bgsound | dir | frame | frameset | noframes
  | isindex | listing | xmp | nextid | noembed | plaintext | rb | strike | basefont | big
  | blink | center | font | marquee | multicol | nobr | spacer | tt | rtc | unknown | last
  deriving DecidableEq, Repr

def kGumboTagNames : List String := [
  "html", "head", "title", "base", "link", "meta", "style", "script", "noscript", "template",
  "body", "article", "section", "nav", "aside", "h1", "h2", "h3", "h4", "h5", "h6", "hgroup",
  "header", "footer", "address", "p", "hr", "pre", "blockquote", "ol", "ul", "li", "dl", "dt",
  "dd", "figure", "figcaption", "main", "div", "a", "em", "strong", "small", "s", "cite", "q",
  "dfn", "abbr", "data", "time", "code", "var", "samp", "kbd", "sub", "sup", "i", "b", "u",
  "mark", "ruby", "rt", "rp", "bdi", "bdo", "span", "br", "wbr", "ins", "del", "image", "img",
  "iframe", "embed", "object", "param", "video", "audio", "source", "track", "canvas", "map",
  "area", "math", "mi", "mo", "mn", "ms", "mtext", "mglyph", "malignmark", "annotation-xml",
  "svg", "foreignobject", "desc", "table", "caption", "colgroup", "col", "tbody", "thead",
  "tfoot", "tr", "td", "th", "form", "fieldset", "legend", "label", "input", "button",
  "select", "datalist", "optgroup", "option", "textarea", "keygen", "output", "progress",
  "meter", "details", "summary", "menu", "menuitem", "applet", "acronym", "bgsound", "dir",
  "frame", "frameset", "noframes", "isindex", "listing", "xmp", "nextid", "noembed",
  "plaintext", "rb", "strike", "basefont", "big", "blink", "center", "font", "marquee",
  "multicol", "nobr", "spacer", "tt", "rtc", "", ""]

def kGumboTagSizes : List ℕ := [
  4, 4, 5, 4, 4, 4, 5, 6, 8, 8, 4, 7, 7, 3, 5, 2, 2, 2, 2, 2, 2, 6, 6, 6, 7, 1, 2, 3, 10, 2, 2,
  2, 2, 2, 2, 6, 10, 4, 3, 1, 2, 6, 5, 1, 4, 1, 3, 4, 4, 4, 4, 3, 4, 3, 3, 3, 1, 1, 1, 4, 4, 2,
  2, 3, 3, 4, 2, 3, 3, 3, 5, 3, 6, 5, 6, 5, 5, 5, 6, 5, 6, 3, 4, 4, 2, 2, 2, 2, 5, 6, 10, 14,
  3, 13, 4, 5, 7, 8, 3, 5, 5, 5, 2, 2, 2, 4, 8, 6, 5, 5, 6, 6, 8, 8, 6, 8, 6, 6, 8, 5, 7, 7, 4,
  8, 6, 7, 7, 3, 5, 8, 8, 7, 7, 3, 6, 7, 9, 2, 6, 8, 3, 5, 6, 4, 7, 8, 4, 6, 2, 3, 0, 0]

def gumboNormalizedTagname (tag : TagEnum) : List UInt8 :=
  bytes (kGumboTagNames.getD tag.ctorIdx "")

/-- `case_memcmp`, when it gives 0. -/
def caseMemcmp : ℕ → List UInt8 → List UInt8 → Bool
  | 0, _, _ => true
  | n + 1, c₁ :: s₁, c₂ :: s₂ => tolower c₁ = tolower c₂ && caseMemcmp n s₁ s₂
  | _ + 1, _, _ => false

/-- The table `asso_values` of `tag_hash`. -/
def assoValues : List ℕ := [
  296, 296, 296, 296, 296, 296, 296, 296, 296, 296, 296, 296, 296, 296, 296, 296, 296, 296,
  296, 296, 296, 296, 296, 296, 296, 296, 296, 296, 296, 296, 296, 296, 296, 296, 296, 296,
  296, 296, 296, 296, 296, 296, 296, 296, 296, 296, 296, 296, 296, 6, 4, 3, 1, 1, 0, 1, 0, 0,
  296, 296, 296, 296, 296, 296, 296, 22, 73, 151, 4, 13, 59, 65, 2, 69, 0, 134, 9, 16, 52, 55,
  28, 101, 0, 1, 6, 63, 126, 104, 93, 124, 296, 296, 296, 296, 296, 296, 296, 22, 73, 151, 4,
  13, 59, 65, 2, 69, 0, 134, 9, 16, 52, 55, 28, 101, 0, 1, 6, 63, 126, 104, 93, 124, 296, 296,
  296, 296, 296, 296, 296, 296, 296, 296, 296, 296, 296, 296, 296, 296, 296, 296, 296, 296,
  296, 296, 296, 296, 296, 296, 296, 296, 296, 296, 296, 296, 296, 296, 296, 296, 296, 296,
  296, 296, 296, 296, 296, 296, 296, 296, 296, 296, 296, 296, 296, 296, 296, 296, 296, 296,
  296, 296, 296, 296, 296, 296, 296, 296, 296, 296, 296, 296, 296, 296, 296, 296, 296, 296,
  296, 296, 296, 296, 296, 296, 296, 296, 296, 296, 296, 296, 296, 296, 296, 296, 296, 296,
  296, 296, 296, 296, 296, 296, 296, 296, 296, 296, 296, 296, 296, 296, 296, 296, 296, 296,
  296, 296, 296, 296, 296, 296, 296, 296, 296, 296, 296, 296, 296, 296, 296, 296, 296, 296,
  296, 296, 296, 296, 296, 296, 296, 296, 296]

def tagHash (str : List UInt8) : ℕ :=
  let value (i offset : ℕ) := assoValues.getD ((str.getD i 0).toNat + offset) 0
  let hval := str.length + if str.length = 1 then 0 else value 1 3
  (hval + value 0 0 + value (str.length - 1) 0) % 2 ^ 32

def kGumboTagMap : List TagEnum := [
  .last, .last, .last, .s, .h6, .h5, .h4, .h3, .spacer, .h2, .header, .h1, .head, .last,
  .details, .select, .dir, .last, .del, .last, .source, .legend, .datalist, .meter, .mglyph,
  .last, .math, .label, .table, .template, .last, .rp, .time, .title, .data, .applet, .hgroup,
  .samp, .textarea, .abbr, .marquee, .last, .menuitem, .small, .metaTag, .a, .last, .last, .last,
  .last, .embed, .map, .last, .param, .last, .last, .nobr, .p, .span, .em, .last, .noframes,
  .sectionTag, .noembed, .nextid, .footer, .noscript, .hr, .last, .font, .dl, .tr, .script,
  .mo, .last, .dd, .main, .td, .foreignobject, .form, .object, .last, .fieldset, .last,
  .bgsound, .menu, .tfoot, .figure, .rb, .li, .listing, .basefont, .optgroup, .last, .base,
  .address, .mi, .last, .plaintext, .last, .progress, .last, .last, .last, .acronym, .article,
  .last, .pre, .last, .last, .last, .area, .rt, .last, .option, .image, .dt, .last, .tt, .html,
  .wbr, .ol, .last, .style, .strike, .sup, .multicol, .u, .dfn, .ul, .figcaption, .mtext,
  .last, .var, .last, .last, .frameset, .last, .br, .i, .frame, .last, .div, .last, .th, .ms,
  .annotationXml, .b, .tbody, .thead, .big, .blockquote, .xmp, .last, .kbd, .last, .link,
  .iframe, .mark, .center, .output, .desc, .canvas, .col, .malignmark, .img, .aside, .last,
  .code, .last, .sub, .mn, .last, .last, .ins, .audio, .strong, .cite, .last, .last, .last,
  .input, .last, .last, .last, .nav, .last, .colgroup, .last, .last, .last, .last, .last, .svg,
  .keygen, .video, .bdo, .last, .last, .last, .last, .body, .last, .q, .last, .last, .last,
  .last, .track, .last, .bdi, .last, .last, .last, .caption, .last, .last, .last, .last, .last,
  .last, .ruby, .last, .last, .button, .summary, .last, .last, .last, .last, .last, .last,
  .last, .last, .last, .last, .last, .last, .last, .last, .last, .last, .last, .last, .last,
  .last, .last, .last, .last, .last, .last, .last, .last, .last, .last, .last, .last, .last,
  .rtc, .last, .last, .last, .last, .last, .last, .last, .last, .blink, .last, .last, .last,
  .last, .last, .last, .last, .last, .last, .last, .last, .last, .last, .last, .last, .last,
  .last, .last, .last, .last, .last, .last, .last, .last, .last, .last, .last, .isindex]

def gumboTagnEnum (tagname : List UInt8) : TagEnum :=
  if tagname.length ≠ 0 then
    match kGumboTagMap[tagHash tagname]? with
    | some tag =>
        if tagname.length = kGumboTagSizes.getD tag.ctorIdx 0 ∧
            caseMemcmp tagname.length tagname (gumboNormalizedTagname tag) then tag
        else .unknown
    | none => .unknown
  else .unknown

/-! ### The table -/

/-- The tags that have a name, in the order of `tag_enum.h`. -/
def namedTags : List TagEnum := (List.range 150).map TagEnum.ofNat

theorem namedTags_table : ∀ tag ∈ namedTags,
    kGumboTagMap[tagHash (gumboNormalizedTagname tag)]? = some tag ∧
      (gumboNormalizedTagname tag).length ≠ 0 := by
  decide +kernel

theorem kGumboTagMap_table : ∀ tag ∈ kGumboTagMap,
    (tag = .last ∨ tag ∈ namedTags) ∧
      kGumboTagSizes.getD tag.ctorIdx 0 = (gumboNormalizedTagname tag).length ∧
      (gumboNormalizedTagname tag).map tolower = gumboNormalizedTagname tag := by
  decide +kernel

theorem caseMemcmp_iff {s₁ s₂ : List UInt8} (h : s₁.length = s₂.length) :
    caseMemcmp s₁.length s₁ s₂ = true ↔ s₁.map tolower = s₂.map tolower := by
  induction s₁ generalizing s₂ with
  | nil =>
      obtain rfl := List.length_eq_zero_iff.mp h.symm
      simp [caseMemcmp]
  | cons c s₁ ih =>
      obtain ⟨c', s₂, rfl⟩ := List.exists_cons_of_length_eq_add_one h.symm
      simp [caseMemcmp, ih (Nat.succ.inj h)]

/-- The function asks for no letter in a way that depends on its case. -/
theorem tagHash_tolower (str : List UInt8) : tagHash (str.map tolower) = tagHash str := by
  have htable : ∀ b : UInt8, assoValues.getD ((tolower b).toNat + 0) 0 =
        assoValues.getD (b.toNat + 0) 0 ∧
      assoValues.getD ((tolower b).toNat + 3) 0 = assoValues.getD (b.toNat + 3) 0 :=
    forall_byte (by decide +kernel)
  have hget : ∀ i, (str.map tolower).getD i 0 = tolower (str.getD i 0) := by
    intro i
    simp only [List.getD_eq_getElem?_getD, List.getElem?_map]
    cases str[i]? <;> rfl
  simp only [tagHash, hget, List.length_map, (htable _).1, (htable _).2]

theorem gumboTagnEnum_of_mem {tag : TagEnum} (htag : tag ∈ namedTags) {tagname : List UInt8}
    (hname : gumboNormalizedTagname tag = tagname.map tolower) : gumboTagnEnum tagname = tag := by
  obtain ⟨hmap, hlength⟩ := namedTags_table tag htag
  rw [hname, tagHash_tolower] at hmap
  obtain ⟨-, hsize, hlower⟩ := kGumboTagMap_table tag (List.mem_of_getElem? hmap)
  have hsame : tagname.length = (gumboNormalizedTagname tag).length := by
    rw [hname, List.length_map]
  have hcompare : caseMemcmp tagname.length tagname (gumboNormalizedTagname tag) = true := by
    rw [caseMemcmp_iff hsame, hlower, hname]
  rw [gumboTagnEnum, if_pos (hsame ▸ hlength), hmap]
  exact if_pos ⟨hsame.trans hsize.symm, hcompare⟩

theorem gumboTagnEnum_cases (tagname : List UInt8) :
    gumboTagnEnum tagname = .unknown ∨
      gumboTagnEnum tagname ∈ namedTags ∧
        gumboNormalizedTagname (gumboTagnEnum tagname) = tagname.map tolower := by
  rw [gumboTagnEnum]
  split_ifs with hlength
  · split
    · rename_i tag hmap
      obtain ⟨hnamed, hsize, hlower⟩ := kGumboTagMap_table tag (List.mem_of_getElem? hmap)
      split_ifs with hmatch
      · obtain ⟨hsame, hcompare⟩ := hmatch
        rw [hsize] at hsame
        rw [caseMemcmp_iff hsame, hlower] at hcompare
        refine .inr ⟨hnamed.resolve_left ?_, hcompare.symm⟩
        rintro rfl
        exact hlength hsame
      · exact .inl rfl
    · exact .inl rfl
  · exact .inl rfl

/-- **Tags by name.** The one comparison finds what a search through all the
names finds, in any letter case. -/
theorem gumboTagnEnum_eq_find (tagname : List UInt8) :
    gumboTagnEnum tagname =
      (namedTags.find? fun tag => gumboNormalizedTagname tag = tagname.map tolower).getD
        .unknown := by
  cases hfind : namedTags.find? fun tag => gumboNormalizedTagname tag = tagname.map tolower with
  | some tag =>
      have hname := List.find?_some hfind
      exact gumboTagnEnum_of_mem (List.mem_of_find?_eq_some hfind) (decide_eq_true_eq.mp hname)
  | none =>
      rw [List.find?_eq_none] at hfind
      rcases gumboTagnEnum_cases tagname with hunknown | ⟨hmem, hname⟩
      · exact hunknown
      · exact absurd (decide_eq_true hname) (hfind _ hmem)

/-! ### The tags the walks ask for -/

def GumboTag.ofEnum : TagEnum → GumboTag
  | .a => .a
  | .img => .img
  | .script => .script
  | .style => .style
  | .title => .title
  | _ => .other

theorem CString.eq_of_bytes {s t : CString} (h : s.bytes = t.bytes) : s = t := by
  cases s
  cases t
  congr

/-- An element's tag, as the walks of `test_gumbo.c` take it, is the one its name
is looked up as. -/
theorem tagOf_eq_ofEnum (e : Element) :
    tagOf e.name = GumboTag.ofEnum (gumboTagnEnum e.name.bytes) := by
  have hlower : e.name.bytes.map tolower = e.name.bytes := e.lower
  have hfound : ∀ tag ∈ namedTags, gumboNormalizedTagname tag = e.name.bytes →
      gumboTagnEnum e.name.bytes = tag :=
    fun tag htag hname => gumboTagnEnum_of_mem htag (hname.trans hlower.symm)
  rw [tagOf]
  split_ifs with ha himg hscript hstyle htitle
  · rw [hfound .a (by decide +kernel) (by rw [ha]; decide +kernel)]
    rfl
  · rw [hfound .img (by decide +kernel) (by rw [himg]; decide +kernel)]
    rfl
  · rw [hfound .script (by decide +kernel) (by rw [hscript]; decide +kernel)]
    rfl
  · rw [hfound .style (by decide +kernel) (by rw [hstyle]; decide +kernel)]
    rfl
  · rw [hfound .title (by decide +kernel) (by rw [htitle]; decide +kernel)]
    rfl
  · have hname := (gumboTagnEnum_cases e.name.bytes).imp_right And.right
    rw [hlower] at hname
    have hne : ∀ {t : TagEnum} {s : CString}, e.name ≠ s → t ≠ .unknown →
        gumboNormalizedTagname t = s.bytes → gumboTagnEnum e.name.bytes ≠ t := by
      rintro t s hs ht htname rfl
      refine hs (CString.eq_of_bytes ?_)
      exact (hname.resolve_left ht).symm.trans htname
    have hother : ∀ tag : TagEnum, tag ≠ .a → tag ≠ .img → tag ≠ .script → tag ≠ .style →
        tag ≠ .title → GumboTag.ofEnum tag = .other := by
      intro tag
      unfold GumboTag.ofEnum
      split <;> simp
    exact (hother _ (hne ha (by decide) (by decide +kernel))
      (hne himg (by decide) (by decide +kernel)) (hne hscript (by decide) (by decide +kernel))
      (hne hstyle (by decide) (by decide +kernel))
      (hne htitle (by decide) (by decide +kernel))).symm

end HtmlBenchmark.Gumbo
