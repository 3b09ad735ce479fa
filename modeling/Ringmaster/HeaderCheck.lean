/-
# The check of the header

What the constructor of `YUV4MPEG` knows about the header line when it returns.  Every tag of
the width, the height and the color space has passed its test, but nothing requires that there
are such tags, and the test of the color space looks at four characters only.  Hence a file
that is accepted declares its size and an 8-bit format if and only if both tags are there, and
no tag names another variant of `C420` (`headerCheck_sound`).  Conversely a header that
declares them is accepted, whatever the order of its tags.
-/
import Ringmaster.Yuv4mpeg

namespace Ringmaster

namespace Yuv4mpeg

open OpenFile (Ready newline)

/-! ## What a header declares -/

/-- The tags of the header line. -/
def headerTags (content : Bytes) : List Bytes := (afterSignature content).line.splitOn space

/-- The tags of a kind are those with the same first character. -/
def IsTag (kind : Char) (tag : Bytes) : Prop := tag.head? = some kind.toUInt8

instance (kind : Char) (tag : Bytes) : Decidable (IsTag kind tag) :=
  inferInstanceAs (Decidable (_ = _))

/-- The color spaces with 8-bit samples and subsampled chroma planes. -/
def eightBitColorSpaces : List Bytes :=
  [['C', '4', '2', '0'], ['C', '4', '2', '0', 'j', 'p', 'e', 'g'],
    ['C', '4', '2', '0', 'm', 'p', 'e', 'g', '2'],
    ['C', '4', '2', '0', 'p', 'a', 'l', 'd', 'v']].map fun name => name.map Char.toUInt8

/-- The header declares a dimension: there is a tag of the kind, and every one has the value. -/
def DeclaresDimension (content : Bytes) (kind : Char) (dimension : UInt16) : Prop :=
  (∃ tag ∈ headerTags content, IsTag kind tag) ∧
    ∀ tag ∈ headerTags content, IsTag kind tag →
      strictStoi tag.tail = .ok (dimension.toNat : ℤ)

/-- The header declares the width, the height, and no color space other than an 8-bit one. -/
structure Declared (content : Bytes) (displayWidth displayHeight : UInt16) : Prop where
  width : DeclaresDimension content 'W' displayWidth
  height : DeclaresDimension content 'H' displayHeight
  color : ∀ tag ∈ headerTags content, IsTag 'C' tag → tag ∈ eightBitColorSpaces

/-! ## What the tests say about a tag -/

section Tests

variable {displayWidth displayHeight : UInt16} {tag : Bytes}

/-- A tag of a kind begins with its character. -/
theorem eq_cons_of_isTag {kind : Char} (h : IsTag kind tag) : tag = kind.toUInt8 :: tag.tail := by
  cases tag with
  | nil => simp [IsTag] at h
  | cons c value =>
    have hc : c = kind.toUInt8 := Option.some_inj.mp h
    rw [hc]
    rfl

/-- The test of a dimension. -/
theorem checkDimension_eq_ok_iff {value : Bytes} {dimension : UInt16} {what : String} :
    checkDimension value dimension what = .ok () ↔
      strictStoi value = .ok (dimension.toNat : ℤ) := by
  unfold checkDimension
  cases strictStoi value with
  | error e => simp
  | ok n =>
    dsimp only
    by_cases hn : n = dimension.toNat
    · rw [if_neg (not_not.mpr hn), hn]
      simp
    · rw [if_pos hn]
      simp [hn]

/-- The test of a width. -/
theorem checkToken_width (h : IsTag 'W' tag) :
    checkToken displayWidth displayHeight tag = .ok () ↔
      strictStoi tag.tail = .ok (displayWidth.toNat : ℤ) := by
  rw [eq_cons_of_isTag h, checkToken, if_pos rfl]
  exact checkDimension_eq_ok_iff

/-- The test of a height. -/
theorem checkToken_height (h : IsTag 'H' tag) :
    checkToken displayWidth displayHeight tag = .ok () ↔
      strictStoi tag.tail = .ok (displayHeight.toNat : ℤ) := by
  rw [eq_cons_of_isTag h, checkToken, if_neg (by decide), if_pos rfl]
  exact checkDimension_eq_ok_iff

/-- The test of a color space. -/
theorem checkToken_color (h : IsTag 'C' tag) :
    checkToken displayWidth displayHeight tag = .ok () ↔
      tag.take 4 = ['C', '4', '2', '0'].map Char.toUInt8 := by
  rw [eq_cons_of_isTag h, checkToken, if_neg (by decide), if_neg (by decide), if_pos rfl]
  split_ifs with htake
  · exact iff_of_false (by simp) htake
  · exact iff_of_true rfl (not_not.mp htake)

/-- The 8-bit color spaces pass. -/
theorem checkToken_of_mem (hmem : tag ∈ eightBitColorSpaces) (h : IsTag 'C' tag) :
    checkToken displayWidth displayHeight tag = .ok () := by
  have hfour : ∀ name ∈ eightBitColorSpaces,
      name.take 4 = ['C', '4', '2', '0'].map Char.toUInt8 := by decide
  exact (checkToken_color h).mpr (hfour tag hmem)

/-- Other tags are not tested. -/
theorem checkToken_other (hw : ¬ IsTag 'W' tag) (hh : ¬ IsTag 'H' tag) (hc : ¬ IsTag 'C' tag) :
    checkToken displayWidth displayHeight tag = .ok () := by
  cases tag with
  | nil => rfl
  | cons c value =>
    have hother : ∀ kind : Char, ¬ IsTag kind (c :: value) → c ≠ kind.toUInt8 := by
      rintro kind hnot rfl
      exact hnot rfl
    rw [checkToken, if_neg (hother _ hw), if_neg (hother _ hh), if_neg (hother _ hc)]

end Tests

/-! ## Soundness and completeness -/

section Header

variable {content : Bytes} {displayWidth displayHeight : UInt16} {loop : Bool}
  {ready : ℕ → Ready}

/-- What the constructor has tested when it returns. -/
theorem checkToken_of_construct {video : Yuv4mpeg}
    (h : construct (some content) displayWidth displayHeight loop ready = .ok video) :
    ∀ tag ∈ headerTags content, checkToken displayWidth displayHeight tag = .ok () :=
  forall_headerTokens_iff.mp (construct_eq_ok_iff.mp h).2.1

/-- A header with the declarations passes the tests. -/
theorem Declared.checkToken (h : Declared content displayWidth displayHeight) :
    ∀ tag ∈ headerTags content, checkToken displayWidth displayHeight tag = .ok () := by
  intro tag htag
  by_cases hw : IsTag 'W' tag
  · exact (checkToken_width hw).mpr (h.width.2 tag htag hw)
  by_cases hh : IsTag 'H' tag
  · exact (checkToken_height hh).mpr (h.height.2 tag htag hh)
  by_cases hc : IsTag 'C' tag
  · exact checkToken_of_mem (h.color tag htag hc) hc
  · exact checkToken_other hw hh hc

/-- The check of the header.  A file that the constructor accepts declares the width, the
height, and only 8-bit color spaces, if and only if there is a tag of a width, a tag of a
height, and no tag that begins with `C420` and is none of the four 8-bit names.  Conversely
the constructor accepts every file with the signature that declares them. -/
theorem headerCheck_sound :
    (∀ video, construct (some content) displayWidth displayHeight loop ready = .ok video →
      (Declared content displayWidth displayHeight ↔
        (∃ tag ∈ headerTags content, IsTag 'W' tag) ∧
        (∃ tag ∈ headerTags content, IsTag 'H' tag) ∧
        ∀ tag ∈ headerTags content, tag.take 4 = ['C', '4', '2', '0'].map Char.toUInt8 →
          tag ∈ eightBitColorSpaces)) ∧
    (y4mSignature <+: content → Declared content displayWidth displayHeight →
      ∃ video, construct (some content) displayWidth displayHeight loop ready = .ok video) := by
  constructor
  · intro video hconstruct
    have hcheck := checkToken_of_construct hconstruct
    constructor
    · intro h
      refine ⟨h.width.1, h.height.1, fun tag htag hfour => ?_⟩
      apply h.color tag htag
      cases tag with
      | nil => simp at hfour
      | cons c value =>
        rw [List.take_succ_cons, List.map_cons, List.cons.injEq] at hfour
        exact congrArg some hfour.1
    · rintro ⟨hw, hh, hc⟩
      refine ⟨⟨hw, fun tag htag hkind => ?_⟩, ⟨hh, fun tag htag hkind => ?_⟩,
        fun tag htag hkind => ?_⟩
      · exact (checkToken_width hkind).mp (hcheck tag htag)
      · exact (checkToken_height hkind).mp (hcheck tag htag)
      · exact hc tag htag ((checkToken_color hkind).mp (hcheck tag htag))
  · intro hsignature h
    exact ⟨_, construct_eq_ok_iff.mpr
      ⟨hsignature, forall_headerTokens_iff.mpr h.checkToken, rfl⟩⟩

/-- Tags with a space in front of each are the tags of the header line, after the empty one
behind the signature. -/
theorem headerTags_of_tags {tags : List Bytes} (hspace : ∀ tag ∈ tags, space ∉ tag)
    (hline : ∀ tag ∈ tags, newline ∉ tag) (rest : Bytes) :
    headerTags (y4mSignature ++ (tags.flatMap (fun tag => space :: tag) ++ newline :: rest))
      = [] :: tags := by
  have hjoin : ∀ (first : Bytes) (tags : List Bytes), [space].intercalate (first :: tags)
      = first ++ tags.flatMap (fun tag => space :: tag) := by
    intro first tags
    induction tags generalizing first with
    | nil => simp [List.intercalate_singleton]
    | cons tag tags ih =>
      rw [List.intercalate_cons_cons, ih, List.flatMap_cons]
      simp
  have hnotin : newline ∉ tags.flatMap (fun tag => space :: tag) := by
    rw [List.mem_flatMap]
    rintro ⟨tag, htag, hmem⟩
    rcases List.mem_cons.mp hmem with heq | hmem
    · exact absurd heq (by decide)
    · exact hline tag htag hmem
  have hret : (afterSignature (y4mSignature ++ (tags.flatMap (fun tag => space :: tag)
      ++ newline :: rest))).line = tags.flatMap (fun tag => space :: tag) := by
    have hinside : ∀ b ∈ tags.flatMap (fun tag => space :: tag),
        decide (b ≠ newline) = true := by
      intro b hb
      exact decide_eq_true (fun heq => hnotin (heq ▸ hb))
    rw [OpenFile.line, OpenFile.ahead, afterSignature, List.drop_left,
      List.takeWhile_append_of_pos hinside]
    simp
  have hnone : ∀ tag ∈ [] :: tags, space ∉ tag :=
    List.forall_mem_cons.mpr ⟨List.not_mem_nil, hspace⟩
  have hsplit := List.splitOn_intercalate space hnone (List.cons_ne_nil [] tags)
  rw [hjoin, List.nil_append] at hsplit
  rw [headerTags, hret, hsplit]

/-- A header line is accepted whatever the order of its tags and whatever other tags there
are, if the widths and heights are written in digits. -/
theorem exists_construct_of_tags {tags : List Bytes} (hspace : ∀ tag ∈ tags, space ∉ tag)
    (hline : ∀ tag ∈ tags, newline ∉ tag) (rest : Bytes)
    (hwidth : ∀ tag ∈ tags, IsTag 'W' tag → tag.tail ≠ [] ∧ (∀ c ∈ tag.tail, isDigit c) ∧
      decimal tag.tail = displayWidth.toNat)
    (hheight : ∀ tag ∈ tags, IsTag 'H' tag → tag.tail ≠ [] ∧ (∀ c ∈ tag.tail, isDigit c) ∧
      decimal tag.tail = displayHeight.toNat)
    (hcolor : ∀ tag ∈ tags, IsTag 'C' tag → tag ∈ eightBitColorSpaces) :
    ∃ video, construct
      (some (y4mSignature ++ (tags.flatMap (fun tag => space :: tag) ++ newline :: rest)))
      displayWidth displayHeight loop ready = .ok video := by
  have hdimension : ∀ (tag : Bytes) (dimension : UInt16), tag.tail ≠ [] →
      (∀ c ∈ tag.tail, isDigit c) → decimal tag.tail = dimension.toNat →
      strictStoi tag.tail = .ok (dimension.toNat : ℤ) := by
    intro tag dimension hne hdigits hvalue
    have hlt : dimension.toNat < 65536 := dimension.toNat_lt
    rw [strictStoi_digits hne hdigits (by omega), hvalue]
  refine ⟨_, construct_eq_ok_iff.mpr ⟨List.prefix_append _ _, ?_, rfl⟩⟩
  rw [forall_headerTokens_iff]
  show ∀ tag ∈ headerTags _, _
  rw [headerTags_of_tags hspace hline, List.forall_mem_cons]
  refine ⟨rfl, fun tag htag => ?_⟩
  by_cases hw : IsTag 'W' tag
  · obtain ⟨hne, hdigits, hvalue⟩ := hwidth tag htag hw
    exact (checkToken_width hw).mpr (hdimension tag displayWidth hne hdigits hvalue)
  by_cases hh : IsTag 'H' tag
  · obtain ⟨hne, hdigits, hvalue⟩ := hheight tag htag hh
    exact (checkToken_height hh).mpr (hdimension tag displayHeight hne hdigits hvalue)
  by_cases hc : IsTag 'C' tag
  · exact checkToken_of_mem (hcolor tag htag hc) hc
  · exact checkToken_other hw hh hc

end Header

/-- A file that consists of a header line with the given characters behind the signature. -/
def headerFile (line : List Char) : Bytes := y4mSignature ++ line.map Char.toUInt8 ++ [newline]

/-- The constructor accepts a header line whose tags pass their tests. -/
theorem exists_construct_headerFile {line : List Char} {displayWidth displayHeight : UInt16}
    (h : ∀ tag ∈ headerTags (headerFile line),
      checkToken displayWidth displayHeight tag = .ok ()) :
    ∃ video, construct (some (headerFile line)) displayWidth displayHeight true (fun _ => .one)
      = .ok video :=
  ⟨_, construct_eq_ok_iff.mpr ⟨by rw [headerFile, List.append_assoc]; exact List.prefix_append _ _,
    forall_headerTokens_iff.mpr h, rfl⟩⟩

/-- A header that declares an image of two by two samples. -/
theorem headerCheck_sound_twoByTwo : ∃ video,
    construct (some (headerFile [' ', 'W', '2', ' ', 'H', '2'])) 2 2 true (fun _ => .one)
      = .ok video ∧ Declared (headerFile [' ', 'W', '2', ' ', 'H', '2']) 2 2 := by
  obtain ⟨video, hconstruct⟩ := @exists_construct_headerFile [' ', 'W', '2', ' ', 'H', '2'] 2 2
    (by decide)
  refine ⟨video, hconstruct, (headerCheck_sound.1 video hconstruct).mpr ⟨?_, ?_, ?_⟩⟩
  · decide
  · decide
  · decide

/-- A file without any tag is accepted for every image size, and a file with samples of ten
bits is accepted. -/
theorem exists_not_declared :
    (∃ video, construct (some (headerFile [])) 640 480 true (fun _ => .one) = .ok video ∧
      ¬ Declared (headerFile []) 640 480) ∧
    ∃ video, construct (some (headerFile
        [' ', 'W', '2', ' ', 'H', '2', ' ', 'C', '4', '2', '0', 'p', '1', '0'])) 2 2 true
        (fun _ => .one) = .ok video ∧
      ¬ Declared (headerFile
        [' ', 'W', '2', ' ', 'H', '2', ' ', 'C', '4', '2', '0', 'p', '1', '0']) 2 2 := by
  constructor
  · obtain ⟨video, hconstruct⟩ := @exists_construct_headerFile [] 640 480 (by decide)
    refine ⟨video, hconstruct, fun h => ?_⟩
    exact absurd h.width.1 (by decide)
  · obtain ⟨video, hconstruct⟩ := @exists_construct_headerFile
      [' ', 'W', '2', ' ', 'H', '2', ' ', 'C', '4', '2', '0', 'p', '1', '0'] 2 2 (by decide)
    refine ⟨video, hconstruct, fun h => ?_⟩
    exact absurd h.color (by decide)

end Yuv4mpeg

end Ringmaster
