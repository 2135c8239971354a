import FuzzyRegion.Pg.Hex
import FuzzyRegion.Pg.TextRoundTrip

/-!
# The grammar of the text form

A literal is `v1;srid=` S `;levels=[` L `]`, where S is the word `null` or an integer and L is a
list of entries `alpha:hex` between commas, with descending alphas. Acceptance is spread over the
parser (first and last delimiters, one entry at a time, checks after the loop); taken together it
accepts these texts and no others.

## Main definitions

* `SridText`, `EntryText`, `LevelListText`: the parts of a literal and what they denote
* `Literal f64 input srid levels`: the text is a literal for the SRID and the levels

## Main results

* `parseEntry_eq_ok_iff`, `parseSrid_eq_ok_iff`, `parseLevels_eq_ok_iff`: the accepted parts
* `splitEnvelope_eq_some_iff`: the envelopes that are accepted
* `accepts_literals`: the parser accepts exactly the literals, and returns what they denote
-/

namespace FuzzyRegion

open Numeric Fallible StoredFuzzyregion

/-- The word `null`, or the text of an integer. -/
def SridText (text : List Char) (srid : Option Int32) : Prop :=
  (text = "null".toList ∧ srid = none) ∨ ∃ s, Text.i32FromStr text = some s ∧ srid = some s

/-- The text of a number in `(0, 1]`, and after the first colon a non-empty hexadecimal text. -/
inductive EntryText (f64 : F64Text) (entry : List Char) (level : F64 × List UInt8) : Prop where
  | intro {alphaText hex : List Char} (hcolon : Text.FirstOccurrence [':'] entry alphaText hex)
      (hvalue : f64.fromStr alphaText = some level.1) (hfinite : level.1.isFinite = true)
      (hpos : 0 < level.1.toRat) (hle : level.1.toRat ≤ 1) (hne : hex ≠ [])
      (hhex : HexText hex level.2)

/-- No text for no level, and otherwise the entries between commas. -/
inductive LevelListText (f64 : F64Text) :
    List Char → List (F64 × List UInt8) → Prop where
  | empty : LevelListText f64 [] []
  | entries {entries : List (List Char)} {levels : List (F64 × List UInt8)} (hne : entries ≠ [])
      (hcomma : ∀ entry ∈ entries, ',' ∉ entry)
      (hentries : List.Forall₂ (EntryText f64) entries levels) :
      LevelListText f64 ([','].intercalate entries) levels

/-- A trimmed text `v1;srid=` S `;levels=[` L `]`, where S ends at the first marker of the level
list. The alphas of L descend, and S is not `null` unless L is empty. -/
inductive Literal (f64 : F64Text) (input : List Char) (srid : Option Int32)
    (levels : List (F64 × List UInt8)) : Prop where
  | intro {rest sridText levelsText : List Char} (htrim : Text.trim input = textPrefix ++ rest)
      (hmarker : Text.FirstOccurrence textLevelsMarker rest sridText (levelsText ++ [']']))
      (hsrid : SridText sridText srid) (hlevels : LevelListText f64 levelsText levels)
      (hdesc : levels.Pairwise fun higher lower => lower.1.toRat < higher.1.toRat)
      (hpresent : levelsText ≠ [] → sridText ≠ "null".toList)

namespace SqlFuzzyregion

variable {f64 : F64Text}

/-! ## Parts -/

theorem parseSrid_eq_ok_iff {text : List Char} {srid : Option Int32} :
    parseSrid text = .ok srid ↔ SridText text srid := by
  rw [parseSrid, SridText]
  split_ifs with hnull
  · -- the word is no integer
    have hword : Text.i32FromStr text = none := by
      rw [hnull]
      decide
    constructor
    · intro h
      exact Or.inl ⟨hnull, (Except.ok.inj h).symm⟩
    · rintro (⟨-, rfl⟩ | ⟨s, hs, -⟩)
      · rfl
      · cases hword.symm.trans hs
  · cases hs : Text.i32FromStr text with
    | none =>
      refine iff_of_false (by simp) ?_
      rintro (⟨hword, -⟩ | ⟨s, hs', -⟩)
      · exact hnull hword
      · cases hs'
    | some s =>
      constructor
      · intro h
        exact Or.inr ⟨s, rfl, (Except.ok.inj h).symm⟩
      · rintro (⟨hword, -⟩ | ⟨s', hs', rfl⟩)
        · exact absurd hword hnull
        · rw [Option.some.inj hs']

/-- What an entry denotes. -/
def levelData (level : StoredLevel) : F64 × List UInt8 := (level.alpha.value, level.geometryEwkb)

/-- An entry is accepted exactly when it is an entry text, for the level that it denotes. -/
theorem parseEntry_eq_ok_iff {entry : List Char} {level : StoredLevel} :
    parseEntry f64 entry = .ok level ↔ EntryText f64 entry (levelData level) := by
  have hcolon : [':'] ≠ [] := List.cons_ne_nil _ _
  constructor
  · intro h
    rw [parseEntry] at h
    cases hsplit : Text.splitOnce [':'] entry with
    | none =>
      rw [hsplit] at h
      cases h
    | some parts =>
      obtain ⟨alphaText, hex⟩ := parts
      rw [hsplit] at h
      cases hvalue : f64.fromStr alphaText with
      | none =>
        simp only [hvalue] at h
        cases h
      | some value =>
        simp only [hvalue, ok_bind, bind_eq_ok_iff, mapError_eq_ok_iff, decodeHex_eq_ok_iff,
          StoredLevel.new_eq_ok_iff] at h
        obtain ⟨alpha, halpha, ewkb, hhex, rfl, rfl⟩ := h
        obtain rfl := Alpha.value_of_tryFrom halpha
        -- an empty text would denote no byte
        have hne : hex ≠ [] := by
          rintro rfl
          have hlen := hhex.length_eq
          exact level.nonEmpty (List.eq_nil_of_length_eq_zero (by simpa using hlen.symm))
        exact .intro ((Text.splitOnce_eq_some_iff hcolon).mp hsplit) hvalue level.alpha.finite
          level.alpha.toRat_pos level.alpha.toRat_le_one hne hhex
  · rintro ⟨hsplit, hvalue, -, -, -, -, hhex⟩
    simp only [levelData] at hvalue hhex
    rw [parseEntry, (Text.splitOnce_eq_some_iff hcolon).mpr hsplit]
    simp only [hvalue, ok_bind, Alpha.tryFrom_value, mapError_ok, decodeHex_eq_ok_iff.mpr hhex,
      StoredLevel.new_eq_ok_iff.mpr ⟨rfl, rfl⟩]

theorem not_entryText_nil {level : F64 × List UInt8} : ¬ EntryText f64 [] level := by
  rintro ⟨hcolon, -⟩
  simpa using hcolon.eq

/-- The entries of a level list text are its parts between commas. -/
theorem levelListText_iff {text : List Char} {levels : List (F64 × List UInt8)} :
    LevelListText f64 text levels ↔
      (text = [] ∧ levels = []) ∨ List.Forall₂ (EntryText f64) (text.splitOn ',') levels := by
  constructor
  · intro h
    cases h with
    | empty => exact Or.inl ⟨rfl, rfl⟩
    | entries hne hcomma hentries =>
      rw [Text.splitOn_eq_iff.mpr ⟨hne, hcomma, rfl⟩]
      exact Or.inr hentries
  · rintro (⟨rfl, rfl⟩ | hentries)
    · exact .empty
    · obtain ⟨hne, hcomma, htext⟩ := Text.splitOn_eq_iff.mp (Eq.refl (text.splitOn ','))
      rw [htext]
      exact .entries hne hcomma hentries

/-- Only the empty text denotes no level. -/
theorem levels_eq_nil_iff {text : List Char} {levels : List (F64 × List UInt8)}
    (h : LevelListText f64 text levels) : levels = [] ↔ text = [] := by
  cases h with
  | empty => exact iff_of_true rfl rfl
  | @entries entries levels hne hcomma hentries =>
    refine iff_of_false ?_ fun htext => ?_
    · rintro rfl
      exact hne (List.forall₂_nil_right_iff.mp hentries)
    · have hsplit := Text.splitOn_eq_iff.mpr ⟨hne, hcomma, rfl⟩
      rw [htext, List.splitOn_nil] at hsplit
      rw [← hsplit] at hentries
      obtain ⟨level, -, hentry, -, -⟩ := List.forall₂_cons_left_iff.mp hentries
      exact not_entryText_nil hentry

/-- A level list is accepted exactly when it is a level list text. -/
theorem parseLevels_eq_ok_iff {text : List Char} {levels : List StoredLevel} :
    parseLevels f64 text = .ok levels ↔ LevelListText f64 text (levels.map levelData) := by
  rw [parseLevels, levelListText_iff, List.forall₂_map_right_iff]
  split_ifs with hempty
  · obtain rfl := List.isEmpty_iff.mp hempty
    constructor
    · intro h
      obtain rfl := Except.ok.inj h
      exact Or.inl ⟨rfl, rfl⟩
    · rintro (⟨-, hnil⟩ | hentries)
      · rw [List.map_eq_nil_iff.mp hnil]
      · -- the one part of the empty text is no entry
        rw [List.splitOn_nil] at hentries
        obtain ⟨level, -, hentry, -, -⟩ := List.forall₂_cons_left_iff.mp hentries
        exact absurd hentry not_entryText_nil
  · have hne : text ≠ [] := fun hnil => hempty (List.isEmpty_iff.mpr hnil)
    simp only [mapM_eq_ok_iff, parseEntry_eq_ok_iff, hne, false_and, false_or]

/-! ## The whole text -/

/-- The envelopes that are accepted, and where they are split. -/
theorem splitEnvelope_eq_some_iff {input sridText levelsText : List Char} :
    splitEnvelope input = some (sridText, levelsText) ↔
      ∃ rest, Text.trim input = textPrefix ++ rest ∧
        Text.FirstOccurrence textLevelsMarker rest sridText (levelsText ++ [']']) := by
  have hmarker : textLevelsMarker ≠ [] := List.cons_ne_nil _ _
  simp only [splitEnvelope, Option.bind_eq_bind, Option.bind_eq_some_iff,
    Text.stripPrefix_eq_some_iff, Text.stripSuffix_eq_some_iff, Option.pure_def, Option.some.injEq,
    Prod.exists, Prod.mk.injEq]
  constructor
  · rintro ⟨rest, htrim, before, after, hsplit, levels, rfl, rfl, rfl⟩
    exact ⟨rest, htrim, (Text.splitOnce_eq_some_iff hmarker).mp hsplit⟩
  · rintro ⟨rest, htrim, hfirst⟩
    exact ⟨rest, htrim, sridText, levelsText ++ [']'],
      (Text.splitOnce_eq_some_iff hmarker).mpr hfirst, levelsText, rfl, rfl, rfl⟩

/-- The parser accepts a text for a value exactly when the text is a literal for the SRID and the
levels of the value. -/
theorem parseText_eq_ok_iff {input : List Char} {v : SqlFuzzyregion} :
    parseText f64 input = .ok v ↔
      Literal f64 input v.stored.srid (v.stored.levels.map levelData) := by
  constructor
  · intro h
    rw [parseText] at h
    cases hsplit : splitEnvelope input with
    | none =>
      rw [hsplit] at h
      cases h
    | some parts =>
      obtain ⟨sridText, levelsText⟩ := parts
      simp only [hsplit, bind_eq_ok_iff, mapError_eq_ok_iff, StoredFuzzyregion.new,
        StoredFuzzyregion.withVersion_eq_ok_iff, pure_eq_ok_iff] at h
      obtain ⟨srid, hsrid, levels, hlevels, stored, ⟨-, rfl, rfl⟩, rfl⟩ := h
      obtain ⟨rest, htrim, hmarker⟩ := splitEnvelope_eq_some_iff.mp hsplit
      have hlist := parseLevels_eq_ok_iff.mp hlevels
      refine .intro htrim hmarker (parseSrid_eq_ok_iff.mp hsrid) hlist ?_ ?_
      · exact List.pairwise_map.mpr stored.invariant.descending
      · -- a payload with levels has an SRID
        rintro hne rfl
        refine stored.invariant.sridPresent ?_ (Except.ok.inj hsrid).symm
        intro hnil
        rw [hnil] at hlist
        exact hne ((levels_eq_nil_iff hlist).mp rfl)
  · rintro ⟨htrim, hmarker, hsrid, hlevels, -, -⟩
    have hnew : StoredFuzzyregion.new v.stored.srid v.stored.levels = .ok v.stored :=
      StoredFuzzyregion.withVersion_eq_ok_iff.mpr ⟨rfl, rfl, rfl⟩
    rw [parseText, splitEnvelope_eq_some_iff.mpr ⟨_, htrim, hmarker⟩]
    simp only [parseSrid_eq_ok_iff.mpr hsrid, parseLevels_eq_ok_iff.mpr hlevels, ok_bind, hnew,
      mapError_ok]
    rfl

/-- What an entry denotes is the alpha and the bytes of a level. -/
theorem exists_level_of_entryText {entry : List Char} {level : F64 × List UInt8}
    (h : EntryText f64 entry level) (hsmall : level.2.length < 2 ^ 32) :
    ∃ l : StoredLevel, levelData l = level := by
  obtain ⟨-, -, hfinite, hpos, hle, hne, hhex⟩ := h
  obtain ⟨alpha, halpha⟩ := Alpha.exists_value_eq (F := F64) hfinite hpos hle
  have hbytes : level.2 ≠ [] := by
    intro hnil
    have hlen := hhex.length_eq
    rw [hnil] at hlen
    exact hne (List.eq_nil_of_length_eq_zero hlen)
  exact ⟨⟨alpha, level.2, hbytes, Nat.le_pred_of_lt hsmall⟩, Prod.ext halpha rfl⟩

/-- What a literal denotes can be stored, if the sizes fit. -/
theorem exists_stored_of_literal {input : List Char} {srid : Option Int32}
    {levels : List (F64 × List UInt8)} (h : Literal f64 input srid levels)
    (hcount : levels.length < 2 ^ 32) (hsmall : ∀ level ∈ levels, level.2.length < 2 ^ 32) :
    ∃ stored : StoredFuzzyregion, stored.srid = srid ∧ stored.levels.map levelData = levels := by
  obtain ⟨-, -, hsrid, hlevels, hdesc, hpresent⟩ := h
  have hlevel : ∀ level ∈ levels, ∃ l : StoredLevel, levelData l = level := by
    intro level hl
    cases hlevels with
    | empty => cases hl
    | entries _ _ hentries =>
      obtain ⟨entry, -, hentry⟩ := exists_of_forall₂ hentries hl
      exact exists_level_of_entryText hentry (hsmall level hl)
  obtain ⟨stored, hstored⟩ := exists_forall₂ hlevel
  have hdata : stored.map levelData = levels :=
    (map_eq_map_of_forall₂ hstored.flip).trans (List.map_id levels)
  have hvalid : validateLevels srid stored = .ok () := by
    refine validateLevels_eq_ok_iff.mpr ⟨fun hne hnone => ?_, ?_, ?_⟩
    · -- without an SRID the text is `null`, so the list is empty
      have htext : ¬ levels = [] := fun hnil => hne (List.map_eq_nil_iff.mp (hdata.trans hnil))
      rw [levels_eq_nil_iff hlevels] at htext
      rcases hsrid with ⟨hnull, -⟩ | ⟨s, -, hsome⟩
      · exact hpresent htext hnull
      · cases hnone.symm.trans hsome
    · rw [← hstored.length_eq]
      exact Nat.le_pred_of_lt hcount
    · rw [← hdata, List.pairwise_map] at hdesc
      exact List.Pairwise.isChain hdesc
  exact ⟨⟨currentStorageVersion, srid, stored, hvalid⟩, rfl, hdata⟩

/-- **The parser accepts exactly the literals**, and returns the SRID, the alphas and the bytes that
they denote, in their order. -/
theorem accepts_literals (f64 : F64Text) (input : List Char)
    (hsize : ∀ srid levels, Literal f64 input srid levels →
      levels.length < 2 ^ 32 ∧ ∀ level ∈ levels, level.2.length < 2 ^ 32) :
    ((∃ v, parseText f64 input = .ok v) ↔ ∃ srid levels, Literal f64 input srid levels) ∧
      ∀ v, parseText f64 input = .ok v ↔
        Literal f64 input v.stored.srid (v.stored.levels.map levelData) := by
  refine ⟨⟨?_, ?_⟩, fun v => parseText_eq_ok_iff⟩
  · rintro ⟨v, hv⟩
    exact ⟨_, _, parseText_eq_ok_iff.mp hv⟩
  · rintro ⟨srid, levels, h⟩
    obtain ⟨hcount, hsmall⟩ := hsize srid levels h
    obtain ⟨stored, rfl, rfl⟩ := exists_stored_of_literal h hcount hsmall
    exact ⟨⟨stored⟩, parseText_eq_ok_iff.mpr h⟩

/-- A literal is longer than what it denotes. -/
theorem length_le_of_literal {input : List Char} {srid : Option Int32}
    {levels : List (F64 × List UInt8)} (h : Literal f64 input srid levels) :
    levels.length ≤ input.length ∧ ∀ level ∈ levels, level.2.length ≤ input.length := by
  obtain ⟨htrim, hmarker, -, hlevels, -, -⟩ := h
  cases hlevels with
  | empty => simp
  | @entries entries levels hne hcomma hentries =>
    have htext : ([','].intercalate entries).length ≤ input.length := by
      have hle := Text.length_trim_le input
      rw [htrim, hmarker.eq] at hle
      simp only [List.length_append] at hle
      omega
    constructor
    · rw [← hentries.length_eq]
      refine (Text.length_entries_le fun entry hentry => ?_).trans htext
      rintro rfl
      obtain ⟨level, -, hlevel⟩ := exists_of_forall₂ hentries.flip hentry
      exact not_entryText_nil hlevel
    · intro level hl
      obtain ⟨entry, hentry, hlevel⟩ := exists_of_forall₂ hentries hl
      have hle := (Text.length_le_intercalate (a := ',') hentry).trans htext
      obtain ⟨hcolon, -, -, -, -, -, hhex⟩ := hlevel
      rw [hcolon.eq, List.length_append, hhex.length_eq] at hle
      omega

theorem accepts_literals_sample :
    (∃ v, parseText bitsText " v1;srid=+2;levels=[1:0105] ".toList = .ok v) ↔
      ∃ srid levels, Literal bitsText " v1;srid=+2;levels=[1:0105] ".toList srid levels := by
  refine (accepts_literals bitsText _ fun srid levels h => ?_).1
  have hlen : " v1;srid=+2;levels=[1:0105] ".toList.length < 2 ^ 32 := by decide
  obtain ⟨hcount, hsmall⟩ := length_le_of_literal h
  exact ⟨hcount.trans_lt hlen, fun level hl => (hsmall level hl).trans_lt hlen⟩

end SqlFuzzyregion

end FuzzyRegion
