import FuzzyRegion.Pg.SqlType
import Mathlib.Tactic.FinCases

/-!
# The text form is lossless

No piece of a written payload contains the delimiter that ends it: SRIDs hold no semicolon, alphas
no colon, and neither alphas nor hexadecimal runs a comma. So the parser recovers the pieces, and
reading each piece undoes writing it.

## Main results

* `decodeHex_encodeHex`: hexadecimal decoding undoes encoding
* `parseEntry_levelText`, `parseSrid_sridText`: the pieces of a text
* `parseText_toText`: the parser undoes the text output
* `input_output`: the input function on a written payload
-/

namespace FuzzyRegion

open Numeric Fallible

/-! ## Hexadecimal bytes -/

/-- The byte of a hexadecimal digit. -/
def hexByte (nibble : UInt8) : UInt8 := if nibble < 10 then 0x30 + nibble else 0x57 + nibble

theorem nibble_cases {P : UInt8 → Prop} (h : ∀ n : Fin 16, P (UInt8.ofNat n)) {nibble : UInt8}
    (hn : nibble.toNat < 16) : P nibble := by
  have hP := h ⟨nibble.toNat, hn⟩
  rwa [UInt8.ofNat_toNat] at hP

theorem utf8EncodeChar_hexDigit {nibble : UInt8} (hn : nibble.toNat < 16) :
    String.utf8EncodeChar (hexDigit nibble) = [hexByte nibble] :=
  nibble_cases (P := fun n => String.utf8EncodeChar (hexDigit n) = [hexByte n])
    (by decide +kernel) hn

theorem decodeNibble_hexByte {nibble : UInt8} (hn : nibble.toNat < 16) (index : Nat) :
    decodeNibble (hexByte nibble) index = .ok nibble := by
  refine nibble_cases (P := fun n => decodeNibble (hexByte n) index = .ok n) (fun n => ?_) hn
  fin_cases n <;> rfl

theorem hexDigit_mem {nibble : UInt8} (hn : nibble.toNat < 16) : hexDigit nibble ∈ hexDigits :=
  nibble_cases (P := fun n => hexDigit n ∈ hexDigits) (by decide +kernel) hn

theorem toNat_high_lt (byte : UInt8) : (byte >>> 4).toNat < 16 := by
  have hall : ∀ b : Fin 256, (UInt8.ofNat b >>> 4).toNat < 16 := by decide +kernel
  simpa using hall ⟨byte.toNat, byte.toNat_lt⟩

theorem toNat_low_lt (byte : UInt8) : (byte &&& 0x0f).toNat < 16 := by
  have hall : ∀ b : Fin 256, (UInt8.ofNat b &&& 0x0f).toNat < 16 := by decide +kernel
  simpa using hall ⟨byte.toNat, byte.toNat_lt⟩

theorem high_or_low (byte : UInt8) : (byte >>> 4) <<< 4 ||| (byte &&& 0x0f) = byte := by
  have hall : ∀ b : Fin 256,
      (UInt8.ofNat b >>> 4) <<< 4 ||| (UInt8.ofNat b &&& 0x0f) = UInt8.ofNat b := by
    decide +kernel
  simpa using hall ⟨byte.toNat, byte.toNat_lt⟩

theorem utf8_encodeHex_cons (byte : UInt8) (bytes : List UInt8) :
    Text.utf8 (encodeHex (byte :: bytes)) =
      hexByte (byte >>> 4) :: hexByte (byte &&& 0x0f) :: Text.utf8 (encodeHex bytes) := by
  simp only [Text.utf8, encodeHex, List.flatMap_cons, List.cons_append, List.nil_append,
    utf8EncodeChar_hexDigit (toNat_high_lt byte), utf8EncodeChar_hexDigit (toNat_low_lt byte)]

theorem length_utf8_encodeHex (bytes : List UInt8) :
    (Text.utf8 (encodeHex bytes)).length = 2 * bytes.length := by
  induction bytes with
  | nil => rfl
  | cons byte bytes ih =>
    rw [utf8_encodeHex_cons, List.length_cons, List.length_cons, ih, List.length_cons]
    omega

theorem decodePairs_encodeHex (bytes : List UInt8) (index : Nat) :
    decodePairs index (Text.utf8 (encodeHex bytes)) = .ok bytes := by
  induction bytes generalizing index with
  | nil => rfl
  | cons byte bytes ih =>
    rw [utf8_encodeHex_cons, decodePairs, decodeNibble_hexByte (toNat_high_lt byte), ok_bind,
      decodeNibble_hexByte (toNat_low_lt byte), ok_bind, ih, ok_bind, high_or_low]
    rfl

/-- Hexadecimal decoding undoes encoding. -/
theorem decodeHex_encodeHex (bytes : List UInt8) : decodeHex (encodeHex bytes) = .ok bytes := by
  have heven : ¬ (Text.utf8 (encodeHex bytes)).length % 2 ≠ 0 := by
    rw [length_utf8_encodeHex]
    omega
  rw [decodeHex, if_neg heven, decodePairs_encodeHex]

theorem not_mem_encodeHex {bytes : List UInt8} {c : Char} (hc : c ∉ hexDigits) :
    c ∉ encodeHex bytes := by
  intro h
  obtain ⟨byte, -, h⟩ := List.mem_flatMap.mp h
  rcases List.mem_cons.mp h with rfl | h
  · exact hc (hexDigit_mem (toNat_high_lt byte))
  · rw [List.mem_singleton.mp h] at hc
    exact hc (hexDigit_mem (toNat_low_lt byte))

namespace SqlFuzzyregion

variable {f64 : F64Text}

/-! ## Pieces of a text -/

/-- The text of an alpha has no other characters than digits and a point. -/
theorem not_mem_display {alpha : Alpha F64} {c : Char} (hdigit : c.isDigit = false)
    (hpoint : c ≠ '.') : c ∉ f64.display alpha.value := by
  intro h
  rcases f64.display_chars alpha.finite alpha.toRat_pos c h with hc | hc
  · exact Bool.false_ne_true (hdigit.symm.trans hc)
  · exact hpoint hc

/-- Reading the text of a level gives the level. -/
theorem parseEntry_levelText (level : StoredLevel) :
    parseEntry f64 (levelText f64 level) = .ok level := by
  have hcolon : ':' ∉ f64.display level.alpha.value := not_mem_display rfl (by decide)
  -- so the first colon is the separator
  have hsplit : Text.splitOnce [':'] (levelText f64 level) =
      some (f64.display level.alpha.value, encodeHex level.geometryEwkb) := by
    have happend : Text.splitOnce [':'] (f64.display level.alpha.value ++ [':'] ++
        encodeHex level.geometryEwkb) = _ :=
      Text.splitOnce_append hcolon (encodeHex level.geometryEwkb)
    rwa [List.append_assoc] at happend
  have hvalue : f64.fromStr (f64.display level.alpha.value) = some level.alpha.value :=
    f64.fromStr_display level.alpha.finite level.alpha.toRat_pos
  simp only [parseEntry, hsplit, hvalue, ok_bind, Alpha.tryFrom_value, mapError_ok,
    decodeHex_encodeHex, StoredLevel.new_eq_ok_iff.mpr ⟨rfl, rfl⟩]

theorem comma_not_mem_levelText (level : StoredLevel) : ',' ∉ levelText f64 level := by
  intro h
  rcases List.mem_append.mp h with h | h
  · exact not_mem_display rfl (by decide) h
  · rcases List.mem_cons.mp h with h | h
    · exact absurd h (by decide)
    · exact not_mem_encodeHex (by decide) h

theorem parseSrid_sridText (srid : Option Int32) : parseSrid (sridText srid) = .ok srid := by
  cases srid with
  | none => rfl
  | some s =>
    -- a number is not the word `null`, since `n` is no digit
    have hnull : Text.i32ToString s ≠ "null".toList := by
      intro h
      have hn : 'n' ∉ Text.i32ToString s := Text.not_mem_i32ToString rfl (by decide)
      rw [h] at hn
      exact hn (by decide)
    simp only [sridText, Option.elim_some, parseSrid, if_neg hnull, Text.i32FromStr_toString]

theorem semicolon_not_mem_sridText (srid : Option Int32) : ';' ∉ sridText srid := by
  cases srid with
  | none => decide
  | some s => exact Text.not_mem_i32ToString rfl (by decide)

/-- The text of a level list. -/
abbrev levelsText (f64 : F64Text) (levels : List StoredLevel) : List Char :=
  [','].intercalate (levels.map (levelText f64))

/-- Reading the level list of a text gives the levels; the empty list is not one empty entry. -/
theorem parseLevels_levelsText (levels : List StoredLevel) :
    parseLevels f64 (levelsText f64 levels) = .ok levels := by
  cases levels with
  | nil => rfl
  | cons level levels =>
    have hcomma : ∀ l ∈ (level :: levels).map (levelText f64), ',' ∉ l := by
      intro l hl
      obtain ⟨k, -, rfl⟩ := List.mem_map.mp hl
      exact comma_not_mem_levelText k
    have hsplit : (levelsText f64 (level :: levels)).splitOn ',' =
        (level :: levels).map (levelText f64) :=
      List.splitOn_intercalate ',' hcomma (by simp)
    -- an empty text would split into one empty entry, which has no colon
    have hnonempty : (levelsText f64 (level :: levels)).isEmpty = false := by
      apply List.isEmpty_eq_false_iff.mpr
      intro hnil
      rw [hnil] at hsplit
      have hcolon : ':' ∈ levelText f64 level := List.mem_append_right _ List.mem_cons_self
      simp only [List.splitOn_nil, List.map_cons, List.cons.injEq] at hsplit
      rw [← hsplit.1] at hcolon
      cases hcolon
    rw [parseLevels, hnonempty, if_neg Bool.false_ne_true, hsplit, mapM_eq_ok_iff,
      List.forall₂_map_left_iff, List.forall₂_same]
    exact fun l _ => parseEntry_levelText l

/-! ## The whole text -/

theorem toText_eq (v : SqlFuzzyregion) :
    v.toText f64 = textPrefix ++ (sridText v.stored.srid ++ textLevelsMarker ++
      (levelsText f64 v.stored.levels ++ [']'])) := by
  simp only [toText, List.append_assoc]

theorem trim_toText (v : SqlFuzzyregion) : Text.trim (v.toText f64) = v.toText f64 := by
  have happend : v.toText f64 = 'v' :: ("1;srid=".toList ++ sridText v.stored.srid ++
      textLevelsMarker ++ levelsText f64 v.stored.levels ++ [']']) := rfl
  rw [happend]
  exact Text.trim_eq_self _ (by decide) (by decide)

/-- The envelope of a text is split at its first marker, as an SRID has no semicolon. -/
theorem splitEnvelope_toText (v : SqlFuzzyregion) :
    splitEnvelope (v.toText f64) =
      some (sridText v.stored.srid, levelsText f64 v.stored.levels) := by
  have hmarker : Text.splitOnce textLevelsMarker (sridText v.stored.srid ++ textLevelsMarker ++
      (levelsText f64 v.stored.levels ++ [']'])) = _ :=
    Text.splitOnce_append (semicolon_not_mem_sridText v.stored.srid)
      (levelsText f64 v.stored.levels ++ [']'])
  rw [splitEnvelope, trim_toText, toText_eq, Text.stripPrefix_append]
  simp only [Option.bind_eq_bind, Option.bind_some, hmarker, Text.stripSuffix_append]
  rfl

/-- The parser reads back every payload from a text that splits into its printed pieces. -/
theorem parseText_of_splitEnvelope {text : List Char} {stored : StoredFuzzyregion}
    (h : splitEnvelope text = some (sridText stored.srid, levelsText f64 stored.levels)) :
    parseText f64 text = .ok ⟨stored⟩ := by
  have hnew : StoredFuzzyregion.new stored.srid stored.levels = .ok stored :=
    -- a payload has the only version that there is
    StoredFuzzyregion.withVersion_eq_ok_iff.mpr ⟨rfl, rfl, rfl⟩
  rw [parseText, h]
  simp only [parseSrid_sridText, ok_bind, parseLevels_levelsText, hnew, mapError_ok]
  rfl

/-- The input function on the text of a payload reads the payload into the domain and stores the
region that it finds there. -/
theorem input_output {P S : Type} (engine : PostgisEngine P S) (v : SqlFuzzyregion) :
    input f64 engine (v.output f64) = (do
      let domain ← (v.toDomain f64 engine).mapError .postgis
      (fromDomain domain).mapError .postgis) := by
  rw [input, output, parseText_of_splitEnvelope (splitEnvelope_toText v), mapError_ok, ok_bind]

/-- **The parser undoes the text output**, for every payload. -/
theorem parseText_toText (f64 : F64Text) (v : SqlFuzzyregion) :
    parseText f64 (v.toText f64) = .ok v :=
  parseText_of_splitEnvelope (splitEnvelope_toText v)

/-- A text of `f64` that writes one as `1` and five eighths as `0.625`, as the standard library does,
and any other datum as a point and its bits. -/
def bitsText : F64Text where
  display x :=
    if x = F64.one then ['1']
    else if x = ⟨0x3FE4000000000000⟩ then ['0', '.', '6', '2', '5']
    else '.' :: Nat.toDigits 10 x.bits.toNat
  fromStr
    | ['1'] => some F64.one
    | ['0', '.', '6', '2', '5'] => some ⟨0x3FE4000000000000⟩
    | '.' :: digits => (Text.digitsToNat digits).map fun n => ⟨BitVec.ofNat 64 n⟩
    | _ => none
  display_chars := by
    intro x _ _ c hc
    split_ifs at hc
    · rw [List.mem_singleton.mp hc]
      exact Or.inl rfl
    · simp only [List.mem_cons, List.not_mem_nil, or_false] at hc
      rcases hc with rfl | rfl | rfl | rfl | rfl
      · exact Or.inl rfl
      · exact Or.inr rfl
      all_goals exact Or.inl rfl
    · rcases List.mem_cons.mp hc with rfl | hc
      · exact Or.inr rfl
      · exact Or.inl (Nat.isDigit_of_mem_toDigits (by omega) (by omega) hc)
  fromStr_display := by
    intro x _ _
    by_cases hone : x = F64.one
    · simp only [hone, if_true]
    by_cases hother : x = ⟨0x3FE4000000000000⟩
    · rw [hother]
      rfl
    · simp only [if_neg hone, if_neg hother, Text.digitsToNat_toDigits, Option.map_some,
        BitVec.ofNat_toNat, BitVec.setWidth_eq]

theorem parseText_toText_sample :
    parseText bitsText "v1;srid=-5;levels=[1:010203,0.625:0405]".toList =
      .ok ⟨StoredFuzzyregion.sample⟩ :=
  parseText_toText bitsText ⟨StoredFuzzyregion.sample⟩

end SqlFuzzyregion

end FuzzyRegion
