import FuzzyRegion.Data.Text
import FuzzyRegion.Pg.Interop

/-!
# The SQL base type

The SQL value wraps a stored payload. Its text form is
`v1;srid=4326;levels=[1:0102abcd,0.5:deadbeef]`, and its input function parses the text, decodes the
payload into the domain and encodes the canonical value again.

The text of an `f64` is the standard library's, of which a round trip on finite positive values is
assumed. A text is a list of characters; `decode_hex` works on its UTF-8 bytes.

## Main definitions

* `F64Text`: the text of an `f64`, with what is assumed of it
* `encodeHex`, `decodeHex`
* `SqlFuzzyregion.supportEwkb`, `SqlFuzzyregion.coreEwkb`, `SqlFuzzyregion.alphaCutEwkb`
* `SqlFuzzyregion.parseText`, `SqlFuzzyregion.toText`
* `SqlFuzzyregion.input`, `SqlFuzzyregion.output`: the type's input and output functions
-/

namespace FuzzyRegion

open Numeric Fallible

/-- `Display` and `FromStr` of `f64`: a finite positive value is written with digits and a point,
and is read back to the same bits. -/
structure F64Text where
  display : F64 → List Char
  fromStr : List Char → Option F64
  display_chars : ∀ {x : F64}, x.isFinite = true → 0 < x.toRat →
    ∀ c ∈ display x, c.isDigit = true ∨ c = '.'
  fromStr_display : ∀ {x : F64}, x.isFinite = true → 0 < x.toRat → fromStr (display x) = some x

def textPrefix : List Char := "v1;srid=".toList

def textLevelsMarker : List Char := ";levels=[".toList

/-- Errors of the text format. -/
inductive TextFormatError where
  | invalidEnvelope
  | invalidSrid
  | invalidLevelEntry
  | invalidAlpha
  | invalidHexLength
  | invalidHexDigit (index : Nat) (found : Char)
  | storage (error : StorageError)
deriving DecidableEq

/-! ## Hexadecimal bytes -/

def hexDigits : List Char := "0123456789abcdef".toList

/-- The digit of a half byte. -/
def hexDigit (nibble : UInt8) : Char := hexDigits.getD nibble.toNat '0'

def encodeHex (bytes : List UInt8) : List Char :=
  bytes.flatMap fun byte : UInt8 => [hexDigit (byte >>> 4), hexDigit (byte &&& 0x0f)]

def decodeNibble (byte : UInt8) (index : Nat) : Except TextFormatError UInt8 :=
  if 0x30 ≤ byte ∧ byte ≤ 0x39 then .ok (byte - 0x30)
  else if 0x61 ≤ byte ∧ byte ≤ 0x66 then .ok (byte - 0x61 + 10)
  else if 0x41 ≤ byte ∧ byte ≤ 0x46 then .ok (byte - 0x41 + 10)
  else .error (.invalidHexDigit index (Char.ofNat byte.toNat))

/-- The loop of `decode_hex` over the pairs of bytes, from the pair of the given index on. -/
def decodePairs (index : Nat) : List UInt8 → Except TextFormatError (List UInt8)
  | first :: second :: rest => do
    let high ← decodeNibble first (index * 2)
    let low ← decodeNibble second (index * 2 + 1)
    let out ← decodePairs (index + 1) rest
    return (high <<< 4 ||| low) :: out
  | _ => return []

def decodeHex (input : List Char) : Except TextFormatError (List UInt8) :=
  let bytes := Text.utf8 input
  if bytes.length % 2 ≠ 0 then .error .invalidHexLength else decodePairs 0 bytes

/-! ## The SQL value -/

/-- The SQL value. -/
structure SqlFuzzyregion where
  stored : StoredFuzzyregion
deriving DecidableEq

namespace SqlFuzzyregion

/-! ## Projections of the stored levels -/

def srid (self : SqlFuzzyregion) : Option Int32 := self.stored.srid

def supportEwkb (self : SqlFuzzyregion) : Option (List UInt8) :=
  self.stored.levels.getLast?.map StoredLevel.geometryEwkb

def coreEwkb (self : SqlFuzzyregion) : Option (List UInt8) :=
  (self.stored.levels.find? fun level => level.alpha.isOne).map StoredLevel.geometryEwkb

def alphaCutEwkb (self : SqlFuzzyregion) (threshold : AlphaThreshold F64) : Option (List UInt8) :=
  if threshold.isZero then self.supportEwkb
  else (self.stored.levels.reverse.find? fun level =>
    Scalar.le threshold.value level.alpha.value).map StoredLevel.geometryEwkb

/-! ## The text form -/

variable (f64 : F64Text)

/-- One entry `alpha:hex` of the level list. -/
def parseEntry (entry : List Char) : Except TextFormatError StoredLevel :=
  match Text.splitOnce [':'] entry with
  | none => .error .invalidLevelEntry
  | some (alphaText, ewkbHex) => do
    let value ← match f64.fromStr alphaText with
      | some value => .ok value
      | none => .error .invalidAlpha
    let alpha ← (Alpha.tryFrom value).mapError fun error => .storage (.invalidAlpha error)
    let ewkb ← decodeHex ewkbHex
    (StoredLevel.new alpha ewkb).mapError .storage

def parseSrid (sridText : List Char) : Except TextFormatError (Option Int32) :=
  if sridText = "null".toList then .ok none
  else match Text.i32FromStr sridText with
    | some srid => .ok (some srid)
    | none => .error .invalidSrid

/-- The level list of a literal; the empty text is no level, not one empty entry. -/
def parseLevels (levelsText : List Char) : Except TextFormatError (List StoredLevel) :=
  if levelsText.isEmpty then .ok [] else (levelsText.splitOn ',').mapM (parseEntry f64)

/-- The SRID text and the level list text of a literal. -/
def splitEnvelope (input : List Char) : Option (List Char × List Char) := do
  let rest ← Text.stripPrefix textPrefix (Text.trim input)
  let (sridText, levelsText) ← Text.splitOnce textLevelsMarker rest
  let levelsText ← Text.stripSuffix [']'] levelsText
  return (sridText, levelsText)

def parseText (input : List Char) : Except TextFormatError SqlFuzzyregion :=
  match splitEnvelope input with
  | none => .error .invalidEnvelope
  | some (sridText, levelsText) => do
    let srid ← parseSrid sridText
    let levels ← parseLevels f64 levelsText
    let stored ← (StoredFuzzyregion.new srid levels).mapError .storage
    return ⟨stored⟩

/-- The text `alpha:hex` of a level. -/
def levelText (level : StoredLevel) : List Char :=
  f64.display level.alpha.value ++ ':' :: encodeHex level.geometryEwkb

def sridText (srid : Option Int32) : List Char := srid.elim "null".toList Text.i32ToString

def toText (self : SqlFuzzyregion) : List Char :=
  textPrefix ++ sridText self.stored.srid ++ textLevelsMarker ++
    [','].intercalate (self.stored.levels.map (levelText f64)) ++ [']']

/-! ## Input and output -/

variable {P S : Type}

/-- The text of a canonicalization error; `geometry` is the text of a backend error. -/
def displayCoreError {E : Type} (geometry : E → List Char) : CoreError F64 E → List Char
  | .invalidAlpha (.notFinite value) =>
    "alpha value ".toList ++ f64.display value ++ " must be finite".toList
  | .invalidAlpha (.levelOutOfRange value) =>
    "level alpha ".toList ++ f64.display value ++ " must be in the range (0, 1]".toList
  | .invalidAlpha (.thresholdOutOfRange value) =>
    "alpha threshold ".toList ++ f64.display value ++ " must be in the range [0, 1]".toList
  | .mixedOperandSrid left right =>
    "cannot combine fuzzyregions with SRIDs ".toList ++ Text.i32ToString left ++ " and ".toList ++
      Text.i32ToString right
  | .duplicateAlpha alpha =>
    "alpha ".toList ++ f64.display alpha.value ++ " appears more than once".toList
  | .emptyGeometry alpha =>
    "geometry at alpha ".toList ++ f64.display alpha.value ++ " is empty".toList
  | .mixedSrid expected found alpha =>
    "geometry at alpha ".toList ++ f64.display alpha.value ++ " has SRID ".toList ++
      Text.i32ToString found ++ ", expected ".toList ++ Text.i32ToString expected
  | .nonNestedLevels higher lower =>
    "geometry at alpha ".toList ++ f64.display higher.value ++
      " is not contained in geometry at alpha ".toList ++ f64.display lower.value
  | .geometry error => geometry error

/-- The error of `to_domain`: a backend error is passed on, any other is a corrupt value. -/
def domainError : CoreError F64 (PostgisError S) → PostgisError S
  | .geometry error => error
  | other => .corruptStoredValue
    ("unexpected canonicalization failure while decoding fuzzyregion: ".toList ++
      -- a backend error does not reach this branch
      displayCoreError f64 (fun _ => []) other)

def fromDomain (value : DomainFuzzyregion) : Except (PostgisError S) SqlFuzzyregion :=
  SqlFuzzyregion.mk <$> encodeDomainFuzzyregion value

def toDomain (self : SqlFuzzyregion) (engine : PostgisEngine P S) :
    Except (PostgisError S) DomainFuzzyregion :=
  (decodeStoredFuzzyregion self.stored engine).mapError (domainError f64)

/-- Why a literal is refused. -/
inductive LiteralError (S : Type) where
  | text (error : TextFormatError)
  | postgis (error : PostgisError S)

/-- `InOutFuncs::input`, on UTF-8 text. -/
def input (engine : PostgisEngine P S) (text : List Char) :
    Except (LiteralError S) SqlFuzzyregion := do
  let parsed ← (parseText f64 text).mapError .text
  let domain ← (parsed.toDomain f64 engine).mapError .postgis
  (fromDomain domain).mapError .postgis

/-- `InOutFuncs::output`. -/
def output (self : SqlFuzzyregion) : List Char := self.toText f64

end SqlFuzzyregion

end FuzzyRegion
