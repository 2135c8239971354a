import FuzzyRegion.Core.Alpha
import FuzzyRegion.Data.BigEndian
import FuzzyRegion.Data.Cursor

/-!
# Versioned binary storage

The payload of a stored fuzzyregion and its binary body, as the source reads and writes them. A
big-endian envelope of magic bytes, version, flags, a reserved field, the level count and an
optional SRID is followed by the level records: alpha, EWKB length, EWKB bytes.

A sum of a reader offset and a length is a `usize`, which wraps on overflow. The reduction is a
parameter `usize` of the reader: the identity for an unbounded machine, `(· % 2 ^ w)` for words of
`w` bits.

## Main definitions

* `StoredLevel`, `StoredFuzzyregion`: payloads, with what their constructors check
* `BodyReader.readVec`, `BodyReader.readArray`: the reads, with the reader that a call leaves behind
* `readVec`, `readArray`: the steps of the decoder that these calls make
* `decodeBody`, `encodeBody`: the binary body
-/

namespace FuzzyRegion

open Numeric Cursor Fallible

def storageMagic : List UInt8 := [0x46, 0x5A, 0x52, 0x47]

def flagHasSrid : UInt8 := 0b00000001

def supportedFlagsMask : UInt8 := flagHasSrid

def reservedHeader : UInt16 := 0

/-- `u32::MAX`. -/
def u32Max : Nat := 2 ^ 32 - 1

/-- Supported on-disk payload versions. -/
inductive StorageVersion where
  | v1
deriving DecidableEq

def StorageVersion.asU8 : StorageVersion → UInt8
  | .v1 => 1

def currentStorageVersion : StorageVersion := .v1

/-- Errors returned by the binary storage layer. -/
inductive StorageError where
  /-- The payload was too short to decode the requested field. -/
  | truncated (offset needed remaining : Nat)
  | invalidMagic (found : List UInt8)
  | unsupportedVersion (found : UInt8)
  | unsupportedFlags (found : UInt8)
  | nonZeroReservedHeader (found : UInt16)
  | missingSridForNonEmptyPayload
  | emptyEwkb (alpha : Alpha F64)
  | tooManyLevels (count : Nat)
  | ewkbTooLarge (alpha : Alpha F64) (len : Nat)
  | levelsOutOfOrder (previous next : Alpha F64)
  | duplicateAlpha (alpha : Alpha F64)
  | trailingBytes (remaining : Nat)
  | invalidAlpha (error : AlphaError F64)
deriving DecidableEq

/-! ## Payloads -/

/-- One persisted level, with the bounds that `StoredLevel::new` checks. -/
structure StoredLevel where
  alpha : Alpha F64
  geometryEwkb : List UInt8
  nonEmpty : geometryEwkb ≠ []
  small : geometryEwkb.length ≤ u32Max
deriving DecidableEq

/-- `StoredLevel::new`. -/
def StoredLevel.new (alpha : Alpha F64) (geometryEwkb : List UInt8) :
    Except StorageError StoredLevel :=
  if hne : geometryEwkb = [] then .error (.emptyEwkb alpha)
  else if hlen : geometryEwkb.length > u32Max then
    .error (.ewkbTooLarge alpha geometryEwkb.length)
  else .ok ⟨alpha, geometryEwkb, hne, Nat.le_of_not_lt hlen⟩

/-- The checks of a level list: an SRID unless it is empty, a count that fits, and neighbours that
descend. -/
def validateLevels (srid : Option Int32) (levels : List StoredLevel) : Except StorageError Unit :=
  if !levels.isEmpty && srid.isNone then throw .missingSridForNonEmptyPayload
  else if levels.length > u32Max then throw (.tooManyLevels levels.length)
  else forM (windows levels) fun pair =>
    let previous := pair.1.alpha
    let next := pair.2.alpha
    if previous.eq next then throw (.duplicateAlpha previous)
    else if previous.cmp next == .lt then throw (.levelsOutOfOrder previous next)
    else pure ()

/-- The payload stored for a fuzzyregion, with the checks that its constructors make. -/
structure StoredFuzzyregion where
  version : StorageVersion
  srid : Option Int32
  levels : List StoredLevel
  valid : validateLevels srid levels = .ok ()
deriving DecidableEq

namespace StoredFuzzyregion

/-- `StoredFuzzyregion::empty`. -/
def empty (srid : Option Int32) : StoredFuzzyregion where
  version := currentStorageVersion
  srid := srid
  levels := []
  valid := rfl

/-- `StoredFuzzyregion::with_version`. -/
def withVersion (version : StorageVersion) (srid : Option Int32) (levels : List StoredLevel) :
    Except StorageError StoredFuzzyregion :=
  match h : validateLevels srid levels with
  | .ok () => .ok ⟨version, srid, levels, h⟩
  | .error error => .error error

/-- `StoredFuzzyregion::new`. -/
def new (srid : Option Int32) (levels : List StoredLevel) : Except StorageError StoredFuzzyregion :=
  withVersion currentStorageVersion srid levels

end StoredFuzzyregion

/-! ## The reader -/

abbrev BodyReader := Cursor UInt8

def BodyReader.new (bytes : List UInt8) : BodyReader := ⟨bytes, 0⟩

def BodyReader.isFinished (self : BodyReader) : Bool := self.offset == self.bytes.length

def BodyReader.remaining (self : BodyReader) : Nat := self.bytes.length - self.offset

/-- A step of the decoder. -/
abbrev Decode (α : Type) := Decoder UInt8 StorageError α

/-- `bytes.get(start..stop)`. -/
def getRange (bytes : List UInt8) (start stop : Nat) : Option (List UInt8) :=
  if start ≤ stop ∧ stop ≤ bytes.length then some ((bytes.drop start).take (stop - start)) else none

/-- `read_vec`, with the reader that it leaves behind; a call that fails returns before it moves the
offset. -/
def BodyReader.readVec (usize : Nat → Nat) (self : BodyReader) (len : Nat) :
    Except StorageError (List UInt8) × BodyReader :=
  -- the sum is one of machine integers
  let stop := usize (self.offset + len)
  match getRange self.bytes self.offset stop with
  | some slice => (.ok slice, ⟨self.bytes, stop⟩)
  | none => (.error (.truncated self.offset len (BodyReader.remaining self)), self)

/-- `read_array`, whose array has the length asked for. -/
def BodyReader.readArray (usize : Nat → Nat) (self : BodyReader) (n : Nat) :
    Except StorageError (List UInt8) × BodyReader := BodyReader.readVec usize self n

/-- `read_vec` as a step of the decoder. -/
def readVec (usize : Nat → Nat) (len : Nat) : Decode (List UInt8) :=
  ofCall fun self => BodyReader.readVec usize self len

/-- `read_array` as a step of the decoder. -/
def readArray (usize : Nat → Nat) (n : Nat) : Decode (List UInt8) :=
  ofCall fun self => BodyReader.readArray usize self n

/-- `from_be_bytes` on the `n` bytes of a fixed-width number. -/
def readNumber (usize : Nat → Nat) (n : Nat) : Decode Nat :=
  BigEndian.ofBytes <$> readArray usize n

def readU8 (usize : Nat → Nat) : Decode UInt8 := UInt8.ofNat <$> readNumber usize 1

def readU16 (usize : Nat → Nat) : Decode UInt16 := UInt16.ofNat <$> readNumber usize 2

def readU32 (usize : Nat → Nat) : Decode UInt32 := UInt32.ofNat <$> readNumber usize 4

def readI32 (usize : Nat → Nat) : Decode Int32 :=
  (fun n => (UInt32.ofNat n).toInt32) <$> readNumber usize 4

def readF64 (usize : Nat → Nat) : Decode F64 :=
  (fun n => ⟨BitVec.ofNat 64 n⟩) <$> readNumber usize 8

/-! ## The binary body -/

namespace StoredFuzzyregion

/-- One iteration of the level loop of `decode_body`. -/
def decodeLevel (usize : Nat → Nat) : Decode StoredLevel := do
  let value ← readF64 usize
  let alpha ← (Alpha.tryFrom value).mapError StorageError.invalidAlpha
  let ewkbLen ← readU32 usize
  let ewkb ← readVec usize ewkbLen.toNat
  StoredLevel.new alpha ewkb

/-- The header of a payload: version, SRID and level count. -/
structure Header where
  version : StorageVersion
  srid : Option Int32
  levelCount : UInt32

def readMagic (usize : Nat → Nat) : Decode Unit := do
  let magic ← readArray usize 4
  if magic != storageMagic then throw (.invalidMagic magic)

/-- The match of `decode_body` on the version byte. -/
def versionOf (versionByte : UInt8) : Except StorageError StorageVersion :=
  match versionByte with
  | 1 => .ok .v1
  | found => .error (.unsupportedVersion found)

def readVersion (usize : Nat → Nat) : Decode StorageVersion := do
  let versionByte ← readU8 usize
  versionOf versionByte

def readFlags (usize : Nat → Nat) : Decode UInt8 := do
  let flags ← readU8 usize
  if flags &&& ~~~supportedFlagsMask != 0 then throw (.unsupportedFlags flags) else return flags

def readReserved (usize : Nat → Nat) : Decode Unit := do
  let reserved ← readU16 usize
  if reserved != reservedHeader then throw (.nonZeroReservedHeader reserved)

def readSrid (usize : Nat → Nat) (flags : UInt8) : Decode (Option Int32) :=
  if flags &&& flagHasSrid != 0 then some <$> readI32 usize else return none

/-- The part of `decode_body` before the level loop. -/
def decodeHeader (usize : Nat → Nat) : Decode Header := do
  readMagic usize
  let version ← readVersion usize
  let flags ← readFlags usize
  readReserved usize
  let levelCount ← readU32 usize
  let srid ← readSrid usize flags
  return ⟨version, srid, levelCount⟩

/-- The payload before the final checks. -/
def decodePayload (usize : Nat → Nat) : Decode (Header × List StoredLevel) := do
  let header ← decodeHeader usize
  let levels ← repeatRead (decodeLevel usize) header.levelCount.toNat
  return (header, levels)

def decodeBody (usize : Nat → Nat) (bytes : List UInt8) :
    Except StorageError StoredFuzzyregion := do
  let ((header, levels), reader) ← (decodePayload usize).run (BodyReader.new bytes)
  if !BodyReader.isFinished reader then throw (.trailingBytes (BodyReader.remaining reader))
  else withVersion header.version header.srid levels

/-- The record of a level. -/
def encodeLevel (level : StoredLevel) : List UInt8 :=
  BigEndian.toBytes 8 level.alpha.value.bits.toNat ++
    BigEndian.toBytes 4 (UInt32.ofNat level.geometryEwkb.length).toNat ++ level.geometryEwkb

/-- The flags byte of a payload with or without an SRID. -/
def flags (srid : Option Int32) : UInt8 := if srid.isSome then 0 ||| flagHasSrid else 0

def encodeSrid (srid : Option Int32) : List UInt8 :=
  match srid with
  | some srid => BigEndian.toBytes 4 srid.toUInt32.toNat
  | none => []

/-- The part of `encode_body` before the level loop. -/
def encodeHeader (header : Header) : List UInt8 :=
  storageMagic ++ [header.version.asU8] ++ [flags header.srid] ++
    BigEndian.toBytes 2 reservedHeader.toNat ++ BigEndian.toBytes 4 header.levelCount.toNat ++
    encodeSrid header.srid

def encodeBody (self : StoredFuzzyregion) : List UInt8 :=
  encodeHeader ⟨self.version, self.srid, UInt32.ofNat self.levels.length⟩ ++
    self.levels.flatMap encodeLevel

end StoredFuzzyregion

end FuzzyRegion
