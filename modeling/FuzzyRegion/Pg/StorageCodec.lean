import FuzzyRegion.Core.Mock
import FuzzyRegion.Data.Descending
import FuzzyRegion.Pg.Storage

/-!
# The binary body is a canonical encoding

Every step of the decoder reads exactly the bytes that the encoder writes for its result, so the
whole decoder accepts exactly the encodings. Decoding undoes encoding because an encoding is
accepted, and encoding undoes decoding because nothing else is.

## Main definitions

* `ExactSums usize bound`: the reduction of sums does not disturb reads of inputs up to the bound
* `RunsOn usize bytes`: the machines that a byte string can be on
* `StoredFuzzyregion.Invariant`: the storage invariants

## Main results

* `exactSums_id`, `exactSums_wrapping`: unbounded sums, and sums that wrap at a word size
* `BodyReader.readVec_of_fits`, `BodyReader.readVec_of_exceeds`: what one call does
* `reads_readVec`, `reads_decodeHeader`, `reads_decodeLevel`: what each step reads
* `decodeBody_eq_ok_iff`: the decoder accepts exactly the encodings
* `decodeBody_encodeBody`, `encodeBody_decodeBody`: both round trips
-/

namespace FuzzyRegion

open Numeric Cursor Fallible BigEndian

variable {usize : Nat → Nat} {input : List UInt8}

/-! ## Reads -/

/-- A sum within the bound is not reduced, and a sum beyond it is reduced to less than the offset
or stays beyond it, so that in both cases the read fails. -/
structure ExactSums (usize : Nat → Nat) (bound : Nat) : Prop where
  fits : ∀ {offset len}, offset + len ≤ bound → usize (offset + len) = offset + len
  exceeds : ∀ {offset len}, offset ≤ bound → len < 2 ^ 32 → bound < offset + len →
    usize (offset + len) < offset ∨ bound < usize (offset + len)

theorem exactSums_id (bound : Nat) : ExactSums id bound where
  fits _ := rfl
  exceeds _ _ h := Or.inr h

/-- Words of at least 32 bits, on inputs of less than half the address space. -/
theorem exactSums_wrapping {w bound : Nat} (hw : 32 ≤ w) (hbound : bound < 2 ^ (w - 1)) :
    ExactSums (· % 2 ^ w) bound := by
  have hword : 2 ^ w = 2 * 2 ^ (w - 1) := by
    rw [← pow_succ', Nat.sub_add_cancel (by omega)]
  have hlen32 : 2 ^ 32 ≤ 2 ^ w := Nat.pow_le_pow_right (by omega) hw
  refine ⟨fun {offset len} hfits => Nat.mod_eq_of_lt (by omega), ?_⟩
  intro offset len hoffset hlen hexceeds
  rcases Nat.lt_or_ge (offset + len) (2 ^ w) with hlt | hge
  · right
    rwa [Nat.mod_eq_of_lt hlt]
  · -- a wrapped sum falls below the offset, because the length is less than a word
    left
    have hsub : (offset + len) % 2 ^ w = offset + len - 2 ^ w := by
      rw [Nat.mod_eq_sub_mod hge, Nat.mod_eq_of_lt (by omega)]
    change (offset + len) % 2 ^ w < offset
    omega

/-- The machines that a byte string can be on: one without a bound on `usize`, or one with words of
at least 32 bits, where a slice takes less than half the address space. -/
def RunsOn (usize : Nat → Nat) (bytes : List UInt8) : Prop :=
  usize = id ∨ ∃ w, 32 ≤ w ∧ bytes.length < 2 ^ (w - 1) ∧ usize = (· % 2 ^ w)

theorem RunsOn.exactSums (h : RunsOn usize input) : ExactSums usize input.length := by
  rcases h with rfl | ⟨w, hw, hlen, rfl⟩
  · exact exactSums_id input.length
  · exact exactSums_wrapping hw hlen

section Calls

variable {self : BodyReader} {len : Nat}

/-- What remains is what is unread. -/
theorem BodyReader.length_rest (self : BodyReader) : self.rest.length = BodyReader.remaining self :=
  List.length_drop

/-- A read of what remains returns the next bytes. -/
theorem BodyReader.readVec_of_fits (h : ExactSums usize self.bytes.length) (hin : self.InBounds)
    (hfits : len ≤ BodyReader.remaining self) :
    BodyReader.readVec usize self len = (.ok (self.rest.take len), self.advance len) := by
  have hsum : self.offset + len ≤ self.bytes.length := by
    rw [BodyReader.remaining] at hfits
    rw [InBounds] at hin
    omega
  have hsome : getRange self.bytes self.offset (self.offset + len) = some (self.rest.take len) := by
    rw [getRange, if_pos ⟨Nat.le_add_right _ _, hsum⟩, Nat.add_sub_cancel_left, rest]
  rw [BodyReader.readVec]
  simp only [h.fits hsum, hsome]
  rfl

/-- A read of more fails, also when the sum wraps. -/
theorem BodyReader.readVec_of_exceeds (h : ExactSums usize self.bytes.length) (hin : self.InBounds)
    (hlen : len < 2 ^ 32) (hexceeds : BodyReader.remaining self < len) :
    BodyReader.readVec usize self len =
      (.error (.truncated self.offset len (BodyReader.remaining self)), self) := by
  have hnone : getRange self.bytes self.offset (usize (self.offset + len)) = none := by
    apply if_neg
    intro hrange
    -- a wrapped sum is below the offset, any other is beyond the input
    have hsum := h.exceeds hin hlen (by rw [BodyReader.remaining] at hexceeds; omega)
    omega
  rw [BodyReader.readVec]
  simp only [hnone]

end Calls

theorem reads_readVec (h : ExactSums usize input.length) {len : Nat} (hlen : len < 2 ^ 32) :
    Reads input (readVec usize len) fun slice chunk => chunk.length = len ∧ chunk = slice := by
  intro c hc hin slice c'
  subst hc
  rcases Nat.lt_or_ge (BodyReader.remaining c) len with hexceeds | hfits
  · -- no prefix of the rest is long enough
    rw [readVec, run_ofCall_error (BodyReader.readVec_of_exceeds h hin hlen hexceeds)]
    constructor
    · intro hok
      cases hok
    · rintro ⟨chunk, ⟨hchunk, rfl⟩, hpre, -⟩
      have hle := hpre.length_le
      rw [BodyReader.length_rest] at hle
      omega
  · have htake : (c.rest.take len).length = len :=
      List.length_take_of_le (hfits.trans_eq (BodyReader.length_rest c).symm)
    rw [readVec, run_ofCall_ok (BodyReader.readVec_of_fits h hin hfits)]
    constructor
    · intro hok
      obtain ⟨rfl, rfl⟩ := Prod.mk.inj (Except.ok.inj hok)
      exact ⟨_, ⟨htake, rfl⟩, List.take_prefix _ _, by rw [htake]⟩
    · rintro ⟨chunk, ⟨hchunk, rfl⟩, hpre, rfl⟩
      have heq : chunk = c.rest.take len := by
        rw [← hchunk]
        exact List.prefix_iff_eq_take.mp hpre
      rw [← heq, hchunk]

theorem reads_readNumber (h : ExactSums usize input.length) {n : Nat} (hn : n < 2 ^ 32) :
    Reads input (readNumber usize n) fun x chunk => x < 256 ^ n ∧ chunk = toBytes n x := by
  apply (Reads.map (reads_readVec h hn)).congr
  intro x chunk
  rw [← ofBytes_eq_iff]
  constructor
  · rintro ⟨slice, ⟨hlen, rfl⟩, rfl⟩
    exact ⟨hlen, rfl⟩
  · rintro ⟨hlen, rfl⟩
    exact ⟨chunk, ⟨hlen, rfl⟩, rfl⟩

/-- A fixed-width number with its own representation of the values below `256 ^ n`. -/
theorem reads_map_readNumber (h : ExactSums usize input.length) {n : Nat} (hn : n < 2 ^ 32)
    {α : Type} {f : Nat → α} {g : α → Nat} (hg : ∀ a, g a < 256 ^ n) (hfg : ∀ a, f (g a) = a)
    (hgf : ∀ {x}, x < 256 ^ n → g (f x) = x) :
    Reads input (f <$> readNumber usize n) fun a chunk => chunk = toBytes n (g a) := by
  apply (Reads.map (reads_readNumber h hn)).congr
  intro a chunk
  constructor
  · rintro ⟨x, ⟨hx, rfl⟩, rfl⟩
    rw [hgf hx]
  · rintro rfl
    exact ⟨g a, ⟨hg a, rfl⟩, (hfg a).symm⟩

theorem reads_readU8 (h : ExactSums usize input.length) :
    Reads input (readU8 usize) fun b chunk => chunk = [b] := by
  refine (reads_map_readNumber h (by omega) UInt8.toNat_lt (fun _ => UInt8.ofNat_toNat)
    fun hx => UInt8.toNat_ofNat_of_lt' hx).congr fun b chunk => ?_
  rw [toBytes, toBytes, UInt8.ofNat_toNat, List.nil_append]

theorem reads_readU16 (h : ExactSums usize input.length) :
    Reads input (readU16 usize) fun x chunk => chunk = toBytes 2 x.toNat :=
  reads_map_readNumber h (by omega) UInt16.toNat_lt (fun _ => UInt16.ofNat_toNat)
    fun hx => UInt16.toNat_ofNat_of_lt' hx

theorem reads_readU32 (h : ExactSums usize input.length) :
    Reads input (readU32 usize) fun x chunk => chunk = toBytes 4 x.toNat :=
  reads_map_readNumber h (by omega) UInt32.toNat_lt (fun _ => UInt32.ofNat_toNat)
    fun hx => UInt32.toNat_ofNat_of_lt' hx

theorem reads_readI32 (h : ExactSums usize input.length) :
    Reads input (readI32 usize) fun x chunk => chunk = toBytes 4 x.toUInt32.toNat :=
  reads_map_readNumber h (by omega) (fun x => x.toUInt32.toNat_lt)
    (fun x => by rw [UInt32.ofNat_toNat]; rfl) fun hx => UInt32.toNat_ofNat_of_lt' hx

theorem reads_readF64 (h : ExactSums usize input.length) :
    Reads input (readF64 usize) fun x chunk => chunk = toBytes 8 x.bits.toNat :=
  reads_map_readNumber h (by omega) (fun x => x.bits.isLt)
    (fun x => congrArg F64.mk (BitVec.eq_of_toNat_eq (by simp))) fun hx => Nat.mod_eq_of_lt hx

namespace StoredFuzzyregion

/-! ## The header -/

theorem reads_readMagic (h : ExactSums usize input.length) :
    Reads input (readMagic usize) fun _ chunk => chunk = storageMagic := by
  refine (Reads.bind (reads_readVec h (by omega)) fun magic _ _ =>
    Reads.ite (Reads.throw _) (Reads.pure ())).congr fun _ chunk => ?_
  constructor
  · rintro ⟨magic, first, last, ⟨hlen, rfl⟩, hcheck, rfl⟩
    split_ifs at hcheck with hmagic
    obtain ⟨-, rfl⟩ := hcheck
    rw [List.append_nil]
    simpa using hmagic
  · rintro rfl
    exact ⟨storageMagic, storageMagic, [], ⟨rfl, rfl⟩, by simp, rfl⟩

/-- The only version has the byte one. -/
theorem versionOf_eq_ok_iff {b : UInt8} {version : StorageVersion} :
    versionOf b = .ok version ↔ b = version.asU8 := by
  cases version
  unfold versionOf
  split
  · exact iff_of_true rfl rfl
  · next h => exact iff_of_false (by simp) h

theorem reads_readVersion (h : ExactSums usize input.length) :
    Reads input (readVersion usize) fun version chunk => chunk = [version.asU8] := by
  apply (Reads.bind (reads_readU8 h) fun b _ _ => Reads.lift (versionOf b)).congr
  intro version chunk
  constructor
  · rintro ⟨b, first, last, rfl, ⟨hversion, rfl⟩, rfl⟩
    rw [versionOf_eq_ok_iff.mp hversion, List.append_nil]
  · rintro rfl
    exact ⟨version.asU8, _, [], rfl, ⟨versionOf_eq_ok_iff.mpr rfl, rfl⟩, rfl⟩

/-- The supported flags are those that an encoding carries. -/
theorem supported_flags_iff {b : UInt8} :
    b &&& ~~~supportedFlagsMask = 0 ↔ b = 0 ∨ b = 1 := by
  have hall : ∀ n : Fin 256, UInt8.ofFin n &&& ~~~supportedFlagsMask = 0 ↔
      UInt8.ofFin n = 0 ∨ UInt8.ofFin n = 1 := by
    decide +kernel
  exact hall b.toFin

theorem reads_readFlags (h : ExactSums usize input.length) :
    Reads input (readFlags usize) fun b chunk => (b = 0 ∨ b = 1) ∧ chunk = [b] := by
  refine (Reads.bind (reads_readU8 h) fun b _ _ =>
    Reads.ite (Reads.throw _) (Reads.pure b)).congr fun b chunk => ?_
  constructor
  · rintro ⟨b', first, last, rfl, hcheck, rfl⟩
    split_ifs at hcheck with hflags
    obtain ⟨rfl, rfl⟩ := hcheck
    exact ⟨supported_flags_iff.mp (by simpa using hflags), rfl⟩
  · rintro ⟨hflags, rfl⟩
    refine ⟨b, [b], [], rfl, ?_, rfl⟩
    rw [if_neg (by simpa using supported_flags_iff.mpr hflags)]
    exact ⟨rfl, rfl⟩

theorem reads_readReserved (h : ExactSums usize input.length) :
    Reads input (readReserved usize) fun _ chunk => chunk = toBytes 2 reservedHeader.toNat := by
  refine (Reads.bind (reads_readU16 h) fun reserved _ _ =>
    Reads.ite (Reads.throw _) (Reads.pure ())).congr fun _ chunk => ?_
  constructor
  · rintro ⟨reserved, first, last, rfl, hcheck, rfl⟩
    split_ifs at hcheck with hreserved
    obtain ⟨-, rfl⟩ := hcheck
    rw [bne_iff_ne, not_not] at hreserved
    rw [hreserved, List.append_nil]
  · rintro rfl
    exact ⟨reservedHeader, _, [], rfl, by simp, (List.append_nil _).symm⟩

/-- After valid flags the SRID is read exactly when they announce one. -/
theorem reads_readSrid (h : ExactSums usize input.length) {b : UInt8} (hb : b = 0 ∨ b = 1) :
    Reads input (readSrid usize b) fun srid chunk => b = flags srid ∧ chunk = encodeSrid srid := by
  rcases hb with rfl | rfl
  -- without the flag nothing is read
  · apply (Reads.pure none).congr
    intro srid chunk
    cases srid <;> simp [flags, flagHasSrid, encodeSrid]
  · apply (Reads.map (reads_readI32 h)).congr
    intro srid chunk
    cases srid <;> simp [flags, flagHasSrid, encodeSrid, eq_comm]

theorem flags_mem (srid : Option Int32) : flags srid = 0 ∨ flags srid = 1 := by
  cases srid
  · exact Or.inl rfl
  · exact Or.inr rfl

theorem reads_decodeHeader (h : ExactSums usize input.length) :
    Reads input (decodeHeader usize) fun header chunk => chunk = encodeHeader header := by
  refine (Reads.bind (reads_readMagic h) fun _ _ _ =>
    Reads.bind (reads_readVersion h) fun version _ _ =>
    Reads.bind (reads_readFlags h) fun b _ hb =>
    Reads.bind (reads_readReserved h) fun _ _ _ =>
    Reads.bind (reads_readU32 h) fun levelCount _ _ =>
    Reads.bind (reads_readSrid h hb.1) fun srid _ _ =>
    Reads.pure (Header.mk version srid levelCount)).congr fun header chunk => ?_
  -- the chunks of the fields, in the order in which the header is written
  constructor
  · rintro ⟨-, c₁, -, rfl, ⟨version, c₂, -, rfl, ⟨b, c₃, -, ⟨-, rfl⟩, ⟨-, c₄, -, rfl,
      ⟨levelCount, c₅, -, rfl, ⟨srid, c₆, -, ⟨rfl, rfl⟩, ⟨rfl, rfl⟩, rfl⟩, rfl⟩, rfl⟩, rfl⟩, rfl⟩, rfl⟩
    simp only [encodeHeader, List.append_assoc, List.append_nil]
  · rintro rfl
    refine ⟨(), _, _, rfl, ⟨header.version, _, _, rfl, ⟨flags header.srid, _, _,
      ⟨flags_mem header.srid, rfl⟩, ⟨(), _, _, rfl, ⟨header.levelCount, _, _, rfl,
      ⟨header.srid, _, _, ⟨rfl, rfl⟩, ⟨rfl, rfl⟩, rfl⟩, rfl⟩, rfl⟩, rfl⟩, rfl⟩, ?_⟩
    simp only [encodeHeader, List.append_assoc, List.append_nil]

/-! ## The levels -/

end StoredFuzzyregion

theorem StoredLevel.new_eq_ok_iff {alpha : Alpha F64} {ewkb : List UInt8} {l : StoredLevel} :
    StoredLevel.new alpha ewkb = .ok l ↔ l.alpha = alpha ∧ l.geometryEwkb = ewkb := by
  unfold StoredLevel.new
  constructor
  · intro h
    split_ifs at h
    obtain rfl := Except.ok.inj h
    exact ⟨rfl, rfl⟩
  · rintro ⟨rfl, rfl⟩
    rw [dif_neg l.nonEmpty, dif_neg (Nat.not_lt_of_le l.small)]

/-- The cast of a checked length does not truncate. -/
theorem toNat_ofNat_of_le_u32Max {n : Nat} (h : n ≤ u32Max) : (UInt32.ofNat n).toNat = n :=
  UInt32.toNat_ofNat_of_lt' (Nat.lt_of_le_of_lt h (by decide))

namespace StoredFuzzyregion

theorem reads_decodeLevel (h : ExactSums usize input.length) :
    Reads input (decodeLevel usize) fun level chunk => chunk = encodeLevel level := by
  refine (Reads.bind (reads_readF64 h) fun value _ _ =>
    Reads.bind (Reads.lift _) fun alpha _ _ =>
    Reads.bind (reads_readU32 h) fun ewkbLen _ _ =>
    Reads.bind (reads_readVec h ewkbLen.toNat_lt) fun ewkb _ _ =>
    Reads.lift (StoredLevel.new alpha ewkb)).congr fun level chunk => ?_
  constructor
  · rintro ⟨value, c₁, -, rfl, ⟨alpha, c₂, -, ⟨halpha, rfl⟩, ⟨ewkbLen, c₃, -, rfl,
      ⟨ewkb, c₄, c₅, ⟨hlen, rfl⟩, ⟨hnew, rfl⟩, rfl⟩, rfl⟩, rfl⟩, rfl⟩
    obtain ⟨rfl, rfl⟩ := StoredLevel.new_eq_ok_iff.mp hnew
    obtain rfl := Alpha.value_of_tryFrom (mapError_eq_ok_iff.mp halpha)
    have hcast : UInt32.ofNat level.geometryEwkb.length = ewkbLen := by
      rw [hlen, UInt32.ofNat_toNat]
    simp only [encodeLevel, hcast, List.append_assoc, List.append_nil, List.nil_append]
  · rintro rfl
    refine ⟨level.alpha.value, _, _, rfl, ⟨level.alpha, [], _, ⟨?_, rfl⟩,
      ⟨UInt32.ofNat level.geometryEwkb.length, _, _, rfl, ⟨level.geometryEwkb, _, [],
      ⟨(toNat_ofNat_of_le_u32Max level.small).symm, rfl⟩, ⟨?_, rfl⟩, rfl⟩, rfl⟩, rfl⟩, ?_⟩
    · rw [Alpha.tryFrom_value, mapError_ok]
    · exact StoredLevel.new_eq_ok_iff.mpr ⟨rfl, rfl⟩
    · simp only [encodeLevel, List.append_assoc, List.append_nil, List.nil_append]

/-! ## The body -/

theorem validateLevels_eq_ok_iff {srid : Option Int32} {levels : List StoredLevel} :
    validateLevels srid levels = .ok () ↔ (levels ≠ [] → srid ≠ none) ∧
      levels.length ≤ u32Max ∧ levels.IsChain fun previous next => next.alpha < previous.alpha := by
  have hpair : ∀ a b : StoredLevel,
      (if a.alpha.eq b.alpha then throw (.duplicateAlpha a.alpha)
        else if a.alpha.cmp b.alpha == .lt then throw (.levelsOutOfOrder a.alpha b.alpha)
        else pure () : Except StorageError Unit) = .ok () ↔ b.alpha < a.alpha := by
    intro a b
    -- neighbours pass when they are neither equal nor ascending
    have hlt : a.alpha.cmp b.alpha = .lt ↔ a.alpha < b.alpha := by
      rw [Alpha.cmp_eq, Alpha.lt_def, compare_lt_iff_lt]
    split_ifs with heq hbefore
    · simp [Alpha.eq_iff.mp heq]
    · have hab := hlt.mp (beq_iff_eq.mp hbefore)
      simp [hab.le]
    · have hne : a.alpha ≠ b.alpha := fun h => heq (Alpha.eq_iff.mpr h)
      have hnlt : ¬ a.alpha < b.alpha := fun h => hbefore (beq_iff_eq.mpr (hlt.mpr h))
      simpa using lt_of_le_of_ne (not_lt.mp hnlt) hne.symm
  unfold validateLevels
  split_ifs with hsrid hcount
  · simp only [false_iff]
    rintro ⟨hpresent, -⟩
    simp_all
  · simp only [false_iff]
    rintro ⟨-, hle, -⟩
    omega
  · rw [forM_windows_eq_ok_iff, List.IsChain.iff hpair]
    have hpresent : levels ≠ [] → srid ≠ none := by
      intro hne hnone
      simp_all
    exact ⟨fun h => ⟨hpresent, Nat.le_of_not_lt hcount, h⟩, fun h => h.2.2⟩

/-- A level list is refused without an SRID, beyond the maximal count, and for two neighbours whose
alphas are equal or ascend. -/
theorem validateLevels_eq_error {srid : Option Int32} {levels : List StoredLevel}
    {error : StorageError} (h : validateLevels srid levels = .error error) :
    (levels ≠ [] ∧ srid = none ∧ error = .missingSridForNonEmptyPayload) ∨
    (u32Max < levels.length ∧ error = .tooManyLevels levels.length) ∨
    ∃ pair ∈ windows levels,
      (pair.1.alpha = pair.2.alpha ∧ error = .duplicateAlpha pair.1.alpha) ∨
      (pair.1.alpha < pair.2.alpha ∧ error = .levelsOutOfOrder pair.1.alpha pair.2.alpha) := by
  unfold validateLevels at h
  split_ifs at h with hsrid hcount
  · obtain ⟨hne, hnone⟩ := (Bool.and_eq_true _ _).mp hsrid
    exact Or.inl ⟨by simpa using hne, by simpa using hnone, (Except.error.inj h).symm⟩
  · exact Or.inr (Or.inl ⟨hcount, (Except.error.inj h).symm⟩)
  · obtain ⟨pair, hpair, hcheck⟩ := exists_of_forM_eq_error h
    refine Or.inr (Or.inr ⟨pair, hpair, ?_⟩)
    dsimp only at hcheck
    split_ifs at hcheck with heq hbefore
    · exact Or.inl ⟨Alpha.eq_iff.mp heq, (Except.error.inj hcheck).symm⟩
    · refine Or.inr ⟨?_, (Except.error.inj hcheck).symm⟩
      rw [beq_iff_eq, Alpha.cmp_eq, compare_lt_iff_lt] at hbefore
      exact hbefore
    · cases hcheck

theorem withVersion_eq_ok_iff {version : StorageVersion} {srid : Option Int32}
    {levels : List StoredLevel} {v : StoredFuzzyregion} :
    withVersion version srid levels = .ok v ↔
      v.version = version ∧ v.srid = srid ∧ v.levels = levels := by
  obtain ⟨version', srid', levels', hvalid⟩ := v
  constructor
  · intro h
    unfold withVersion at h
    split at h
    · cases h
      exact ⟨rfl, rfl, rfl⟩
    · cases h
  · rintro ⟨rfl, rfl, rfl⟩
    unfold withVersion
    split
    · rfl
    · next herror => cases hvalid.symm.trans herror

theorem withVersion_eq_error {version : StorageVersion} {srid : Option Int32}
    {levels : List StoredLevel} {error : StorageError}
    (h : withVersion version srid levels = .error error) :
    validateLevels srid levels = .error error := by
  unfold withVersion at h
  split at h
  · cases h
  · next herror => exact herror.trans (congrArg Except.error (Except.error.inj h))

theorem reads_decodePayload (h : ExactSums usize input.length) :
    Reads input (decodePayload usize) fun payload chunk =>
      payload.2.length = payload.1.levelCount.toNat ∧
        chunk = encodeHeader payload.1 ++ payload.2.flatMap encodeLevel := by
  refine (Reads.bind (reads_decodeHeader h) fun header _ _ =>
    Reads.bind (Reads.repeatRead (reads_decodeLevel h) header.levelCount.toNat) fun levels _ _ =>
    Reads.pure (header, levels)).congr fun payload chunk => ?_
  constructor
  · rintro ⟨header, c₁, -, rfl, ⟨levels, c₂, -, ⟨hlen, rfl⟩, ⟨rfl, rfl⟩, rfl⟩, rfl⟩
    exact ⟨hlen, by rw [List.append_nil]⟩
  · rintro ⟨hlen, rfl⟩
    exact ⟨payload.1, _, _, rfl, ⟨payload.2, _, [], ⟨hlen, rfl⟩, ⟨rfl, rfl⟩, rfl⟩,
      by rw [List.append_nil]⟩

/-- **The decoder accepts exactly the encodings.** -/
theorem decodeBody_eq_ok_iff {bytes : List UInt8} (h : ExactSums usize bytes.length)
    {v : StoredFuzzyregion} : decodeBody usize bytes = .ok v ↔ bytes = encodeBody v := by
  have hreads := reads_decodePayload h
  constructor
  · intro hok
    obtain ⟨⟨⟨header, levels⟩, reader⟩, hrun, hrest⟩ := bind_eq_ok_iff.mp hok
    obtain ⟨chunk, -, -, hreader⟩ :=
      (hreads (BodyReader.new bytes) rfl (Nat.zero_le _) _ _).mp hrun
    dsimp only at hrest
    -- the reader has stopped at the end of the input
    split_ifs at hrest with hfinished
    obtain ⟨hversion, hsrid, hlevels⟩ := withVersion_eq_ok_iff.mp hrest
    have hend : reader = ⟨bytes, bytes.length⟩ := by
      rw [Bool.not_eq_true', Bool.not_eq_false, BodyReader.isFinished, beq_iff_eq] at hfinished
      rw [hreader] at hfinished ⊢
      exact congrArg (Cursor.mk bytes) hfinished
    rw [hend] at hrun
    obtain ⟨hlen, hbytes⟩ := hreads.run_eq_ok_iff.mp hrun
    have hcount : UInt32.ofNat v.levels.length = header.levelCount := by
      rw [hlevels, hlen, UInt32.ofNat_toNat]
    rw [hbytes, encodeBody, hcount, hversion, hsrid, hlevels]
  · intro hbytes
    -- a count that was checked survives its cast
    have hcount := (validateLevels_eq_ok_iff.mp v.valid).2.1
    have hrun : (decodePayload usize).run (BodyReader.new bytes) =
        .ok ((⟨v.version, v.srid, UInt32.ofNat v.levels.length⟩, v.levels),
          ⟨bytes, bytes.length⟩) :=
      hreads.run_eq_ok_iff.mpr ⟨(toNat_ofNat_of_le_u32Max hcount).symm, hbytes⟩
    have hfinished : BodyReader.isFinished ⟨bytes, bytes.length⟩ = true := beq_self_eq_true _
    rw [decodeBody, hrun, ok_bind]
    simp only [hfinished, Bool.not_true, Bool.false_eq_true, if_false]
    exact withVersion_eq_ok_iff.mpr ⟨rfl, rfl, rfl⟩

/-! ## Round trips -/

/-- The storage invariants of a payload. -/
structure Invariant (v : StoredFuzzyregion) : Prop where
  sridPresent : v.levels ≠ [] → v.srid ≠ none
  inRange : ∀ l ∈ v.levels, 0 < l.alpha.toRat ∧ l.alpha.toRat ≤ 1
  descending : v.levels.Pairwise fun higher lower => lower.alpha < higher.alpha
  nonEmpty : ∀ l ∈ v.levels, l.geometryEwkb ≠ []

theorem invariant (v : StoredFuzzyregion) : Invariant v := by
  obtain ⟨hpresent, -, hchain⟩ := validateLevels_eq_ok_iff.mp v.valid
  exact {
    sridPresent := hpresent
    inRange := fun l _ => ⟨l.alpha.toRat_pos, l.alpha.toRat_le_one⟩
    descending := Descending.isChain_iff_pairwise.mp hchain
    nonEmpty := fun l _ => l.nonEmpty }

/-- A payload with levels at the memberships one and five eighths. -/
def sample : StoredFuzzyregion where
  version := .v1
  srid := some (-5)
  levels := [⟨Alpha.one, [1, 2, 3], by simp, by decide⟩,
    ⟨binaryAlpha 0x3FE4000000000000 (by decide), [4, 5], by simp, by decide⟩]
  valid := by decide +kernel

def sampleBytes : List UInt8 :=
  [70, 90, 82, 71, 1, 1, 0, 0, 0, 0, 0, 2, 255, 255, 255, 251,
    63, 240, 0, 0, 0, 0, 0, 0, 0, 0, 0, 3, 1, 2, 3,
    63, 228, 0, 0, 0, 0, 0, 0, 0, 0, 0, 2, 4, 5]

/-- **Decoding undoes encoding**, for every payload. -/
theorem decodeBody_encodeBody (v : StoredFuzzyregion) (hrun : RunsOn usize v.encodeBody) :
    decodeBody usize v.encodeBody = .ok v :=
  (decodeBody_eq_ok_iff hrun.exactSums).mpr rfl

theorem decodeBody_encodeBody_sample : decodeBody (· % 2 ^ 64) sample.encodeBody = .ok sample :=
  decodeBody_encodeBody sample (Or.inr ⟨64, by decide, by decide +kernel, rfl⟩)

/-- **Encoding undoes decoding**: whatever decodes is a valid payload and the encoding of it, so
no two byte strings decode to one payload. -/
theorem encodeBody_decodeBody {bytes : List UInt8} {v : StoredFuzzyregion}
    (hrun : RunsOn usize bytes) (hok : decodeBody usize bytes = .ok v) :
    Invariant v ∧ v.encodeBody = bytes ∧
      ∀ bytes', RunsOn usize bytes' → decodeBody usize bytes' = .ok v → bytes' = bytes := by
  have hbytes := (decodeBody_eq_ok_iff hrun.exactSums).mp hok
  refine ⟨invariant v, hbytes.symm, fun bytes' hrun' hok' => ?_⟩
  rw [hbytes]
  exact (decodeBody_eq_ok_iff hrun'.exactSums).mp hok'

theorem encodeBody_decodeBody_sample :
    Invariant sample ∧ sample.encodeBody = sampleBytes ∧
      ∀ bytes', RunsOn (· % 2 ^ 64) bytes' → decodeBody (· % 2 ^ 64) bytes' = .ok sample →
        bytes' = sampleBytes :=
  encodeBody_decodeBody (Or.inr ⟨64, by decide, by decide +kernel, rfl⟩) (by decide +kernel)

end StoredFuzzyregion

end FuzzyRegion
