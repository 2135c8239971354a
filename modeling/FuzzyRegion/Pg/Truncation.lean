import FuzzyRegion.Pg.StorageCodec

/-!
# Payloads cut short, payloads extended, and the room reserved for them

An encoding that is cut short ends inside one of its fields, and the read of that field is what the
decoder reports. An encoding with bytes after it decodes to the end of its last record and leaves
these bytes over. Between header and records the decoder reserves room for as many levels as the
header announces, whether or not the bytes after it can hold their records.

## Main definitions

* `decodeBodyRecorded`: the decoder with the request for room recorded

## Main results

* `runsOut_decodePayload`: the decoder reports the end of a payload cut short
* `decodeBody_cut_or_extended`: the errors on both kinds of damaged encodings
* `reserves_within_input_iff`: when the room asked for is in proportion to the input
-/

namespace FuzzyRegion

open Numeric Cursor Fallible BigEndian

variable {usize : Nat → Nat} {input : List UInt8}

/-! ## Reads at the end of the input -/

theorem runsOut_readVec (h : ExactSums usize input.length) {n : Nat} (hn : n < 2 ^ 32)
    {chunk : List UInt8} (hlen : chunk.length = n) :
    RunsOut input .truncated (readVec usize n) chunk := by
  intro c hc hin hpre hne
  subst hc
  -- a proper prefix is shorter
  have hshort : c.rest.length < chunk.length :=
    hpre.length_le.lt_of_ne fun heq => hne (hpre.eq_of_length heq)
  rw [BodyReader.length_rest, hlen] at hshort
  exact ⟨c.offset, n, hin, hshort,
    run_ofCall_error (BodyReader.readVec_of_exceeds h hin hn hshort)⟩

theorem runsOut_readNumber (h : ExactSums usize input.length) {n : Nat} (hn : n < 2 ^ 32)
    {chunk : List UInt8} (hlen : chunk.length = n) :
    RunsOut input .truncated (readNumber usize n) chunk :=
  (runsOut_readVec h hn hlen).map

namespace StoredFuzzyregion

theorem runsOut_readMagic (h : ExactSums usize input.length) :
    RunsOut input .truncated (readMagic usize) storageMagic :=
  .bind_nil (reads_readVec h (by omega)) ⟨rfl, rfl⟩ (runsOut_readVec h (by omega) rfl)

theorem runsOut_readVersion (h : ExactSums usize input.length) (version : StorageVersion) :
    RunsOut input .truncated (readVersion usize) [version.asU8] :=
  .bind_nil (reads_readU8 h) rfl (runsOut_readNumber h (n := 1) (by omega) rfl).map

theorem runsOut_readFlags (h : ExactSums usize input.length) (b : UInt8) :
    RunsOut input .truncated (readFlags usize) [b] :=
  .bind_nil (reads_readU8 h) rfl (runsOut_readNumber h (n := 1) (by omega) rfl).map

theorem runsOut_readReserved (h : ExactSums usize input.length) :
    RunsOut input .truncated (readReserved usize) (toBytes 2 reservedHeader.toNat) :=
  .bind_nil (reads_readU16 h) rfl (runsOut_readNumber h (by omega) (length_toBytes _ _)).map

theorem runsOut_readSrid (h : ExactSums usize input.length) (srid : Option Int32) :
    RunsOut input .truncated (readSrid usize (flags srid)) (encodeSrid srid) := by
  cases srid with
  | none => exact .nil _
  | some srid =>
    have hread : RunsOut input .truncated (readI32 usize) (encodeSrid (some srid)) :=
      (runsOut_readNumber h (by omega) (length_toBytes _ _)).map
    have hflag : flags (some srid) = 1 := rfl
    rw [hflag]
    exact hread.map

/-! ## The decoder at the end of the input -/

theorem runsOut_decodeHeader (h : ExactSums usize input.length) (header : Header) :
    RunsOut input .truncated (decodeHeader usize) (encodeHeader header) := by
  simp only [encodeHeader, List.append_assoc]
  refine .bind (reads_readMagic h) (a := ()) rfl (runsOut_readMagic h) ?_
  refine .bind (reads_readVersion h) rfl (runsOut_readVersion h header.version) ?_
  refine .bind (reads_readFlags h) ⟨flags_mem header.srid, rfl⟩ (runsOut_readFlags h _) ?_
  refine .bind (reads_readReserved h) (a := ()) rfl (runsOut_readReserved h) ?_
  refine .bind (reads_readU32 h) rfl (runsOut_readNumber h (by omega) (length_toBytes _ _)).map ?_
  exact .bind_nil (reads_readSrid h (flags_mem header.srid)) ⟨rfl, rfl⟩
    (runsOut_readSrid h header.srid)

theorem runsOut_decodeLevel (h : ExactSums usize input.length) (level : StoredLevel) :
    RunsOut input .truncated (decodeLevel usize) (encodeLevel level) := by
  simp only [encodeLevel, List.append_assoc]
  refine .bind (reads_readF64 h) rfl (runsOut_readNumber h (by omega) (length_toBytes _ _)).map ?_
  -- the alpha of a level passes the check of its value
  have hcheck : (Alpha.tryFrom level.alpha.value).mapError StorageError.invalidAlpha =
      .ok level.alpha := by
    rw [Alpha.tryFrom_value, mapError_ok]
  rw [← List.nil_append (toBytes 4 _ ++ _)]
  refine .bind (Reads.lift _) ⟨hcheck, rfl⟩ (.nil _) ?_
  refine .bind (reads_readU32 h) rfl (runsOut_readNumber h (by omega) (length_toBytes _ _)).map ?_
  have hlen := toNat_ofNat_of_le_u32Max level.small
  have hbound := (UInt32.ofNat level.geometryEwkb.length).toNat_lt
  exact .bind_nil (reads_readVec h hbound) ⟨hlen.symm, rfl⟩ (runsOut_readVec h hbound hlen.symm)

theorem runsOut_decodePayload (h : ExactSums usize input.length) (header : Header)
    (levels : List StoredLevel) (hcount : levels.length = header.levelCount.toNat) :
    RunsOut input .truncated (decodePayload usize)
      (encodeHeader header ++ levels.flatMap encodeLevel) := by
  refine .bind (reads_decodeHeader h) rfl (runsOut_decodeHeader h header) ?_
  have hloop := RunsOut.repeatRead (reads_decodeLevel h) (runsOut_decodeLevel h) levels
  rw [hcount] at hloop
  exact .bind_nil (Reads.repeatRead (reads_decodeLevel h) _) ⟨hcount, rfl⟩ hloop

/-! ## Damaged encodings -/

/-- The cast of the level count of a payload does not truncate. -/
theorem length_levels_eq (v : StoredFuzzyregion) :
    v.levels.length = (UInt32.ofNat v.levels.length).toNat :=
  (toNat_ofNat_of_le_u32Max (validateLevels_eq_ok_iff.mp v.valid).2.1).symm

/-- An encoding cut short ends inside a field. -/
theorem decodeBody_take (v : StoredFuzzyregion) {k : Nat} (hk : k < v.encodeBody.length)
    (hrun : RunsOn usize (v.encodeBody.take k)) :
    ∃ offset needed, decodeBody usize (v.encodeBody.take k) =
        .error (.truncated offset needed (k - offset)) ∧ offset ≤ k ∧ k - offset < needed := by
  have hlength : (v.encodeBody.take k).length = k := List.length_take_of_le hk.le
  have hout := runsOut_decodePayload hrun.exactSums ⟨v.version, v.srid, _⟩ v.levels
    (length_levels_eq v)
  obtain ⟨offset, needed, hoffset, hneeded, herror⟩ :=
    hout (BodyReader.new (v.encodeBody.take k)) rfl (Nat.zero_le _) (List.take_prefix k _) <| by
      intro heq
      have hlen := congrArg List.length heq
      rw [show (BodyReader.new (v.encodeBody.take k)).rest = v.encodeBody.take k from rfl,
        hlength] at hlen
      exact hk.ne hlen
  rw [hlength] at hoffset hneeded herror
  exact ⟨offset, needed, by rw [decodeBody, herror]; rfl, hoffset, hneeded⟩

/-- What is left after the first part of an input. -/
theorem remaining_advance_new (chunk rest : List UInt8) :
    BodyReader.remaining ((BodyReader.new (chunk ++ rest)).advance chunk.length) =
      rest.length := by
  simp [BodyReader.remaining, BodyReader.new, advance]

/-- An encoding with bytes after it decodes up to its own end. -/
theorem decodeBody_append (v : StoredFuzzyregion) {x : List UInt8} (hx : x ≠ [])
    (hrun : RunsOn usize (v.encodeBody ++ x)) :
    decodeBody usize (v.encodeBody ++ x) = .error (.trailingBytes x.length) := by
  have hpayload := (reads_decodePayload hrun.exactSums).run_of_begins
    (c := BodyReader.new (v.encodeBody ++ x)) rfl (Nat.zero_le _)
    (a := (⟨v.version, v.srid, _⟩, v.levels)) ⟨length_levels_eq v, rfl⟩
    (List.prefix_append v.encodeBody x)
  -- the reader stops where the encoding ends
  have hfinished : BodyReader.isFinished ((BodyReader.new (v.encodeBody ++ x)).advance
      v.encodeBody.length) = false := by
    simpa [BodyReader.isFinished, BodyReader.new, advance] using hx
  have hrest : decodeBody usize (v.encodeBody ++ x) =
      if !BodyReader.isFinished ((BodyReader.new (v.encodeBody ++ x)).advance
          v.encodeBody.length) then
        .error (.trailingBytes (BodyReader.remaining ((BodyReader.new (v.encodeBody ++ x)).advance
          v.encodeBody.length)))
      else withVersion v.version v.srid v.levels := by
    rw [decodeBody]
    exact (congrArg (· >>= _) hpayload).trans rfl
  rw [hrest, hfinished, remaining_advance_new]
  rfl

/-- **A damaged encoding is refused for its damage**: cut short, it is truncated, with the offset
and the size of a field that does not fit; extended, it has as many bytes left over as were added. -/
theorem decodeBody_cut_or_extended (v : StoredFuzzyregion) :
    (∀ k < v.encodeBody.length, RunsOn usize (v.encodeBody.take k) →
      ∃ offset needed remaining,
        decodeBody usize (v.encodeBody.take k) = .error (.truncated offset needed remaining) ∧
          offset ≤ k ∧ remaining = k - offset ∧ remaining < needed) ∧
    ∀ x ≠ [], RunsOn usize (v.encodeBody ++ x) →
      decodeBody usize (v.encodeBody ++ x) = .error (.trailingBytes x.length) := by
  constructor
  · intro k hk hrun
    obtain ⟨offset, needed, herror, hoffset, hneeded⟩ := decodeBody_take v hk hrun
    exact ⟨offset, needed, k - offset, herror, hoffset, rfl, hneeded⟩
  · intro x hx hrun
    exact decodeBody_append v hx hrun

theorem decodeBody_cut_or_extended_sample :
    (∃ offset needed remaining, decodeBody (· % 2 ^ 64) (sample.encodeBody.take 33) =
        .error (.truncated offset needed remaining) ∧
      offset ≤ 33 ∧ remaining = 33 - offset ∧ remaining < needed) ∧
    decodeBody (· % 2 ^ 32) (sample.encodeBody ++ [7]) = .error (.trailingBytes 1) :=
  ⟨(decodeBody_cut_or_extended sample).1 33 (by decide +kernel)
      (Or.inr ⟨64, by decide, by decide +kernel, rfl⟩),
    (decodeBody_cut_or_extended sample).2 [7] (by simp)
      (Or.inr ⟨32, by decide, by decide +kernel, rfl⟩)⟩

/-! ## Room for the levels -/

def levelRecordHeaderLen : Nat := 12

/-- A call of `Vec::with_capacity`: its argument, and the bytes that are still unread. -/
structure Reservation where
  capacity : Nat
  unread : Nat
deriving DecidableEq

/-- `decode_body`, with the step `Vec::with_capacity(level_count)` recorded. -/
def decodeBodyRecorded (usize : Nat → Nat) (bytes : List UInt8) :
    Option Reservation × Except StorageError StoredFuzzyregion :=
  match (decodeHeader usize).run (BodyReader.new bytes) with
  | .error error => (none, .error error)
  | .ok (header, reader) =>
    let levelCount := header.levelCount.toNat
    (some ⟨levelCount, BodyReader.remaining reader⟩, do
      let (levels, reader) ← (repeatRead (decodeLevel usize) levelCount).run reader
      if !BodyReader.isFinished reader then throw (.trailingBytes (BodyReader.remaining reader))
      else withVersion header.version header.srid levels)

/-- The record changes nothing about the result. -/
theorem decodeBodyRecorded_snd (usize : Nat → Nat) (bytes : List UInt8) :
    (decodeBodyRecorded usize bytes).2 = decodeBody usize bytes := by
  rw [decodeBody, decodePayload, StateT.run_bind, decodeBodyRecorded]
  cases (decodeHeader usize).run (BodyReader.new bytes) with
  | error error => rfl
  | ok result =>
    obtain ⟨header, reader⟩ := result
    rw [ok_bind]
    dsimp only
    rw [StateT.run_bind]
    cases (repeatRead (decodeLevel usize) header.levelCount.toNat).run reader <;> rfl

/-- The room that is asked for, and what is left of the input then. -/
theorem decodeBodyRecorded_fst_iff (hrun : RunsOn usize input) {r : Reservation} :
    (decodeBodyRecorded usize input).1 = some r ↔
      ∃ header rest, input = encodeHeader header ++ rest ∧
        r = ⟨header.levelCount.toNat, rest.length⟩ := by
  have hreads := reads_decodeHeader hrun.exactSums (BodyReader.new input) rfl (Nat.zero_le _)
  have hstart : (BodyReader.new input).rest = input := rfl
  rw [decodeBodyRecorded]
  constructor
  · intro hfst
    cases hheader : (decodeHeader usize).run (BodyReader.new input) with
    | error error => simp [hheader] at hfst
    | ok result =>
      obtain ⟨header, reader⟩ := result
      obtain ⟨-, rfl, ⟨rest, hrest⟩, rfl⟩ := (hreads header reader).mp hheader
      rw [hheader] at hfst
      obtain rfl : encodeHeader header ++ rest = input := hrest.trans hstart
      refine ⟨header, rest, rfl, (Option.some.inj hfst).symm.trans ?_⟩
      rw [remaining_advance_new]
  · rintro ⟨header, rest, rfl, rfl⟩
    have hheader := (hreads header _).mpr ⟨_, rfl, List.prefix_append _ rest, rfl⟩
    rw [hheader, ← remaining_advance_new (encodeHeader header) rest]

/-- **The decoder asks for room in proportion to its input** exactly when the input does not begin
with a header that announces more records than the bytes after it can hold. -/
theorem reserves_within_input_iff (hrun : RunsOn usize input) :
    (∀ r, (decodeBodyRecorded usize input).1 = some r →
      levelRecordHeaderLen * r.capacity ≤ r.unread) ↔
    ∀ header rest, input = encodeHeader header ++ rest →
      levelRecordHeaderLen * header.levelCount.toNat ≤ rest.length := by
  simp only [decodeBodyRecorded_fst_iff hrun]
  constructor
  · intro h header rest hinput
    exact h _ ⟨header, rest, hinput, rfl⟩
  · rintro h r ⟨header, rest, hinput, rfl⟩
    exact h header rest hinput

theorem reserves_within_input_iff_sample :
    (decodeBodyRecorded (· % 2 ^ 64) sampleBytes).1 = some ⟨2, 29⟩ ∧
    ∀ header rest, sampleBytes = encodeHeader header ++ rest →
      levelRecordHeaderLen * header.levelCount.toNat ≤ rest.length := by
  have hfst : (decodeBodyRecorded (· % 2 ^ 64) sampleBytes).1 = some ⟨2, 29⟩ := by decide +kernel
  refine ⟨hfst, (reserves_within_input_iff (Or.inr ⟨64, by decide, by decide, rfl⟩)).mp ?_⟩
  intro r hr
  obtain rfl := Option.some.inj (hfst.symm.trans hr)
  decide

/-- A header alone, which announces as many levels as its count can. -/
def headerOnly : List UInt8 := [70, 90, 82, 71, 1, 0, 0, 0, 255, 255, 255, 255]

/-- The decoder asks for room for all of them before it finds the input at its end. -/
theorem headerOnly_reserves :
    decodeBodyRecorded (· % 2 ^ 64) headerOnly =
      (some ⟨2 ^ 32 - 1, 0⟩, .error (.truncated 12 8 0)) ∧
    ¬ ∀ r, (decodeBodyRecorded (· % 2 ^ 64) headerOnly).1 = some r →
      levelRecordHeaderLen * r.capacity ≤ r.unread := by
  have hrecorded : decodeBodyRecorded (· % 2 ^ 64) headerOnly =
      (some ⟨2 ^ 32 - 1, 0⟩, .error (.truncated 12 8 0)) := by
    decide +kernel
  refine ⟨hrecorded, fun h => ?_⟩
  have hroom := h ⟨2 ^ 32 - 1, 0⟩ (congrArg Prod.fst hrecorded)
  exact absurd hroom (by decide)

end StoredFuzzyregion

end FuzzyRegion
