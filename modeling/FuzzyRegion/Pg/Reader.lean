import FuzzyRegion.Pg.StorageCodec

/-!
# The reader over a run of reads

The decoder stops at its first failed read and drops the reader. A reader outlives its calls: each
returns a result and leaves a reader behind, and a failed call leaves the one it was given. Over a
run of such calls the offset never exceeds the input, and every read is exact, also where the sum of
offset and length wraps.

## Main definitions

* `Read`, `BodyReader.call`, `BodyReader.after`: a call, and the reader after a sequence of calls
* `BodyReader.ExactRead`: what a read should do

## Main results

* `call_of_fits`, `call_of_exceeds`: what one call of a run does
* `after_inBounds`: the offset stays within the input over a run
* `reads_exact`: every call of a run is exact
-/

namespace FuzzyRegion

open Cursor Fallible

/-! ## Calls -/

/-- A read of a given length. -/
inductive Read where
  | array (n : Nat)
  | vec (len : Nat)
deriving DecidableEq

def Read.len : Read → Nat
  | array n => n
  | vec len => len

namespace BodyReader

def call (usize : Nat → Nat) (self : BodyReader) :
    Read → Except StorageError (List UInt8) × BodyReader
  | .array n => readArray usize self n
  | .vec len => readVec usize self len

/-- The reader of an input after a sequence of calls, failed or not. -/
def after (usize : Nat → Nat) (bytes : List UInt8) (reads : List Read) : BodyReader :=
  reads.foldl (fun self read => (call usize self read).2) (new bytes)

variable {usize : Nat → Nat} {self : BodyReader} {read : Read}

theorem call_eq : call usize self read = readVec usize self read.len := by
  cases read <;> rfl

theorem after_concat (bytes : List UInt8) (reads : List Read) (read : Read) :
    after usize bytes (reads ++ [read]) = (call usize (after usize bytes reads) read).2 := by
  rw [after, List.foldl_append]
  rfl

/-! ## One call -/

/-- A read of what remains returns the next bytes. -/
theorem call_of_fits (h : ExactSums usize self.bytes.length) (hin : self.InBounds)
    (hfits : read.len ≤ remaining self) :
    call usize self read = (.ok (self.rest.take read.len), self.advance read.len) := by
  rw [call_eq]
  exact readVec_of_fits h hin hfits

/-- A read of more fails, also when the sum wraps. -/
theorem call_of_exceeds (h : ExactSums usize self.bytes.length) (hin : self.InBounds)
    (hlen : read.len < 2 ^ 32) (hexceeds : remaining self < read.len) :
    call usize self read =
      (.error (.truncated self.offset read.len (remaining self)), self) := by
  rw [call_eq]
  exact readVec_of_exceeds h hin hlen hexceeds

/-- One call keeps the input, and the offset within it. -/
theorem call_inBounds (h : ExactSums usize self.bytes.length) (hin : self.InBounds)
    (hlen : read.len < 2 ^ 32) :
    (call usize self read).2.bytes = self.bytes ∧ (call usize self read).2.InBounds := by
  rcases Nat.lt_or_ge (remaining self) read.len with hexceeds | hfits
  · rw [call_of_exceeds h hin hlen hexceeds]
    exact ⟨rfl, hin⟩
  · rw [call_of_fits h hin hfits]
    refine ⟨rfl, ?_⟩
    rw [remaining] at hfits
    rw [InBounds] at hin
    change self.offset + read.len ≤ self.bytes.length
    omega

/-! ## Runs of calls -/

/-- Over a run the offset stays within the input. -/
theorem after_inBounds {bytes : List UInt8} (h : ExactSums usize bytes.length)
    {reads : List Read} (hreads : ∀ read ∈ reads, read.len < 2 ^ 32) :
    (after usize bytes reads).bytes = bytes ∧ (after usize bytes reads).InBounds := by
  induction reads using List.reverseRecOn with
  | nil => exact ⟨rfl, Nat.zero_le _⟩
  | append_singleton reads read ih =>
    obtain ⟨hbytes, hin⟩ := ih fun r hr => hreads r (List.mem_append_left _ hr)
    rw [after_concat]
    -- the last call is made by a reader of the same input
    have hcall := call_inBounds (hbytes.symm ▸ h) hin (hreads read (by simp))
    rwa [hbytes] at hcall

/-- A read succeeds exactly when what remains is enough. Then it returns the next bytes and moves past
them; otherwise it reports the offset, the length and what remains, and leaves the reader as it was. -/
structure ExactRead (usize : Nat → Nat) (reader : BodyReader) (read : Read) : Prop where
  succeeds_iff : (∃ slice, (call usize reader read).1 = .ok slice) ↔ read.len ≤ remaining reader
  ok : read.len ≤ remaining reader → call usize reader read =
    (.ok ((reader.bytes.drop reader.offset).take read.len),
      ⟨reader.bytes, reader.offset + read.len⟩)
  error : remaining reader < read.len → call usize reader read =
    (.error (.truncated reader.offset read.len (remaining reader)), reader)

theorem exactRead (h : ExactSums usize self.bytes.length) (hin : self.InBounds)
    (hlen : read.len < 2 ^ 32) : ExactRead usize self read where
  succeeds_iff := by
    rcases Nat.lt_or_ge (remaining self) read.len with hexceeds | hfits
    · rw [call_of_exceeds h hin hlen hexceeds]
      exact iff_of_false (fun ⟨_, hok⟩ => nomatch hok) hexceeds.not_ge
    · rw [call_of_fits h hin hfits]
      exact iff_of_true ⟨_, rfl⟩ hfits
  ok := call_of_fits h hin
  error := call_of_exceeds h hin hlen

/-- **Every read of a run is exact**, in words of at least 32 bits: after any sequence of calls the
reader is one of the same input, its offset is within it, and the next read is exact. -/
theorem reads_exact {w : Nat} (hw : 32 ≤ w) {bytes : List UInt8}
    (hbytes : bytes.length < 2 ^ (w - 1)) {reads : List Read}
    (hreads : ∀ read ∈ reads, read.len < 2 ^ 32) :
    (after (· % 2 ^ w) bytes reads).bytes = bytes ∧
    (after (· % 2 ^ w) bytes reads).offset ≤ bytes.length ∧
    ∀ read : Read, read.len < 2 ^ 32 →
      ExactRead (· % 2 ^ w) (after (· % 2 ^ w) bytes reads) read := by
  have h := exactSums_wrapping hw hbytes
  obtain ⟨hsame, hin⟩ := after_inBounds h hreads
  refine ⟨hsame, ?_, fun read hlen => exactRead (hsame.symm ▸ h) hin hlen⟩
  rw [InBounds, hsame] at hin
  exact hin

/-- A length that makes the sum wrap to three, one below the offset. -/
theorem reads_exact_wraps :
    (4 + (2 ^ 32 - 1)) % 2 ^ 32 = 3 ∧
    call (· % 2 ^ 32) (after (· % 2 ^ 32) StoredFuzzyregion.sampleBytes [.array 4])
        (.vec (2 ^ 32 - 1)) =
      (.error (.truncated 4 (2 ^ 32 - 1) 41), ⟨StoredFuzzyregion.sampleBytes, 4⟩) := by
  have hlen : StoredFuzzyregion.sampleBytes.length < 2 ^ (32 - 1) := by decide
  have hreads : ∀ read ∈ [Read.array 4], read.len < 2 ^ 32 := by decide
  have hexact := (reads_exact (w := 32) le_rfl hlen hreads).2.2 (.vec (2 ^ 32 - 1)) (by decide)
  exact ⟨by decide, hexact.error (by decide)⟩

end BodyReader

end FuzzyRegion
