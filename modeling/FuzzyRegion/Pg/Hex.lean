import FuzzyRegion.Pg.SqlType
import Mathlib.Data.List.Induction

/-!
# Hexadecimal texts

The decoder works on the UTF-8 bytes of a text, in pairs. Every byte of a character beyond ASCII is
beyond ASCII too, hence no digit, so a pair of bytes is accepted only where it is a pair of
characters. The pairs are read in order and the high half first, so a refusal is about the first
byte that is no digit.

## Main definitions

* `hexValue`, `isHexDigit`: the value of a hexadecimal digit of either case
* `HexText text bytes`: the pairs of digits of the text denote the bytes
* `FirstNonDigit bytes index byte`: where the first byte is that is no digit

## Main results

* `toOption_decodeNibble`: the digits that the decoder accepts
* `decodeHex_eq_ok_iff`: the texts that the decoder accepts, and what it returns
* `HexText.encodeHex_eq`: the encoder returns the text in lower case
* `firstNonDigit_of_decodePairs`: where the loop over the pairs fails
* `decodeHex_exact`: acceptance, inverse and errors of the decoder
-/

namespace FuzzyRegion

open Fallible

/-- The value of a hexadecimal digit, of either case. -/
def hexValue (c : Char) : Option UInt8 :=
  if '0' ≤ c ∧ c ≤ '9' then some (.ofNat (c.toNat - '0'.toNat))
  else if 'a' ≤ c ∧ c ≤ 'f' then some (.ofNat (c.toNat - 'a'.toNat + 10))
  else if 'A' ≤ c ∧ c ≤ 'F' then some (.ofNat (c.toNat - 'A'.toNat + 10))
  else none

/-- A hexadecimal digit of either case. -/
def isHexDigit (c : Char) : Bool := (hexValue c).isSome

/-- A text of pairs of hexadecimal digits, and the bytes that the pairs denote. -/
inductive HexText : List Char → List UInt8 → Prop where
  | nil : HexText [] []
  | cons {c d : Char} {high low : UInt8} {text : List Char} {bytes : List UInt8}
      (hhigh : hexValue c = some high) (hlow : hexValue d = some low) (h : HexText text bytes) :
      HexText (c :: d :: text) ((16 * high + low) :: bytes)

/-! ## Digits -/

theorem hexValue_eq_some {c : Char} {x : UInt8} (h : hexValue c = some x) :
    c.toNat < 128 ∧ x.toNat < 16 := by
  have hlt : ∀ {a b : Char}, a ≤ c ∧ c ≤ b → a.toNat ≤ c.toNat ∧ c.toNat ≤ b.toNat := id
  unfold hexValue at h
  split_ifs at h with h0 ha hA
  · obtain rfl := Option.some.inj h
    have hc := hlt h0
    simp only [UInt8.toNat_ofNat', Char.reduceToNat] at hc ⊢
    omega
  · obtain rfl := Option.some.inj h
    have hc := hlt ha
    simp only [UInt8.toNat_ofNat', Char.reduceToNat] at hc ⊢
    omega
  · obtain rfl := Option.some.inj h
    have hc := hlt hA
    simp only [UInt8.toNat_ofNat', Char.reduceToNat] at hc ⊢
    omega

/-- The digits that the decoder accepts. -/
theorem toOption_decodeNibble (byte : UInt8) (index : Nat) :
    (decodeNibble byte index).toOption = hexValue (Char.ofNat byte.toNat) := by
  have hindex : (decodeNibble byte index).toOption = (decodeNibble byte 0).toOption := by
    unfold decodeNibble
    split_ifs <;> rfl
  have hall : ∀ b : Fin 256,
      (decodeNibble (UInt8.ofNat b) 0).toOption = hexValue (Char.ofNat b) := by
    decide +kernel
  rw [hindex]
  simpa using hall ⟨byte.toNat, byte.toNat_lt⟩

theorem decodeNibble_eq_ok_iff {byte x : UInt8} {index : Nat} :
    decodeNibble byte index = .ok x ↔ hexValue (Char.ofNat byte.toNat) = some x := by
  rw [← toOption_decodeNibble byte index]
  cases decodeNibble byte index <;> simp [Except.toOption]

theorem hexDigit_of_hexValue {c : Char} {x : UInt8} (h : hexValue c = some x) :
    hexDigit x = c.toLower := by
  have hall : ∀ b : Fin 128, (hexValue (Char.ofNat b)).all
      fun x => hexDigit x == (Char.ofNat b).toLower := by
    decide +kernel
  have hc := hall ⟨c.toNat, (hexValue_eq_some h).1⟩
  rw [Char.ofNat_toNat, h] at hc
  simpa using hc

theorem shift_or_eq {high low : UInt8} (hhigh : high.toNat < 16) (hlow : low.toNat < 16) :
    high <<< 4 ||| low = 16 * high + low := by
  have hall : ∀ i j : Fin 16, UInt8.ofNat i <<< 4 ||| UInt8.ofNat j =
      16 * UInt8.ofNat i + UInt8.ofNat j := by
    decide +kernel
  simpa using hall ⟨high.toNat, hhigh⟩ ⟨low.toNat, hlow⟩

theorem shift_and_eq {high low : UInt8} (hhigh : high.toNat < 16) (hlow : low.toNat < 16) :
    (16 * high + low) >>> 4 = high ∧ (16 * high + low) &&& 0x0f = low := by
  have hall : ∀ i j : Fin 16,
      (16 * UInt8.ofNat i + UInt8.ofNat j) >>> 4 = UInt8.ofNat i ∧
        (16 * UInt8.ofNat i + UInt8.ofNat j) &&& 0x0f = UInt8.ofNat j := by
    decide +kernel
  simpa using hall ⟨high.toNat, hhigh⟩ ⟨low.toNat, hlow⟩

/-! ## Pairs of digits -/

theorem HexText.length_eq {text : List Char} {bytes : List UInt8} (h : HexText text bytes) :
    text.length = 2 * bytes.length := by
  induction h with
  | nil => rfl
  | cons _ _ _ ih =>
    rw [List.length_cons, List.length_cons, ih, List.length_cons]
    omega

theorem HexText.digits {text : List Char} {bytes : List UInt8} (h : HexText text bytes) :
    ∀ c ∈ text, isHexDigit c = true := by
  induction h with
  | nil => simp
  | cons hhigh hlow _ ih =>
    exact List.forall_mem_cons.mpr ⟨Option.isSome_of_eq_some hhigh,
      List.forall_mem_cons.mpr ⟨Option.isSome_of_eq_some hlow, ih⟩⟩

theorem ascii_of_digits {text : List Char} (h : ∀ c ∈ text, isHexDigit c = true) :
    ∀ c ∈ text, c.toNat < 128 := by
  intro c hc
  obtain ⟨x, hx⟩ := Option.isSome_iff_exists.mp (h c hc)
  exact (hexValue_eq_some hx).1

/-- Digits are single bytes. -/
theorem length_utf8_of_digits {text : List Char} (h : ∀ c ∈ text, isHexDigit c = true) :
    (Text.utf8 text).length = text.length := by
  have hlen := congrArg List.length (Text.map_utf8_ascii (ascii_of_digits h))
  rwa [List.length_map] at hlen

/-- The encoder writes the pairs in lower case. -/
theorem HexText.encodeHex_eq {text : List Char} {bytes : List UInt8} (h : HexText text bytes) :
    encodeHex bytes = text.map Char.toLower := by
  induction h with
  | nil => rfl
  | @cons c d high low text bytes hhigh hlow h ih =>
    obtain ⟨hshift, hmask⟩ := shift_and_eq (hexValue_eq_some hhigh).2 (hexValue_eq_some hlow).2
    rw [encodeHex, List.flatMap_cons, hshift, hmask, hexDigit_of_hexValue hhigh,
      hexDigit_of_hexValue hlow, List.map_cons, List.map_cons, ← ih]
    rfl

/-- The texts of pairs of digits are the texts of an even number of digits. -/
theorem exists_hexText_iff {text : List Char} :
    (∃ bytes, HexText text bytes) ↔
      text.length % 2 = 0 ∧ ∀ c ∈ text, isHexDigit c = true := by
  constructor
  · rintro ⟨bytes, h⟩
    refine ⟨?_, h.digits⟩
    rw [h.length_eq]
    omega
  · rintro ⟨heven, hdigits⟩
    induction text using List.twoStepInduction with
    | nil => exact ⟨[], .nil⟩
    | singleton c => simp at heven
    | cons_cons c d text ih _ =>
      obtain ⟨hc, hrest⟩ := List.forall_mem_cons.mp hdigits
      obtain ⟨hd, htext⟩ := List.forall_mem_cons.mp hrest
      obtain ⟨high, hhigh⟩ := Option.isSome_iff_exists.mp hc
      obtain ⟨low, hlow⟩ := Option.isSome_iff_exists.mp hd
      have htail : text.length % 2 = 0 := by
        rw [List.length_cons, List.length_cons] at heven
        omega
      obtain ⟨bytes, hbytes⟩ := ih htail htext
      exact ⟨_, .cons hhigh hlow hbytes⟩

/-- The character that a byte is on its own. -/
abbrev byteChar (byte : UInt8) : Char := Char.ofNat byte.toNat

theorem toNat_byteChar (byte : UInt8) : (byteChar byte).toNat = byte.toNat := by
  have hall : ∀ b : Fin 256, (Char.ofNat b).toNat = b := by decide +kernel
  simpa using hall ⟨byte.toNat, byte.toNat_lt⟩

/-- The loop over the pairs accepts bytes that are pairs of digits. -/
theorem decodePairs_eq_ok_iff {input out : List UInt8} (heven : input.length % 2 = 0)
    (index : Nat) : decodePairs index input = .ok out ↔ HexText (input.map byteChar) out := by
  induction index, input using decodePairs.induct generalizing out with
  | case1 index first second rest ih =>
    have hrest : rest.length % 2 = 0 := by
      rw [List.length_cons, List.length_cons] at heven
      omega
    simp only [decodePairs, bind_eq_ok_iff, decodeNibble_eq_ok_iff, ih hrest, pure_eq_ok_iff]
    constructor
    · rintro ⟨high, hhigh, low, hlow, bytes, hbytes, rfl⟩
      rw [shift_or_eq (hexValue_eq_some hhigh).2 (hexValue_eq_some hlow).2]
      exact .cons hhigh hlow hbytes
    · intro h
      cases h with
      | cons hhigh hlow hbytes =>
        refine ⟨_, hhigh, _, hlow, _, hbytes, ?_⟩
        rw [shift_or_eq (hexValue_eq_some hhigh).2 (hexValue_eq_some hlow).2]
  | case2 input index hshort =>
    cases input with
    | nil =>
      rw [decodePairs, pure_eq_ok_iff]
      · constructor
        · rintro rfl
          exact .nil
        · intro h
          cases h
          rfl
      · simp
    | cons first rest =>
      cases rest with
      | nil => simp at heven
      | cons second rest => exact absurd rfl (hshort first second rest)

/-- **The decoder accepts the texts of pairs of hexadecimal digits**, and returns the bytes that
they denote. -/
theorem decodeHex_eq_ok_iff {text : List Char} {bytes : List UInt8} :
    decodeHex text = .ok bytes ↔ HexText text bytes := by
  rw [decodeHex]
  split_ifs with hodd
  · -- the bytes of a text of digits are as many as its characters
    refine iff_of_false (by simp) fun h => hodd ?_
    rw [length_utf8_of_digits h.digits, h.length_eq]
    omega
  · rw [decodePairs_eq_ok_iff (not_not.mp hodd)]
    constructor
    · intro h
      -- digits are ASCII, so the bytes are the characters
      have hascii : ∀ byte ∈ Text.utf8 text, byte.toNat < 128 := by
        intro byte hbyte
        have hlt := ascii_of_digits h.digits _ (List.mem_map_of_mem hbyte)
        rwa [toNat_byteChar] at hlt
      rwa [Text.map_utf8_ascii (Text.ascii_of_utf8 hascii)] at h
    · intro h
      rwa [Text.map_utf8_ascii (ascii_of_digits h.digits)]

/-! ## Refusals -/

/-- The first byte that is no digit, and its position. -/
structure FirstNonDigit (bytes : List UInt8) (index : Nat) (byte : UInt8) : Prop where
  found : bytes[index]? = some byte
  not_digit : isHexDigit (byteChar byte) = false
  first : ∀ j < index, ∀ earlier, bytes[j]? = some earlier → isHexDigit (byteChar earlier) = true

theorem FirstNonDigit.here {byte : UInt8} (h : isHexDigit (byteChar byte) = false)
    (rest : List UInt8) : FirstNonDigit (byte :: rest) 0 byte :=
  ⟨rfl, h, fun _ hj => absurd hj (Nat.not_lt_zero _)⟩

theorem FirstNonDigit.there {bytes : List UInt8} {index : Nat} {digit byte : UInt8}
    (hdigit : isHexDigit (byteChar digit) = true) (h : FirstNonDigit bytes index byte) :
    FirstNonDigit (digit :: bytes) (index + 1) byte := by
  refine ⟨h.found, h.not_digit, fun j hj earlier hearlier => ?_⟩
  cases j with
  | zero =>
    obtain rfl : digit = earlier := Option.some.inj hearlier
    exact hdigit
  | succ j => exact h.first j (Nat.lt_of_succ_lt_succ hj) earlier hearlier

theorem decodeNibble_eq_error_iff {byte : UInt8} {index : Nat} {e : TextFormatError} :
    decodeNibble byte index = .error e ↔
      isHexDigit (byteChar byte) = false ∧ e = .invalidHexDigit index (byteChar byte) := by
  rw [isHexDigit, ← toOption_decodeNibble byte index]
  unfold decodeNibble
  split_ifs <;> simp [Except.toOption, eq_comm]

/-- The loop over the pairs fails at the first byte that is no digit. -/
theorem firstNonDigit_of_decodePairs {input : List UInt8} {index : Nat} {e : TextFormatError}
    (h : decodePairs index input = .error e) :
    ∃ i byte, FirstNonDigit input i byte ∧
      e = .invalidHexDigit (index * 2 + i) (byteChar byte) := by
  induction index, input using decodePairs.induct with
  | case1 index first second rest ih =>
    simp only [decodePairs, bind_eq_error_iff, decodeNibble_eq_error_iff,
      decodeNibble_eq_ok_iff] at h
    rcases h with ⟨hfirst, rfl⟩ | ⟨high, hhigh, ⟨hsecond, rfl⟩ | ⟨low, hlow, hrest⟩⟩
    · exact ⟨0, first, .here hfirst _, rfl⟩
    · exact ⟨1, second, .there (Option.isSome_of_eq_some hhigh) (.here hsecond _), rfl⟩
    · -- the pair is accepted, so the later pairs are not
      have herror : decodePairs (index + 1) rest = .error e :=
        hrest.resolve_right fun ⟨_, _, hok⟩ => nomatch hok
      obtain ⟨i, byte, hi, rfl⟩ := ih herror
      refine ⟨i + 2, byte, .there (Option.isSome_of_eq_some hhigh)
        (.there (Option.isSome_of_eq_some hlow) hi), ?_⟩
      rw [Nat.succ_mul, Nat.add_right_comm, Nat.add_assoc]
  | case2 input index hshort =>
    rw [decodePairs] at h
    · cases h
    · exact hshort

/-- **The decoder is exact**: it accepts the texts of an even number of bytes that are hexadecimal
digits, it is undone by the encoder up to the case of the digits, and otherwise it tells that the
length is odd or else which byte is the first that is no digit. -/
theorem decodeHex_exact (s : List Char) :
    ((∃ bytes, decodeHex s = .ok bytes) ↔
      (Text.utf8 s).length % 2 = 0 ∧ ∀ c ∈ s, isHexDigit c = true) ∧
    (∀ bytes, decodeHex s = .ok bytes → encodeHex bytes = s.map Char.toLower) ∧
    ((Text.utf8 s).length % 2 ≠ 0 → decodeHex s = .error .invalidHexLength) ∧
    ((Text.utf8 s).length % 2 = 0 → (∃ c ∈ s, isHexDigit c = false) →
      ∃ index byte, FirstNonDigit (Text.utf8 s) index byte ∧
        decodeHex s = .error (.invalidHexDigit index (byteChar byte))) := by
  have haccepts : (∃ bytes, decodeHex s = .ok bytes) ↔
      (Text.utf8 s).length % 2 = 0 ∧ ∀ c ∈ s, isHexDigit c = true := by
    simp only [decodeHex_eq_ok_iff, exists_hexText_iff]
    exact and_congr_left fun hdigits => by rw [length_utf8_of_digits hdigits]
  refine ⟨haccepts, fun bytes h => (decodeHex_eq_ok_iff.mp h).encodeHex_eq, fun hodd => ?_,
    fun heven hother => ?_⟩
  · rw [decodeHex, if_pos hodd]
  · cases hrun : decodeHex s with
    | ok bytes =>
      obtain ⟨c, hc, hnot⟩ := hother
      have hdigit := (haccepts.mp ⟨bytes, hrun⟩).2 c hc
      exact absurd (hdigit.symm.trans hnot) Bool.true_eq_false.mp
    | error e =>
      rw [decodeHex, if_neg (not_not.mpr heven)] at hrun
      obtain ⟨index, byte, hfirst, rfl⟩ := firstNonDigit_of_decodePairs hrun
      exact ⟨index, byte, hfirst, by rw [Nat.zero_mul, Nat.zero_add]⟩

/-- In the last text a pair ends inside a character of two bytes. -/
theorem decodeHex_exact_split :
    encodeHex [0x0f, 0xa5] = "0fa5".toList ∧
    decodeHex "f\u00e9".toList = .error .invalidHexLength ∧
    ∃ index byte, FirstNonDigit (Text.utf8 "1\u00e90".toList) index byte ∧
      decodeHex "1\u00e90".toList = .error (.invalidHexDigit index (byteChar byte)) := by
  refine ⟨?_, ?_, ?_⟩
  · exact (decodeHex_exact "0Fa5".toList).2.1 [0x0f, 0xa5] (by decide)
  · exact (decodeHex_exact "f\u00e9".toList).2.2.1 (by decide)
  · exact (decodeHex_exact "1\u00e90".toList).2.2.2 (by decide) ⟨'\u00e9', by simp, by decide⟩

end FuzzyRegion
