import FuzzyRegion.Numeric.NearestEven
import Mathlib.Algebra.Order.Floor.Semifield
import Mathlib.Data.Int.ConditionallyCompleteOrder
import Mathlib.Data.Nat.Log
import Mathlib.Data.Rat.Floor
import Mathlib.Tactic.Positivity
import Mathlib.Tactic.Ring

/-!
# IEEE 754 binary64

A binary64 datum is its 64 bits. The magnitude bits of the nonnegative finite data enumerate their
values in increasing order, with infinity next in line, so rounding to nearest-even is rounding on
that grid: the parity of the significand is the parity of the index, and overflow is reaching the
index of infinity.

## Main definitions

* `F64`: the bits of a datum, with its comparisons and `totalCmp`
* `Agrees`: a total order gives the answers of `==` and `<`
* `F64.scaled`: the value of a magnitude, in units of the least subnormal
* `F64.grid`, `F64.ofRat`: the binary64 grid, and the datum nearest to a rational
* `F64.gridOver`: the binary64 grid of any ordered field
* `F64.sub`, `F64.div`: the exact difference and quotient, rounded once

## Main results

* `F64.lt_iff_toRat`, `F64.le_iff_toRat`, `F64.eq_iff_toRat`: on finite data the comparisons are
  those of the values
* `F64.totalCmp_eq_compare`: so is `totalCmp` on nonnegative data
* `F64.agrees_totalCmp_iff`: where `totalCmp` agrees with the comparisons
* `F64.round_pos_iff`: half the least subnormal is the last value that rounds to zero
* `F64.toRat_ofRat_mono`, `F64.toRat_ofRat_mem`: rounding is monotone and stays in the unit interval
* `F64.div_eq`, `F64.sub_one_eq`: quotients and complements as rounded values
-/

namespace Numeric

/-- What a total order answers is what `==` and `<` answer. -/
def Agrees (order : Ordering) (eq lt : Bool) : Prop :=
  (order = .eq ↔ eq = true) ∧ (order = .lt ↔ lt = true)

instance (order : Ordering) (eq lt : Bool) : Decidable (Agrees order eq lt) :=
  inferInstanceAs (Decidable (_ ∧ _))

/-- An IEEE 754 binary64 datum, as its bits. -/
structure F64 where
  bits : BitVec 64
deriving DecidableEq

namespace F64

/-- The sign bit. -/
def isSignNegative (x : F64) : Bool := x.bits.msb

/-- The exponent and fraction bits, read as one number. -/
def magnitude (x : F64) : ℕ := x.bits.toNat % 2 ^ 63

/-- The magnitude bits of infinity: an exponent field of `2047` and no fraction. -/
def infinityMagnitude : ℕ := 2047 * 2 ^ 52

def isFinite (x : F64) : Bool := x.magnitude < infinityMagnitude

def isNan (x : F64) : Bool := infinityMagnitude < x.magnitude

/-- The datum with a given sign and magnitude bits. -/
def ofMagnitude (negative : Bool) (m : ℕ) : F64 :=
  ⟨BitVec.ofNat 64 ((if negative then 2 ^ 63 else 0) + m)⟩

def zero : F64 := ⟨0x0000000000000000⟩

/-- The other zero, with the sign bit. -/
def negZero : F64 := ⟨0x8000000000000000⟩

def one : F64 := ⟨0x3FF0000000000000⟩

def nan : F64 := ⟨0x7FF8000000000000⟩

def infinity (negative : Bool) : F64 := ofMagnitude negative infinityMagnitude

/-- The value of magnitude bits in units of `2⁻¹⁰⁷⁴`: the fraction of a subnormal, and the
significand of a normal shifted by its exponent. -/
def scaled (n : ℕ) : ℕ :=
  if n / 2 ^ 52 = 0 then n % 2 ^ 52 else (2 ^ 52 + n % 2 ^ 52) * 2 ^ (n / 2 ^ 52 - 1)

/-- The number of least subnormals in one. -/
@[irreducible] def unitsInOne : ℕ := 2 ^ 1074

/-- The value of a finite datum. -/
def toRat (x : F64) : ℚ :=
  (if x.isSignNegative then -(scaled x.magnitude : ℚ) else scaled x.magnitude) / unitsInOne

/-! ## Comparisons -/

/-- The signed magnitude bits: both zeros have key `0`. -/
def key (x : F64) : ℤ := if x.isSignNegative then -(x.magnitude : ℤ) else x.magnitude

/-- The operator `<` of `f64`: false as soon as an operand is a NaN. -/
def lt (x y : F64) : Bool := !x.isNan && !y.isNan && x.key < y.key

/-- The operator `<=` of `f64`. -/
def le (x y : F64) : Bool := !x.isNan && !y.isNan && x.key ≤ y.key

/-- The operator `==` of `f64`. -/
def eq (x y : F64) : Bool := !x.isNan && !y.isNan && x.key = y.key

/-- The key of `total_cmp`: a negative datum has its other bits flipped, and the result is read as
a signed integer. -/
def totalKey (x : F64) : ℤ := (x.bits ^^^ ((x.bits.sshiftRight 63) >>> 1)).toInt

/-- `f64::total_cmp`. -/
def totalCmp (x y : F64) : Ordering := compare x.totalKey y.totalKey

/-- One datum is `0.0` and the other is `-0.0`. -/
def OppositeZeros (x y : F64) : Prop := (x = zero ∧ y = negZero) ∨ (x = negZero ∧ y = zero)

instance (x y : F64) : Decidable (OppositeZeros x y) := inferInstanceAs (Decidable (_ ∨ _))

/-! ## The value of a magnitude -/

/-- In its binade a magnitude is an exponent and a significand. The upper end of the binade is the
lower end of the next. -/
theorem scaled_binade {k m : ℕ} (hlow : 2 ^ 52 ≤ m ∨ k = 0) (hhigh : m ≤ 2 ^ 53) :
    scaled (k * 2 ^ 52 + m) = m * 2 ^ k := by
  rcases Nat.lt_or_ge m (2 ^ 52) with hm | hm
  · -- a subnormal is its own fraction
    obtain rfl : k = 0 := hlow.resolve_left (by omega)
    have hq : (0 * 2 ^ 52 + m) / 2 ^ 52 = 0 := by omega
    have hr : (0 * 2 ^ 52 + m) % 2 ^ 52 = m := by omega
    rw [scaled, hq, hr, if_pos rfl, pow_zero, Nat.mul_one]
  · rcases hhigh.lt_or_eq with hlt | rfl
    · -- a normal has the implicit bit
      have hq : (k * 2 ^ 52 + m) / 2 ^ 52 = k + 1 := by omega
      have hr : (k * 2 ^ 52 + m) % 2 ^ 52 = m - 2 ^ 52 := by omega
      rw [scaled, hq, hr, if_neg (Nat.succ_ne_zero k), Nat.add_sub_cancel,
        Nat.add_sub_cancel' hm]
    · -- the upper end has the next exponent and no fraction
      have hq : (k * 2 ^ 52 + 2 ^ 53) / 2 ^ 52 = k + 2 := by omega
      have hr : (k * 2 ^ 52 + 2 ^ 53) % 2 ^ 52 = 0 := by omega
      rw [scaled, hq, hr, if_neg (by omega), show k + 2 - 1 = k + 1 by omega]
      ring

theorem scaled_zero : scaled 0 = 0 := rfl

/-- Every magnitude lies in one binade. -/
theorem exists_binade (n : ℕ) : ∃ k m, n = k * 2 ^ 52 + m ∧ (2 ^ 52 ≤ m ∨ k = 0) ∧ m < 2 ^ 53 := by
  rcases Nat.eq_zero_or_pos (n / 2 ^ 52) with h | h
  · exact ⟨0, n, by omega, Or.inr rfl, by omega⟩
  · exact ⟨n / 2 ^ 52 - 1, 2 ^ 52 + n % 2 ^ 52, by omega, Or.inl (by omega), by omega⟩

theorem scaled_strictMono : StrictMono scaled := by
  apply strictMono_nat_of_lt_succ
  intro n
  obtain ⟨k, m, rfl, hlow, hhigh⟩ := exists_binade n
  -- the successor is in the same binade or at its upper end
  rw [scaled_binade hlow hhigh.le, Nat.add_assoc, scaled_binade (hlow.imp_left (by omega)) hhigh]
  exact Nat.mul_lt_mul_of_pos_right (Nat.lt_succ_self m) (by positivity)

/-- The magnitude of the last value at or below `s` units. -/
def scaledIndex (s : ℕ) : ℕ :=
  if s < 2 ^ 53 then s else (s.log2 - 52) * 2 ^ 52 + s / 2 ^ (s.log2 - 52)

theorem scaled_scaledIndex (s : ℕ) :
    scaled (scaledIndex s) ≤ s ∧ s < scaled (scaledIndex s + 1) := by
  unfold scaledIndex
  split_ifs with hs
  · -- below `2 ^ 53` units a magnitude is the number of units
    have h₁ : scaled s = s := by simpa using scaled_binade (k := 0) (m := s) (Or.inr rfl) hs.le
    have h₂ : scaled (s + 1) = s + 1 := by
      simpa using scaled_binade (k := 0) (m := s + 1) (Or.inr rfl) hs
    omega
  · have hne : s ≠ 0 := by omega
    have hlog : 53 ≤ s.log2 := (Nat.le_log2 hne).mpr (by omega)
    set k := s.log2 - 52 with hk
    have hpow : 0 < 2 ^ k := by positivity
    -- without its last `k` bits the number of units is a significand
    have hlow : 2 ^ 52 ≤ s / 2 ^ k := by
      rw [Nat.le_div_iff_mul_le hpow, ← pow_add, show 52 + k = s.log2 by omega]
      exact Nat.log2_self_le hne
    have hhigh : s / 2 ^ k < 2 ^ 53 := by
      rw [Nat.div_lt_iff_lt_mul hpow, ← pow_add, show 53 + k = s.log2 + 1 by omega]
      exact Nat.lt_log2_self
    rw [scaled_binade (Or.inl hlow) hhigh.le, Nat.add_assoc,
      scaled_binade (Or.inl (by omega)) hhigh]
    exact ⟨Nat.div_mul_le_self s _, (Nat.div_lt_iff_lt_mul hpow).mp (Nat.lt_succ_self _)⟩

/-! ## Values and comparisons -/

/-- The value of signed magnitude bits, in units of `2⁻¹⁰⁷⁴`. -/
def scaledInt (k : ℤ) : ℤ := if k < 0 then -(scaled k.natAbs : ℤ) else scaled k.natAbs

theorem scaledInt_strictMono : StrictMono scaledInt := by
  intro a b hab
  unfold scaledInt
  have hpos : ∀ {c : ℤ}, c ≠ 0 → 0 < scaled c.natAbs := fun hc =>
    scaled_zero ▸ scaled_strictMono (Int.natAbs_pos.mpr hc)
  split_ifs with ha hb hb
  -- both negative, negative and nonnegative, the impossible order, both nonnegative
  · have := scaled_strictMono (show b.natAbs < a.natAbs by omega)
    omega
  · have := hpos ha.ne
    omega
  · omega
  · have := scaled_strictMono (show a.natAbs < b.natAbs by omega)
    omega

section

variable {K : Type*} [Field K] [LinearOrder K] [IsStrictOrderedRing K]

theorem unitsInOne_pos : (0 : K) < unitsInOne := by
  have hpos : 0 < unitsInOne := by
    unfold unitsInOne
    exact pow_pos Nat.two_pos _
  exact Nat.cast_pos.mpr hpos

theorem scaled_div_strictMono : StrictMono fun n => (scaled n : K) / unitsInOne := by
  intro m n h
  have hcast : (scaled m : K) < scaled n := Nat.cast_lt.mpr (scaled_strictMono h)
  exact div_lt_div_of_pos_right hcast unitsInOne_pos

variable [FloorSemiring K]

/-- The index computed from the whole number of units is that of the last value at or below. -/
theorem scaled_floor_le {q : K} (hq : 0 ≤ q) :
    (scaled (scaledIndex ⌊q * unitsInOne⌋₊) : K) / unitsInOne ≤ q := by
  rw [div_le_iff₀ unitsInOne_pos]
  calc (scaled (scaledIndex ⌊q * unitsInOne⌋₊) : K) ≤ ⌊q * unitsInOne⌋₊ := by
        exact_mod_cast (scaled_scaledIndex _).1
    _ ≤ q * unitsInOne := Nat.floor_le (mul_nonneg hq unitsInOne_pos.le)

theorem lt_scaled_floor_succ (q : K) :
    q < (scaled (scaledIndex ⌊q * unitsInOne⌋₊ + 1) : K) / unitsInOne := by
  rw [lt_div_iff₀ unitsInOne_pos]
  calc q * unitsInOne < ⌊q * unitsInOne⌋₊ + 1 := Nat.lt_floor_add_one _
    _ ≤ scaled (scaledIndex ⌊q * unitsInOne⌋₊ + 1) := by
        exact_mod_cast (scaled_scaledIndex _).2

end

theorem toRat_eq_scaledInt (x : F64) : x.toRat = scaledInt x.key / unitsInOne := by
  unfold toRat key scaledInt
  by_cases hs : x.isSignNegative
  · rcases Nat.eq_zero_or_pos x.magnitude with hm | hm
    · simp [hs, hm, scaled_zero]
    · simp [hs, Nat.pos_iff_ne_zero.mp hm, Nat.pos_iff_ne_zero]
  · have hm : ¬ (x.magnitude : ℤ) < 0 := by omega
    simp [hs, hm]

theorem toRat_le_toRat_iff {x y : F64} : x.toRat ≤ y.toRat ↔ x.key ≤ y.key := by
  rw [toRat_eq_scaledInt, toRat_eq_scaledInt, div_le_div_iff_of_pos_right unitsInOne_pos,
    Int.cast_le]
  exact scaledInt_strictMono.le_iff_le

theorem toRat_lt_toRat_iff {x y : F64} : x.toRat < y.toRat ↔ x.key < y.key := by
  rw [← not_le, toRat_le_toRat_iff, not_le]

theorem toRat_inj_iff {x y : F64} : x.toRat = y.toRat ↔ x.key = y.key := by
  rw [le_antisymm_iff, toRat_le_toRat_iff, toRat_le_toRat_iff, ← le_antisymm_iff]

theorem not_isNan_of_isFinite {x : F64} (h : x.isFinite) : x.isNan = false := by
  simp only [isFinite, decide_eq_true_eq] at h
  simp only [isNan, decide_eq_false_iff_not]
  omega

/-- On finite data `<=` is the order of the values. -/
theorem le_iff_toRat {x y : F64} (hx : x.isFinite) (hy : y.isFinite) :
    le x y ↔ x.toRat ≤ y.toRat := by
  simp [le, not_isNan_of_isFinite hx, not_isNan_of_isFinite hy, toRat_le_toRat_iff]

/-- On finite data `<` is the strict order of the values. -/
theorem lt_iff_toRat {x y : F64} (hx : x.isFinite) (hy : y.isFinite) :
    lt x y ↔ x.toRat < y.toRat := by
  simp [lt, not_isNan_of_isFinite hx, not_isNan_of_isFinite hy, toRat_lt_toRat_iff]

/-- On finite data `==` is equality of the values. -/
theorem eq_iff_toRat {x y : F64} (hx : x.isFinite) (hy : y.isFinite) :
    eq x y ↔ x.toRat = y.toRat := by
  simp [eq, not_isNan_of_isFinite hx, not_isNan_of_isFinite hy, toRat_inj_iff]

theorem magnitude_lt (x : F64) : x.magnitude < 2 ^ 63 := Nat.mod_lt _ (by decide)

theorem toNat_bits (x : F64) :
    x.bits.toNat = (if x.isSignNegative then 2 ^ 63 else 0) + x.magnitude := by
  have hlt := x.bits.isLt
  unfold isSignNegative magnitude
  by_cases h : x.bits.msb
  · have hge := BitVec.msb_eq_true_iff_two_mul_ge.mp h
    rw [if_pos h]
    omega
  · have hlow := BitVec.msb_eq_false_iff_two_mul_lt.mp (Bool.eq_false_iff.mpr h)
    rw [if_neg h]
    omega

/-- A datum is its sign and its magnitude bits. -/
theorem ext_magnitude {x y : F64} (hs : x.isSignNegative = y.isSignNegative)
    (hm : x.magnitude = y.magnitude) : x = y := by
  have h : x.bits = y.bits := BitVec.eq_of_toNat_eq (by rw [toNat_bits, toNat_bits, hs, hm])
  cases x
  cases y
  exact congrArg F64.mk h

theorem totalKey_of_nonneg {x : F64} (h : x.isSignNegative = false) : x.totalKey = x.key := by
  have hmsb : x.bits.msb = false := h
  -- the mask that `total_cmp` flips repeats the sign bit, which is zero here
  have hshift : x.bits.sshiftRight 63 = 0 := by
    rw [BitVec.sshiftRight_eq_of_msb_false hmsb]
    apply BitVec.eq_of_toNat_eq
    have := toNat_bits x
    have hm := x.magnitude_lt
    simp only [h, Bool.false_eq_true, if_false, Nat.zero_add] at this
    simp [Nat.shiftRight_eq_div_pow, this]
    omega
  rw [totalKey, hshift, BitVec.toInt_eq_toNat_of_msb (by simpa using hmsb), key, h]
  simp [toNat_bits x, h]

/-- On data without the sign bit `total_cmp` compares the values. -/
theorem totalCmp_eq_compare {x y : F64} (hx : x.isSignNegative = false)
    (hy : y.isSignNegative = false) : totalCmp x y = compare x.toRat y.toRat := by
  rw [totalCmp, totalKey_of_nonneg hx, totalKey_of_nonneg hy]
  rcases lt_trichotomy x.key y.key with h | h | h
  · rw [compare_lt_iff_lt.mpr h, compare_lt_iff_lt.mpr (toRat_lt_toRat_iff.mpr h)]
  · rw [compare_eq_iff_eq.mpr h, compare_eq_iff_eq.mpr (toRat_inj_iff.mpr h)]
  · rw [compare_gt_iff_gt.mpr h, compare_gt_iff_gt.mpr (toRat_lt_toRat_iff.mpr h)]

/-- Flipping all bits of a number of `w` bits. -/
theorem xor_two_pow_sub_one {m w : ℕ} (h : m < 2 ^ w) : m ^^^ (2 ^ w - 1) = 2 ^ w - 1 - m := by
  have hflip : (BitVec.ofNat w m ^^^ BitVec.allOnes w).toNat = 2 ^ w - 1 - m := by
    rw [BitVec.xor_allOnes, BitVec.toNat_not, BitVec.toNat_ofNat, Nat.mod_eq_of_lt h]
  rwa [BitVec.toNat_xor, BitVec.toNat_ofNat, Nat.mod_eq_of_lt h, BitVec.toNat_allOnes] at hflip

/-- With the sign bit `total_cmp` reverses the magnitudes, all below those without it. -/
theorem totalKey_of_negative {x : F64} (h : x.isSignNegative = true) :
    x.totalKey = x.key - 1 := by
  have hmsb : x.bits.msb = true := h
  have hbits := toNat_bits x
  rw [h, if_pos rfl] at hbits
  have hm := x.magnitude_lt
  -- the mask has every bit but the sign
  have hmask : (x.bits.sshiftRight 63) >>> 1 = BitVec.ofNat 64 (2 ^ 63 - 1) := by
    have hones : x.bits.sshiftRight 63 = BitVec.allOnes 64 := by
      rw [BitVec.sshiftRight_eq_of_msb_true hmsb]
      apply BitVec.eq_of_toNat_eq
      simp [Nat.shiftRight_eq_div_pow]
      omega
    rw [hones]
    decide
  have hlow : (x.bits ^^^ (x.bits.sshiftRight 63) >>> 1).toNat % 2 ^ 63 =
      2 ^ 63 - 1 - x.magnitude := by
    rw [hmask, BitVec.toNat_xor, Nat.xor_mod_two_pow, ← xor_two_pow_sub_one hm]
    rfl
  have hhigh : (x.bits ^^^ (x.bits.sshiftRight 63) >>> 1).toNat / 2 ^ 63 = 1 := by
    have hsign : x.bits.toNat / 2 ^ 63 = 1 := by omega
    rw [hmask, BitVec.toNat_xor, Nat.xor_div_two_pow, hsign]
    decide
  rw [totalKey, BitVec.toInt_eq_toNat_cond, if_neg (by omega), key, if_pos h]
  omega

theorem eq_iff_magnitude {x y : F64} :
    x = y ↔ x.isSignNegative = y.isSignNegative ∧ x.magnitude = y.magnitude := by
  constructor
  · rintro rfl
    exact ⟨rfl, rfl⟩
  · exact fun h => ext_magnitude h.1 h.2

theorem eq_zero_iff {x : F64} : x = zero ↔ x.isSignNegative = false ∧ x.magnitude = 0 :=
  eq_iff_magnitude

theorem eq_negZero_iff {x : F64} : x = negZero ↔ x.isSignNegative = true ∧ x.magnitude = 0 :=
  eq_iff_magnitude

/-- **On data that are no NaN, `total_cmp` agrees with `==` and `<`** unless it meets the two zeros,
which it tells apart and they do not. -/
theorem agrees_totalCmp_iff {x y : F64} (hx : x.isNan = false) (hy : y.isNan = false) :
    Agrees (totalCmp x y) (eq x y) (lt x y) ↔ ¬ OppositeZeros x y := by
  have heq : eq x y = true ↔ x.key = y.key := by simp [eq, hx, hy]
  have hlt : lt x y = true ↔ x.key < y.key := by simp [lt, hx, hy]
  rw [Agrees, totalCmp, compare_eq_iff_eq, compare_lt_iff_lt, heq, hlt, OppositeZeros, eq_zero_iff,
    eq_zero_iff, eq_negZero_iff, eq_negZero_iff]
  -- only a datum with the sign bit has another key for `total_cmp`
  cases hsx : x.isSignNegative <;> cases hsy : y.isSignNegative
  · simp [totalKey_of_nonneg hsx, totalKey_of_nonneg hsy]
  · have hkey : x.key = x.magnitude ∧ y.key = -y.magnitude := by simp [key, hsx, hsy]
    rw [totalKey_of_nonneg hsx, totalKey_of_negative hsy, hkey.1, hkey.2]
    simp only [reduceCtorEq, true_and, false_and, or_false]
    omega
  · have hkey : x.key = -x.magnitude ∧ y.key = y.magnitude := by simp [key, hsx, hsy]
    rw [totalKey_of_negative hsx, totalKey_of_nonneg hsy, hkey.1, hkey.2]
    simp only [reduceCtorEq, true_and, false_and, false_or]
    omega
  · simp [totalKey_of_negative hsx, totalKey_of_negative hsy]

theorem isSignNegative_of_toRat_pos {x : F64} (h : 0 < x.toRat) : x.isSignNegative = false := by
  by_contra hs
  have hle : x.toRat ≤ 0 := by
    rw [toRat, if_pos (by simpa using hs)]
    exact div_nonpos_of_nonpos_of_nonneg (by simp) unitsInOne_pos.le
  exact absurd h (not_lt.mpr hle)

/-- A positive value has one representation. -/
theorem eq_of_toRat_eq {x y : F64} (h : 0 < x.toRat) (hxy : x.toRat = y.toRat) : x = y := by
  have hx := isSignNegative_of_toRat_pos h
  have hy := isSignNegative_of_toRat_pos (hxy ▸ h)
  apply ext_magnitude (hx.trans hy.symm)
  simpa [key, hx, hy] using toRat_inj_iff.mp hxy

/-! ## Rounding -/

/-- The nonnegative values, indexed by their magnitude bits. -/
def grid : Grid ℚ where
  point n := scaled n / unitsInOne
  strictMono := scaled_div_strictMono
  index q := scaledIndex ⌊q * unitsInOne⌋₊
  point_index_le hq := scaled_floor_le (by simpa [scaled_zero] using hq)
  lt_point_succ _ := lt_scaled_floor_succ _

/-- The same values in any ordered field. -/
def gridOver (K : Type*) [Field K] [LinearOrder K] [IsStrictOrderedRing K] [FloorSemiring K] :
    Grid K where
  point n := scaled n / unitsInOne
  strictMono := scaled_div_strictMono
  index q := scaledIndex ⌊q * unitsInOne⌋₊
  point_index_le hq := scaled_floor_le (by simpa [scaled_zero] using hq)
  lt_point_succ _ := lt_scaled_floor_succ _

theorem gridOver_rat : gridOver ℚ = grid := rfl

/-- The magnitude bits nearest to a nonnegative rational, infinity when it is too large. -/
def roundMagnitude (q : ℚ) : ℕ := min (grid.round q) infinityMagnitude

/-- The datum nearest to a rational, ties to even. Zero takes the sign `zeroSign`. -/
def ofRat (zeroSign : Bool) (q : ℚ) : F64 :=
  if q = 0 then ofMagnitude zeroSign 0 else ofMagnitude (q < 0) (roundMagnitude |q|)

/-- The operator `-` of `f64`. -/
def sub (x y : F64) : F64 :=
  if x.isNan || y.isNan then nan
  else if !x.isFinite then
    -- the difference of two infinities of one sign is no number
    if !y.isFinite && x.isSignNegative == y.isSignNegative then nan else x
  else if !y.isFinite then infinity !y.isSignNegative
  else ofRat (x.isSignNegative && !y.isSignNegative) (x.toRat - y.toRat)

/-- The operator `/` of `f64`. -/
def div (x y : F64) : F64 :=
  let negative := x.isSignNegative != y.isSignNegative
  if x.isNan || y.isNan then nan
  else if !x.isFinite then if !y.isFinite then nan else infinity negative
  else if !y.isFinite then ofMagnitude negative 0
  -- a zero divided by a zero is no number
  else if y.magnitude = 0 then if x.magnitude = 0 then nan else infinity negative
  else ofRat negative (x.toRat / y.toRat)

theorem isSignNegative_ofMagnitude {m : ℕ} (hm : m < 2 ^ 63) (negative : Bool) :
    (ofMagnitude negative m).isSignNegative = negative := by
  unfold isSignNegative ofMagnitude
  cases negative
  · rw [BitVec.msb_eq_false_iff_two_mul_lt, BitVec.toNat_ofNat]
    simp only [Bool.false_eq_true, if_false]
    omega
  · rw [BitVec.msb_eq_true_iff_two_mul_ge, BitVec.toNat_ofNat]
    simp only [if_true]
    omega

theorem magnitude_ofMagnitude {m : ℕ} (hm : m < 2 ^ 63) (negative : Bool) :
    (ofMagnitude negative m).magnitude = m := by
  unfold magnitude ofMagnitude
  rw [BitVec.toNat_ofNat]
  cases negative <;> simp only [Bool.false_eq_true, if_false, if_true] <;> omega

theorem toRat_ofMagnitude {m : ℕ} (hm : m < 2 ^ 63) :
    (ofMagnitude false m).toRat = grid.point m := by
  rw [toRat, isSignNegative_ofMagnitude hm, magnitude_ofMagnitude hm]
  rfl

section

variable {K : Type*} [Field K] [LinearOrder K] [IsStrictOrderedRing K] [FloorSemiring K]

theorem gridOver_point_zero : (gridOver K).point 0 = 0 := by
  simp [gridOver, scaled_zero]

theorem gridOver_point_one : (gridOver K).point one.magnitude = 1 := by
  have h : scaled one.magnitude = unitsInOne := by decide +kernel
  exact (congrArg (fun n : ℕ => (n : K) / unitsInOne) h).trans (div_self unitsInOne_pos.ne')

theorem cast_grid_point (n : ℕ) : ((grid.point n : ℚ) : K) = (gridOver K).point n := by
  change (((scaled n : ℚ) / unitsInOne : ℚ) : K) = scaled n / unitsInOne
  push_cast
  rfl

/-- In the unit interval rounding stays at or below the index of one. -/
theorem round_le_one {q : K} (h0 : 0 ≤ q) (h1 : q ≤ 1) :
    (gridOver K).round q ≤ one.magnitude :=
  (gridOver K).round_le_of_le_point (gridOver_point_zero.trans_le h0)
    (h1.trans_eq gridOver_point_one.symm)

/-- The least subnormal. -/
theorem gridOver_point_succ_zero : (gridOver K).point 1 = 1 / 2 ^ 1074 := by
  have hunits : ((unitsInOne : ℕ) : K) = 2 ^ 1074 := by
    unfold unitsInOne
    exact (Nat.cast_pow 2 1074).trans (by rw [Nat.cast_ofNat])
  have hscaled : scaled 1 = 1 := by decide
  change (scaled 1 : K) / unitsInOne = _
  rw [hunits, hscaled, Nat.cast_one]

/-- Half the least subnormal is the last value that rounds to zero. -/
theorem round_pos_iff {q : K} (h0 : 0 ≤ q) : 0 < (gridOver K).round q ↔ 1 / 2 ^ 1075 < q := by
  have hmid : (gridOver K).midpoint 0 = 1 / 2 ^ 1075 := by
    rw [Grid.midpoint, gridOver_point_zero, zero_add, zero_add, gridOver_point_succ_zero, div_div,
      pow_succ _ 1074]
  rw [← not_le, (gridOver K).round_le_iff (gridOver_point_zero.trans_le h0), not_iff_comm, not_lt,
    Grid.BelowMiddle, hmid, le_iff_lt_or_eq]
  exact or_congr_right (and_iff_left Even.zero).symm

/-- Between half of it and itself a value rounds to the least subnormal. -/
theorem round_eq_one {q : K} (hlow : 1 / 2 ^ 1075 < q) (hhigh : q ≤ 1 / 2 ^ 1074) :
    (gridOver K).round q = 1 := by
  have h0 : 0 ≤ q := (one_div_pos.mpr (pow_pos two_pos _)).le.trans hlow.le
  have hle : (gridOver K).round q ≤ 1 := (gridOver K).round_le_of_le_point
    (gridOver_point_zero.trans_le h0) (hhigh.trans_eq gridOver_point_succ_zero.symm)
  exact le_antisymm hle ((round_pos_iff h0).mpr hlow)

end

theorem grid_point_zero : grid.point 0 = 0 := by
  rw [← gridOver_rat, gridOver_point_zero]

theorem grid_point_one : grid.point one.magnitude = 1 := by
  rw [← gridOver_rat, gridOver_point_one]

theorem toRat_zero : zero.toRat = 0 := by
  simp [toRat, zero, magnitude, scaled_zero]

theorem toRat_one : one.toRat = 1 := grid_point_one

theorem ofRat_of_nonneg {q : ℚ} (hq : 0 ≤ q) :
    ofRat false q = ofMagnitude false (roundMagnitude q) := by
  unfold ofRat
  split_ifs with h
  · have h0 : grid.round 0 = 0 := by rw [← grid_point_zero, Grid.round_point]
    rw [h, roundMagnitude, h0, Nat.zero_min]
  · rw [abs_of_nonneg hq, decide_eq_false (not_lt.mpr hq)]

/-! ## The unit interval -/

theorem lt_infinityMagnitude_of_le_one {m : ℕ} (hm : m ≤ one.magnitude) : m < infinityMagnitude :=
  hm.trans_lt (by decide)

/-- Up to the magnitude bits of one, a datum is finite and has the value of its grid point. -/
theorem ofMagnitude_of_le_one {m : ℕ} (hm : m ≤ one.magnitude) :
    (ofMagnitude false m).isFinite ∧ (ofMagnitude false m).magnitude = m ∧
      (ofMagnitude false m).toRat = grid.point m := by
  have hlt : m < 2 ^ 63 := hm.trans_lt one.magnitude_lt
  have hmagnitude := magnitude_ofMagnitude hlt false
  refine ⟨?_, hmagnitude, toRat_ofMagnitude hlt⟩
  rw [isFinite, hmagnitude, decide_eq_true_eq]
  exact lt_infinityMagnitude_of_le_one hm

/-- Rounding in the unit interval does not reach infinity. -/
theorem ofRat_of_le_one {q : ℚ} (h0 : 0 ≤ q) (h1 : q ≤ 1) :
    ofRat false q = ofMagnitude false ((gridOver ℚ).round q) := by
  rw [ofRat_of_nonneg h0, roundMagnitude, ← gridOver_rat,
    min_eq_left (lt_infinityMagnitude_of_le_one (round_le_one h0 h1)).le]

theorem isSignNegative_ofRat {q : ℚ} (h0 : 0 ≤ q) (h1 : q ≤ 1) :
    (ofRat false q).isSignNegative = false := by
  rw [ofRat_of_le_one h0 h1]
  exact isSignNegative_ofMagnitude ((round_le_one h0 h1).trans_lt one.magnitude_lt) false

/-- The value of the chosen grid point. -/
theorem toRat_ofRat {q : ℚ} (h0 : 0 ≤ q) (h1 : q ≤ 1) :
    (ofRat false q).toRat = grid.point (grid.round q) := by
  rw [ofRat_of_le_one h0 h1, (ofMagnitude_of_le_one (round_le_one h0 h1)).2.2, gridOver_rat]

/-- Rounding stays in the unit interval. -/
theorem toRat_ofRat_mem {q : ℚ} (h0 : 0 ≤ q) (h1 : q ≤ 1) :
    (ofRat false q).isFinite ∧ 0 ≤ (ofRat false q).toRat ∧ (ofRat false q).toRat ≤ 1 := by
  have hround : grid.round q ≤ one.magnitude := round_le_one h0 h1
  refine ⟨?_, ?_, ?_⟩
  · rw [ofRat_of_le_one h0 h1]
    exact (ofMagnitude_of_le_one (round_le_one h0 h1)).1
  · rw [toRat_ofRat h0 h1, ← grid_point_zero]
    exact grid.strictMono.monotone (Nat.zero_le _)
  · rw [toRat_ofRat h0 h1, ← grid_point_one]
    exact grid.strictMono.monotone hround

/-- Rounding is monotone in the unit interval. -/
theorem toRat_ofRat_mono {q r : ℚ} (h0 : 0 ≤ q) (hqr : q ≤ r) (h1 : r ≤ 1) :
    (ofRat false q).toRat ≤ (ofRat false r).toRat := by
  rw [toRat_ofRat h0 (hqr.trans h1), toRat_ofRat (h0.trans hqr) h1]
  exact grid.strictMono.monotone (grid.round_mono (grid_point_zero.trans_le h0) hqr)

theorem toRat_eq_point {x : F64} (hx : x.isSignNegative = false) :
    x.toRat = grid.point x.magnitude := by
  rw [toRat, hx, if_neg Bool.false_ne_true]
  rfl

theorem magnitude_pos {x : F64} (h : 0 < x.toRat) : 0 < x.magnitude := by
  rw [toRat_eq_point (isSignNegative_of_toRat_pos h), ← grid_point_zero] at h
  exact grid.strictMono.lt_iff_lt.mp h

/-- In the unit interval a value rounds below a datum exactly when it does not pass the middle
before the datum. -/
theorem toRat_ofRat_lt_iff {q : ℚ} {x : F64} (h0 : 0 ≤ q) (h1 : q ≤ 1) (hx : 0 < x.toRat) :
    (ofRat false q).toRat < x.toRat ↔ grid.BelowMiddle q (x.magnitude - 1) := by
  have hpos := magnitude_pos hx
  have hpoint := toRat_eq_point (isSignNegative_of_toRat_pos hx)
  rw [toRat_ofRat h0 h1, hpoint, grid.strictMono.lt_iff_lt,
    ← grid.round_le_iff (grid_point_zero.trans_le h0)]
  omega

/-- Rounding below a datum means being below it. -/
theorem lt_of_toRat_ofRat_lt {q : ℚ} {x : F64} (h0 : 0 ≤ q) (h1 : q ≤ 1) (hx : 0 < x.toRat)
    (h : (ofRat false q).toRat < x.toRat) : q < x.toRat := by
  have hpoint := toRat_eq_point (isSignNegative_of_toRat_pos hx)
  rw [toRat_ofRat h0 h1, hpoint, grid.strictMono.lt_iff_lt] at h
  rw [hpoint]
  by_contra hle
  exact h.not_ge (grid.le_round_of_point_le (not_lt.mp hle))

/-- On positive finite data `/` is the quotient of the values, rounded. -/
theorem div_eq {x y : F64} (hx : x.isFinite) (hy : y.isFinite) (hx0 : 0 < x.toRat)
    (hy0 : 0 < y.toRat) : div x y = ofRat false (x.toRat / y.toRat) := by
  have hne : y.magnitude ≠ 0 := (magnitude_pos hy0).ne'
  simp [div, not_isNan_of_isFinite hx, not_isNan_of_isFinite hy, hx, hy, hne,
    isSignNegative_of_toRat_pos hx0, isSignNegative_of_toRat_pos hy0]

theorem sub_one_eq {x : F64} (hx : x.isFinite) : sub one x = ofRat false (1 - x.toRat) := by
  have h1 : one.isFinite := by decide
  have hs : one.isSignNegative = false := by decide
  simp [sub, not_isNan_of_isFinite hx, not_isNan_of_isFinite h1, hx, h1, hs, toRat_one]

end F64

end Numeric
