import FuzzyRegion.Core.Mock
import FuzzyRegion.Core.RoundedRemap

/-!
# Normalization

Normalization divides every alpha by the maximum and rounds the quotient. The maximum divided by
itself is one, without rounding, so a second normalization meets a maximum of one and returns its
region unchanged.

## Main results

* `Image.maxAlpha_eq_one`: the maximum of a normalized region
* `normalizeMembership_exact_at_the_top`: normalization is safe, exact at the top and idempotent
-/

namespace FuzzyRegion

open Numeric

namespace Fuzzyregion

variable {G P E ε : Type} {engine : GeometryEngine G P E} {v r : Fuzzyregion F64 G}

/-- The image of the maximum is one. -/
theorem Image.maxAlpha_eq_one {max : Alpha F64} (h : Image (quotient max) v r)
    (hmax : v.maxAlpha = some max) : r.maxAlpha = some Alpha.one := by
  have hone : rounded (quotient max) max = (Alpha.one : Alpha F64).value := by
    apply rounded_eq_value
    rw [quotient, div_self max.toRat_pos.ne']
    exact F64.toRat_one.symm
  have hheads := congrArg List.head? h.alphas
  rw [List.head?_map, List.head?_map] at hheads
  obtain ⟨first, hfirst, rfl⟩ := Option.map_eq_some_iff.mp hmax
  rw [hfirst, Option.map_some, hone, Option.map_eq_some_iff] at hheads
  obtain ⟨l, hl, hvalue⟩ := hheads
  rw [maxAlpha, hl, Option.map_some, Alpha.ext_value hvalue]

/-- The core of a region with one on top is the geometry of its highest level. -/
theorem core_of_maxAlpha (h : v.maxAlpha = some Alpha.one) :
    v.core = v.levels.head?.map Level.geometry := by
  obtain ⟨first, hfirst, hone⟩ := Option.map_eq_some_iff.mp h
  obtain ⟨rest, hlevels⟩ := List.head?_eq_some_iff.mp hfirst
  have hisOne : first.alpha.isOne = true := by
    rw [hone]
    decide
  rw [core, hlevels, List.find?_cons_of_pos (p := fun l : Level F64 G => l.alpha.isOne) hisOne]
  rfl

theorem normalizeMembership_of_maxAlpha (h : v.maxAlpha = some Alpha.one) :
    v.normalizeMembership = (.ok v : Outcome ε _) := by
  have hisOne : (Alpha.one : Alpha F64).isOne = true := by decide
  rw [normalizeMembership, h]
  dsimp only
  rw [if_pos hisOne]
  rfl

/-- **Normalization is safe, exact at the top and idempotent**: it returns a region with the same
geometries, whose alphas do not ascend, and returns that region unchanged. Unless there is no level,
the maximum becomes one, so that the core is the highest geometry. -/
theorem normalizeMembership_exact_at_the_top (hv : Canonical engine v) :
    ∃ r, v.normalizeMembership = (.ok r : Outcome ε _) ∧ Remapped v r ∧
      (∀ l ∈ r.levels, 0 < l.alpha.toRat ∧ l.alpha.toRat ≤ 1) ∧
      (r.levels.Pairwise fun higher lower => lower.alpha ≤ higher.alpha) ∧
      r.normalizeMembership = (.ok r : Outcome ε _) ∧
      (v.levels ≠ [] → r.maxAlpha = some Alpha.one ∧
        r.core = v.levels.head?.map Level.geometry) := by
  obtain ⟨r, hr, hremapped, himage⟩ := exists_normalizeMembership (ε := ε) hv
  obtain ⟨r', hr', -, hle, -⟩ := normalizeMembership_descending_iff (ε := ε) hv
  obtain rfl : r = r' := Except.ok.inj (hr.symm.trans hr')
  refine ⟨r, hr, hremapped, fun l _ => ⟨l.alpha.toRat_pos, l.alpha.toRat_le_one⟩, hle, ?_⟩
  cases hmax : v.maxAlpha with
  | none =>
    -- without levels the region is returned as it is
    have hnil : v.levels = [] := by simpa [maxAlpha] using hmax
    have hself : v.normalizeMembership = (.ok v : Outcome ε _) := by
      rw [normalizeMembership, hmax]
      rfl
    obtain rfl : v = r := Except.ok.inj (hself.symm.trans hr)
    exact ⟨hr, fun hne => absurd hnil hne⟩
  | some max =>
    have hone := (himage max hmax).maxAlpha_eq_one hmax
    refine ⟨normalizeMembership_of_maxAlpha hone, fun _ => ⟨hone, ?_⟩⟩
    rw [core_of_maxAlpha hone, ← List.head?_map, hremapped.geometries, List.head?_map]

/-- Two nested cells with the memberships `0.8` and `0.4`. -/
def mound : Fuzzyregion F64 MockGeometry where
  srid := some 4326
  levels := [⟨binaryAlpha 0x3FE999999999999A (by decide), ⟨4326, {1}⟩⟩,
    ⟨binaryAlpha 0x3FD999999999999A (by decide), ⟨4326, {1, 2}⟩⟩]

theorem normalizeMembership_exact_at_the_top_mound :
    ∃ r, mound.normalizeMembership = (.ok r : Outcome Empty _) ∧ Remapped mound r ∧
      r.normalizeMembership = (.ok r : Outcome Empty _) ∧
      r.maxAlpha = some Alpha.one ∧ r.core = some ⟨4326, {1}⟩ := by
  have hmound : canonicalize ⟨mound.levels⟩ (mockEngine.engine Empty) = .ok mound := by
    decide +kernel
  obtain ⟨r, hr, hremapped, -, -, hagain, htop⟩ :=
    normalizeMembership_exact_at_the_top (canonicalize_canonical hmound)
  obtain ⟨hmax, hcore⟩ := htop (by simp [mound])
  exact ⟨r, hr, hremapped, hagain, hmax, hcore⟩

end Fuzzyregion

end FuzzyRegion
