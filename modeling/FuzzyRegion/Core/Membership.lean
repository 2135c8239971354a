import FuzzyRegion.Core.Canonicalize

/-!
# Membership transforms

The transforms that change the alphas of a region and keep its geometries: rescaling to the maximum
alpha, and the two power transforms. They map every stored alpha on its own, check its range again
and skip canonicalization, so the result is canonical exactly when its alphas still descend.

## Main definitions

* `Fuzzyregion.remapMembershipValues`: replace every alpha by its image
* `Fuzzyregion.normalizeMembership`, `Fuzzyregion.concentrateMembership`,
  `Fuzzyregion.dilateMembership`
* `Remapped v r`: `r` has the SRID and the geometries of `v`

## Main results

* `exists_remapMembershipValues_iff`, `remapMembershipValues_eq_panic`: when a remap returns
* `Remapped.canonical_iff`: when the result is canonical
-/

namespace FuzzyRegion

open Fallible

section

variable {F G : Type} [Scalar F]

/-- Errors returned by membership-only alpha remapping operations. -/
inductive MembershipTransformError (F : Type) where
  /-- The supplied power was not finite. -/
  | notFinitePower (value : F)
  /-- The supplied power must be greater than `1.0`. -/
  | powerMustBeGreaterThanOne (value : F)
deriving DecidableEq

def validateMembershipPower (power : F) : Except (MembershipTransformError F) Unit :=
  if !Scalar.isFinite power then .error (.notFinitePower power)
  else if Scalar.le power Scalar.one then .error (.powerMustBeGreaterThanOne power)
  else .ok ()

namespace Fuzzyregion

/-- The level with the remapped alpha, which has to be one. -/
def remapLevel {ε : Type} (remap : Alpha F → F) (level : Level F G) : Outcome ε (Level F G) := do
  let remapped ← expect "membership remapping must preserve alpha validity"
    (Alpha.tryFrom (remap level.alpha))
  return ⟨remapped, level.geometry⟩

def remapMembershipValues {ε : Type} (self : Fuzzyregion F G) (remap : Alpha F → F) :
    Outcome ε (Fuzzyregion F G) := do
  let levels ← self.levels.mapM (remapLevel remap)
  return ⟨self.srid, levels⟩

/-- Rescale the alphas so that the maximum becomes one. -/
def normalizeMembership {ε : Type} (self : Fuzzyregion F G) : Outcome ε (Fuzzyregion F G) :=
  match self.maxAlpha with
  | some maxAlpha =>
    if maxAlpha.isOne then return self
    else self.remapMembershipValues fun alpha => Scalar.div alpha.value maxAlpha.value
  | none => return self

/-- Sharpen the alphas by `alpha ^ power`. -/
def concentrateMembership (powf : F → F → F) (self : Fuzzyregion F G) (power : F) :
    Outcome (MembershipTransformError F) (Fuzzyregion F G) := do
  (validateMembershipPower power).mapError .error
  self.remapMembershipValues fun alpha => powf alpha.value power

/-- Soften the alphas by `alpha ^ (1 / power)`. -/
def dilateMembership (powf : F → F → F) (self : Fuzzyregion F G) (power : F) :
    Outcome (MembershipTransformError F) (Fuzzyregion F G) := do
  (validateMembershipPower power).mapError .error
  self.remapMembershipValues fun alpha => powf alpha.value (Scalar.div Scalar.one power)

/-! ## The remap -/

/-- The result of a membership transform: other alphas on the same geometries. -/
structure Remapped (v r : Fuzzyregion F G) : Prop where
  srid : r.srid = v.srid
  geometries : r.levels.map Level.geometry = v.levels.map Level.geometry

theorem Remapped.refl (v : Fuzzyregion F G) : Remapped v v := ⟨rfl, rfl⟩

theorem remapLevel_eq_ok_iff {ε : Type} {remap : Alpha F → F} {l l' : Level F G} :
    remapLevel remap l = (.ok l' : Outcome ε (Level F G)) ↔
      l'.alpha.value = remap l.alpha ∧ l'.geometry = l.geometry := by
  cases l' with
  | mk alpha geometry =>
    constructor
    · intro h
      obtain ⟨a, ha, h⟩ := bind_eq_ok_iff.mp h
      cases htry : Alpha.tryFrom (remap l.alpha) with
      | error e =>
        rw [htry] at ha
        cases ha
      | ok a' =>
        rw [htry] at ha
        obtain rfl : a' = a := Except.ok.inj ha
        obtain ⟨rfl, rfl⟩ := Level.mk.inj (pure_eq_ok_iff.mp h)
        exact ⟨Alpha.value_of_tryFrom htry, rfl⟩
    · rintro ⟨hvalue, rfl⟩
      -- a validated alpha passes the check again
      rw [remapLevel, ← hvalue, Alpha.tryFrom_value]
      rfl

/-- A level whose image is no alpha makes the call panic. -/
theorem remapLevel_eq_error {ε : Type} {remap : Alpha F → F} {l : Level F G} {stop : Stop ε}
    (h : remapLevel remap l = (.error stop : Outcome ε (Level F G))) :
    stop = .panic "membership remapping must preserve alpha validity" := by
  unfold remapLevel at h
  cases htry : Alpha.tryFrom (remap l.alpha) with
  | error e =>
    rw [htry] at h
    exact (Except.error.inj h).symm
  | ok a =>
    rw [htry] at h
    cases h

/-- A remap that returns has remapped every alpha and kept the rest. -/
theorem remapMembershipValues_eq_ok_iff {ε : Type} {v r : Fuzzyregion F G} {remap : Alpha F → F} :
    v.remapMembershipValues remap = (.ok r : Outcome ε (Fuzzyregion F G)) ↔
      r.srid = v.srid ∧ List.Forall₂ (fun l l' => l'.alpha.value = remap l.alpha ∧
        l'.geometry = l.geometry) v.levels r.levels := by
  simp only [remapMembershipValues, bind_eq_ok_iff, mapM_eq_ok_iff, remapLevel_eq_ok_iff,
    pure_eq_ok_iff]
  constructor
  · rintro ⟨levels, hlevels, rfl⟩
    exact ⟨rfl, hlevels⟩
  · rintro ⟨hsrid, hlevels⟩
    refine ⟨r.levels, hlevels, ?_⟩
    rw [← hsrid]

theorem remapMembershipValues_eq_ok {ε : Type} {v r : Fuzzyregion F G} {remap : Alpha F → F}
    (h : v.remapMembershipValues remap = (.ok r : Outcome ε (Fuzzyregion F G))) :
    Remapped v r ∧
      (r.levels.map fun l => l.alpha.value) = v.levels.map fun l => remap l.alpha := by
  obtain ⟨hsrid, hlevels⟩ := remapMembershipValues_eq_ok_iff.mp h
  refine ⟨⟨hsrid, ?_⟩, ?_⟩
  · exact map_eq_map_of_forall₂ (hlevels.flip.imp fun _ _ h => h.2)
  · exact map_eq_map_of_forall₂ (hlevels.flip.imp fun _ _ h => h.1)

/-- A remap returns exactly when the image of every alpha is an alpha. -/
theorem exists_remapMembershipValues_iff {ε : Type} {v : Fuzzyregion F G} {remap : Alpha F → F} :
    (∃ r, v.remapMembershipValues remap = (.ok r : Outcome ε (Fuzzyregion F G))) ↔
      ∀ l ∈ v.levels, ∃ a : Alpha F, a.value = remap l.alpha := by
  constructor
  · rintro ⟨r, h⟩ l hl
    have hmem := List.mem_map_of_mem (f := fun l => remap l.alpha) hl
    rw [← (remapMembershipValues_eq_ok h).2] at hmem
    obtain ⟨l', -, hl'⟩ := List.mem_map.mp hmem
    exact ⟨l'.alpha, hl'⟩
  · intro h
    have hstep : ∀ l ∈ v.levels, ∃ l', remapLevel remap l = (.ok l' : Outcome ε (Level F G)) := by
      intro l hl
      obtain ⟨a, ha⟩ := h l hl
      exact ⟨⟨a, l.geometry⟩, remapLevel_eq_ok_iff.mpr ⟨ha, rfl⟩⟩
    obtain ⟨levels, hlevels⟩ := exists_forall₂ hstep
    refine ⟨⟨v.srid, levels⟩, remapMembershipValues_eq_ok_iff.mpr ⟨rfl, ?_⟩⟩
    exact hlevels.imp fun _ _ => remapLevel_eq_ok_iff.mp

/-- Otherwise it panics. -/
theorem remapMembershipValues_eq_panic {ε : Type} {v : Fuzzyregion F G} {remap : Alpha F → F}
    (h : ¬ ∀ l ∈ v.levels, ∃ a : Alpha F, a.value = remap l.alpha) :
    v.remapMembershipValues remap =
      (.error (.panic "membership remapping must preserve alpha validity") :
        Outcome ε (Fuzzyregion F G)) := by
  cases hrun : v.remapMembershipValues (ε := ε) remap with
  | ok r => exact absurd (exists_remapMembershipValues_iff.mp ⟨r, hrun⟩) h
  | error stop =>
    unfold remapMembershipValues at hrun
    cases hlevels : v.levels.mapM (remapLevel (ε := ε) remap) with
    | ok levels =>
      rw [hlevels] at hrun
      cases hrun
    | error e =>
      rw [hlevels] at hrun
      obtain rfl : e = stop := Except.error.inj hrun
      obtain ⟨l, -, hl⟩ := exists_of_mapM_eq_error hlevels
      rw [remapLevel_eq_error hl]

end Fuzzyregion

end

/-! ## The canonical form -/

namespace Fuzzyregion

variable {F G P E : Type} [LawfulScalar F] {engine : GeometryEngine G P E} {v r : Fuzzyregion F G}

theorem Remapped.exists_level (h : Remapped v r) {l : Level F G} (hl : l ∈ r.levels) :
    ∃ m ∈ v.levels, m.geometry = l.geometry := by
  have hmem := List.mem_map_of_mem (f := Level.geometry) hl
  rw [h.geometries] at hmem
  exact List.mem_map.mp hmem

theorem Remapped.isChain_iff (h : Remapped v r) {R : G → G → Prop} :
    (r.levels.IsChain fun l m => R l.geometry m.geometry) ↔
      v.levels.IsChain fun l m => R l.geometry m.geometry := by
  rw [← List.isChain_map Level.geometry, h.geometries, List.isChain_map]

/-- All that a remap can break of a canonical region is the order of the alphas. -/
theorem Remapped.canonical_iff (h : Remapped v r) (hv : Canonical engine v) :
    Canonical engine r ↔ r.levels.Pairwise fun higher lower => lower.alpha < higher.alpha := by
  refine ⟨Canonical.descending, fun hdesc => ?_⟩
  refine ⟨hdesc, fun l hl => ?_, fun l hl => ?_, fun l hl => ?_, ?_, ?_⟩
  · obtain ⟨m, hm, hgeometry⟩ := h.exists_level hl
    exact hgeometry ▸ hv.normalized m hm
  · obtain ⟨m, hm, hgeometry⟩ := h.exists_level hl
    exact hgeometry ▸ hv.nonEmpty m hm
  · obtain ⟨m, hm, hgeometry⟩ := h.exists_level hl
    rw [h.srid]
    exact hgeometry ▸ hv.sameSrid m hm
  · exact (h.isChain_iff (R := fun g h => engine.contains h g = .ok true)).mpr hv.nested
  · exact (h.isChain_iff (R := fun g h => engine.topologicallyEquals g h = .ok false)).mpr
      hv.distinct

theorem Canonical.le_maxAlpha (hv : Canonical engine v) {max : Alpha F}
    (hmax : v.maxAlpha = some max) : ∀ l ∈ v.levels, l.alpha ≤ max := by
  intro l hl
  obtain ⟨first, hfirst, rfl⟩ := Option.map_eq_some_iff.mp hmax
  obtain ⟨rest, hlevels⟩ := List.head?_eq_some_iff.mp hfirst
  have hdesc := hlevels ▸ hv.descending
  rcases List.mem_cons.mp (hlevels ▸ hl) with rfl | hl
  · exact le_rfl
  · exact ((List.pairwise_cons.mp hdesc).1 l hl).le

end Fuzzyregion

end FuzzyRegion
