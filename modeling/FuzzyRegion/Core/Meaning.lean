import FuzzyRegion.Core.Mock

/-!
# The meaning of a canonical region

A canonical region is read in two ways: by looking up the membership of a point, which scans the
levels from the highest, and by cutting at a threshold, which scans them from the lowest. Both
read the same function, and this function determines the region.

## Main definitions

* `Covers`: the geometry of a cut covers a point

## Main results

* `cuts_iff_membershipAt`: the cuts are the superlevel sets of the lookup
* `Canonical.eq_of_grade_eq`: a canonical region is determined by its SRID and its grades
* `eq_of_membershipAt_eq`: a canonical region is determined by its SRID and its memberships
-/

namespace FuzzyRegion

open Fallible LevelStack

namespace Fuzzyregion

variable {F G P E : Type} [LawfulScalar F]

/-! ## Cuts and lookups -/

theorem Canonical.membershipAt_eq_some_iff {e : RegularizedEngine G P} {v : Fuzzyregion F G}
    (hv : Canonical (e.engine E) v) (p : P) (x : Alpha F) :
    v.membershipAt (e.engine E) p = .ok (some x) ↔ grade (e.stack v.levels) p = x := by
  obtain ⟨m, hm, hgrade⟩ := hv.membershipAt_eq p
  rw [hm, hgrade]
  cases m with
  | none => simp
  | some y =>
    rw [Except.ok.injEq, Option.some.injEq]
    exact WithBot.coe_inj.symm

/-- Lookups agree exactly when the grades do. -/
theorem Canonical.membershipAt_eq_membershipAt_iff {e : RegularizedEngine G P}
    {a b : Fuzzyregion F G} (ha : Canonical (e.engine E) a) (hb : Canonical (e.engine E) b) (p : P) :
    a.membershipAt (e.engine E) p = b.membershipAt (e.engine E) p ↔
      grade (e.stack a.levels) p = grade (e.stack b.levels) p := by
  obtain ⟨m, hm, hga⟩ := ha.membershipAt_eq p
  obtain ⟨n, hn, hgb⟩ := hb.membershipAt_eq p
  rw [hm, hn, hga, hgb, Except.ok.injEq]
  cases m <;> cases n <;> simp

theorem exists_containsPoint_iff {e : RegularizedEngine G P} {cut : Option G} {p : P} :
    (∃ g, cut = some g ∧ (e.engine E).containsPoint g p = .ok true) ↔ p ∈ e.covered cut := by
  simp only [CrispEngine.engine_containsPoint, Except.ok.injEq, e.containsPoint_iff]
  rfl

/-- The geometry of a cut covers the point, as the engine tells it. -/
def Covers (engine : GeometryEngine G P E) (cut : Option G) (p : P) : Prop :=
  ∃ g, cut = some g ∧ engine.containsPoint g p = .ok true

theorem covers_iff {e : RegularizedEngine G P} {cut : Option G} {p : P} :
    Covers (e.engine E) cut p ↔ p ∈ e.covered cut := exists_containsPoint_iff

/-- The membership lookup returns the maximum of a set of alphas that reaches what the grade
reaches. -/
theorem Canonical.isMaximum_membershipAt {e : RegularizedEngine G P} {v : Fuzzyregion F G}
    (hv : Canonical (e.engine E) v) {p : P} {s : Set (Alpha F)}
    (h : ∀ t : Alpha F, (t : WithBot (Alpha F)) ≤ grade (e.stack v.levels) p ↔ ∃ a ∈ s, t ≤ a) :
    ∃ m, v.membershipAt (e.engine E) p = .ok m ∧ IsMaximum s m := by
  obtain ⟨m, hm, hgrade⟩ := hv.membershipAt_eq p
  rw [hgrade] at h
  exact ⟨m, hm, isMaximum_of_coe_le_iff h⟩

/-- **The cuts are the superlevel sets of the membership lookup.** At the threshold zero both cuts
cover every point that has a membership. -/
theorem cuts_iff_membershipAt (e : PointSetEngine G P) {v : Fuzzyregion F G}
    (hv : Canonical (e.engine E) v) (t : AlphaThreshold F) (p : P) :
    ((∃ g, v.alphaCut t = some g ∧ (e.engine E).containsPoint g p = .ok true) ↔
      ∃ x : Alpha F, v.membershipAt (e.engine E) p = .ok (some x) ∧ t.toRat ≤ x.toRat) ∧
    ((∃ g, v.strictAlphaCut t = some g ∧ (e.engine E).containsPoint g p = .ok true) ↔
      ∃ x : Alpha F, v.membershipAt (e.engine E) p = .ok (some x) ∧ t.toRat < x.toRat) ∧
    (t.toRat = 0 →
      ((∃ g, v.alphaCut t = some g ∧ (e.engine E).containsPoint g p = .ok true) ↔
        ∃ x : Alpha F, v.membershipAt (e.engine E) p = .ok (some x)) ∧
      ((∃ g, v.strictAlphaCut t = some g ∧ (e.engine E).containsPoint g p = .ok true) ↔
        ∃ x : Alpha F, v.membershipAt (e.engine E) p = .ok (some x))) := by
  simp only [exists_containsPoint_iff, hv.membershipAt_eq_some_iff]
  rw [hv.mem_alphaCut_iff, hv.mem_strictAlphaCut_iff]
  refine ⟨Iff.rfl, Iff.rfl, ?_⟩
  -- every alpha is positive, so at zero the conditions on `x` hold
  intro hzero
  rw [hzero]
  constructor
  · exact exists_congr fun x => and_iff_left x.toRat_pos.le
  · exact exists_congr fun x => and_iff_left x.toRat_pos

theorem cuts_iff_membershipAt_hill :
    (∃ g, hill.alphaCut (.ofAlpha (exactAlpha (3 / 4) (by norm_num))) = some g ∧
      (mockEngine.engine Empty).containsPoint g 1 = .ok true) ↔
    ∃ x : Alpha ℚ, hill.membershipAt (mockEngine.engine Empty) 1 = .ok (some x) ∧
      (3 / 4 : ℚ) ≤ x.toRat :=
  (cuts_iff_membershipAt mockEngine.toPointSetEngine canonical_hill _ 1).1

/-! ## Uniqueness -/

/-- On an extensional engine a level is determined by its alpha and its points. -/
theorem Canonical.level_ext {e : ExtensionalEngine G P} {a b : Fuzzyregion F G}
    (ha : Canonical (e.engine E) a) (hb : Canonical (e.engine E) b) (hsrid : a.srid = b.srid)
    {l m : Level F G} (hl : l ∈ a.levels) (hm : m ∈ b.levels) (halpha : l.alpha = m.alpha)
    (hpoints : e.points l.geometry = e.points m.geometry) : l = m := by
  obtain ⟨g, hg⟩ := ha.normalized l hl
  obtain ⟨h, hh⟩ := hb.normalized m hm
  obtain ⟨s, hs, hls⟩ := ha.sameSrid l hl
  obtain ⟨s', hs', hms⟩ := hb.sameSrid m hm
  obtain rfl : s = s' := Option.some.inj (hs.symm.trans (hsrid.trans hs'))
  have hg := Except.ok.inj hg
  have hh := Except.ok.inj hh
  -- both geometries are normalizations, of geometries with the same points and SRID
  have hgeometry : l.geometry = m.geometry := by
    rw [← hg, ← hh]
    apply e.normalize_ext
    · rw [← e.points_normalize g, ← e.points_normalize h, hg, hh, hpoints]
    · rw [← e.srid_normalize g, ← e.srid_normalize h, hg, hh]
      exact (Except.ok.inj hls).trans (Except.ok.inj hms).symm
  cases l
  cases m
  exact congrArg₂ Level.mk halpha hgeometry

/-- Canonical regions of one SRID with the same grades are equal. -/
theorem Canonical.eq_of_grade_eq {e : ExtensionalEngine G P} {a b : Fuzzyregion F G}
    (ha : Canonical (e.engine E) a) (hb : Canonical (e.engine E) b) (hsrid : a.srid = b.srid)
    (hgrade : ∀ p, grade (e.stack a.levels) p = grade (e.stack b.levels) p) : a = b := by
  -- the stacks agree, and levels with one alpha and one point set are equal
  have hstack := ha.isStrictStack.eq_of_grade_eq hb.isStrictStack hgrade
  have hlen : a.levels.length = b.levels.length := by
    simpa [RegularizedEngine.stack] using congrArg List.length hstack
  have hlevels : a.levels = b.levels := by
    apply List.ext_getElem hlen
    intro i hi hi'
    have hpair : (a.levels[i].alpha, e.points a.levels[i].geometry) =
        (b.levels[i].alpha, e.points b.levels[i].geometry) := by
      have hget := congrArg (fun s => s[i]?) hstack
      simpa [RegularizedEngine.stack, hi, hi'] using hget
    obtain ⟨halpha, hpoints⟩ := Prod.mk.inj hpair
    exact ha.level_ext hb hsrid (List.getElem_mem hi) (List.getElem_mem hi') halpha hpoints
  cases a
  cases b
  exact congrArg₂ Fuzzyregion.mk hsrid hlevels

/-- **The canonical form is unique**: canonical regions of one SRID with the same memberships have
the same levels. -/
theorem eq_of_membershipAt_eq (e : ExtensionalEngine G P) {a b : Fuzzyregion F G}
    (ha : Canonical (e.engine E) a) (hb : Canonical (e.engine E) b) (hsrid : a.srid = b.srid)
    (hlookup : ∀ p, a.membershipAt (e.engine E) p = b.membershipAt (e.engine E) p) : a = b := by
  apply ha.eq_of_grade_eq hb hsrid
  intro p
  exact (ha.membershipAt_eq_membershipAt_iff hb p).mp (hlookup p)

/-- The levels of `hill`, from a list in another order and with a level that the collapse drops. -/
def ridge : Fuzzyregion ℚ MockGeometry where
  srid := some 4326
  levels := [⟨Alpha.one, ⟨4326, {1}⟩⟩,
    ⟨exactAlpha (2 / 4) (by norm_num), ⟨4326, {2, 1}⟩⟩]

theorem canonicalize_ridge :
    canonicalize ⟨[⟨exactAlpha (2 / 4) (by norm_num), ⟨4326, {2, 1}⟩⟩,
      ⟨exactAlpha (3 / 4) (by norm_num), ⟨4326, {1}⟩⟩,
      ⟨Alpha.one, ⟨4326, {1}⟩⟩]⟩ (mockEngine.engine Empty) = .ok ridge := by
  decide +kernel

theorem hill_eq_ridge : hill = ridge := by
  refine eq_of_membershipAt_eq mockEngine canonical_hill
    (canonicalize_canonical canonicalize_ridge) rfl fun p => ?_
  have halpha : exactAlpha (1 / 2) (by norm_num) = exactAlpha (2 / 4) (by norm_num) := by
    decide +kernel
  have hcells : ({1, 2} : Finset Int32) = {2, 1} := Finset.pair_comm 1 2
  rw [hill, ridge, halpha, hcells]

end Fuzzyregion

end FuzzyRegion
