import Mathlib.Data.Finset.Sort
import Mathlib.Data.Set.Card
import Mathlib.Order.Lattice
import FuzzyRegion.Data.LevelStack

/-!
# Fuzzy sets with finitely many memberships

A fuzzy set grades the points of a type by the elements of a linear order, or not at all. Those with
finitely many grades are exactly what level stacks present: the cuts at the grades in use form a
strict stack, and every strict stack is the stack of the cuts of what it presents. No list of
labelled sets that presents a fuzzy set is shorter.

## Main definitions

* `FuzzySet`: grades with finitely many values, a distributive lattice
* `FuzzySet.values`, `FuzzySet.cut`: the grades in use, and the points that reach a label
* `FuzzySet.ofStack`, `FuzzySet.stack`: the fuzzy set of a list, and the stack of the cuts
* `FuzzySet.map`: the grades mapped, where a map may drop a grade
* `IsMinimum`: the least element of a set, if there is any

## Main results

* `FuzzySet.ofStack_stack`, `FuzzySet.stack_ofStack`: strict stacks present fuzzy sets uniquely
* `FuzzySet.values_ofStack`: the labels of a strict stack are the grades in use
* `FuzzySet.ncard_values_le_length`: the strict stack is the shortest presentation
-/

namespace LevelStack

/-- The grade of every point, with finitely many grades in use. -/
@[ext] structure FuzzySet (α P : Type*) where
  grade : P → WithBot α
  finite : {a : α | ∃ p, grade p = a}.Finite

namespace FuzzySet

variable {α β P : Type*}

/-- The grades in use. -/
def values (A : FuzzySet α P) : Set α := {a | ∃ p, A.grade p = a}

theorem mem_values_iff {A : FuzzySet α P} {a : α} : a ∈ A.values ↔ ∃ p, A.grade p = a := Iff.rfl

theorem grade_injective : Function.Injective (grade : FuzzySet α P → P → WithBot α) := by
  intro A B h
  exact FuzzySet.ext h

/-- Grades that all come from a finite set. -/
def ofSubset (grade : P → WithBot α) {s : Set α} (hs : s.Finite)
    (h : ∀ p (a : α), grade p = a → a ∈ s) : FuzzySet α P :=
  ⟨grade, hs.subset fun a ⟨p, hp⟩ => h p a hp⟩

/-- A grade that comes out of a map has gone in as one. -/
theorem mem_image_values {A : FuzzySet α P} {f : α → WithBot β} {p : P} {b : β}
    (h : (A.grade p).recBotCoe ⊥ f = (b : WithBot β)) : (b : WithBot β) ∈ f '' A.values := by
  cases hg : A.grade p with
  | bot =>
    rw [hg] at h
    cases h
  | coe a =>
    rw [hg] at h
    exact ⟨a, ⟨p, hg⟩, h⟩

/-- Every grade through a map, which may drop it. -/
def map (f : α → WithBot β) (A : FuzzySet α P) : FuzzySet β P where
  grade p := (A.grade p).recBotCoe ⊥ f
  finite := ((A.finite.image f).preimage WithBot.coe_injective.injOn).subset
    fun _ ⟨_, hp⟩ => mem_image_values hp

theorem map_grade (f : α → WithBot β) (A : FuzzySet α P) (p : P) :
    (A.map f).grade p = (A.grade p).recBotCoe ⊥ f := rfl

theorem values_map_subset (A : FuzzySet α P) (f : α → WithBot β) :
    WithBot.some '' (A.map f).values ⊆ f '' A.values := by
  rintro _ ⟨b, ⟨p, hp⟩, rfl⟩
  exact mem_image_values hp

/-- A map does not make more grades. -/
theorem ncard_values_map_le (A : FuzzySet α P) (f : α → WithBot β) :
    (A.map f).values.ncard ≤ A.values.ncard := by
  rw [← Set.ncard_image_of_injective _ (WithBot.coe_injective (α := β))]
  refine (Set.ncard_le_ncard (values_map_subset A f) (A.finite.image f)).trans ?_
  exact Set.ncard_image_le A.finite

theorem finite_union (A B : FuzzySet α P) : (A.values ∪ B.values).Finite :=
  A.finite.union B.finite

variable [LinearOrder α]

/-- The points whose grade reaches a label. -/
def cut (A : FuzzySet α P) (a : α) : Set P := {p | (a : WithBot α) ≤ A.grade p}

theorem mem_cut_iff {A : FuzzySet α P} {a : α} {p : P} :
    p ∈ A.cut a ↔ (a : WithBot α) ≤ A.grade p := Iff.rfl

/-! ## The lattice -/

/-- In a linear order the greater of two grades is one of them. -/
theorem mem_values_of_sup {A B : FuzzySet α P} {p : P} {a : α}
    (h : A.grade p ⊔ B.grade p = a) : a ∈ A.values ∪ B.values := by
  rcases max_choice (A.grade p) (B.grade p) with hmax | hmax
  · exact Or.inl ⟨p, hmax.symm.trans h⟩
  · exact Or.inr ⟨p, hmax.symm.trans h⟩

theorem mem_values_of_inf {A B : FuzzySet α P} {p : P} {a : α}
    (h : A.grade p ⊓ B.grade p = a) : a ∈ A.values ∪ B.values := by
  rcases min_choice (A.grade p) (B.grade p) with hmin | hmin
  · exact Or.inl ⟨p, hmin.symm.trans h⟩
  · exact Or.inr ⟨p, hmin.symm.trans h⟩

instance : Max (FuzzySet α P) where
  max A B := ofSubset (A.grade ⊔ B.grade) (A.finite_union B) fun _ _ => mem_values_of_sup

instance : Min (FuzzySet α P) where
  min A B := ofSubset (A.grade ⊓ B.grade) (A.finite_union B) fun _ _ => mem_values_of_inf

instance : LE (FuzzySet α P) := ⟨fun A B => A.grade ≤ B.grade⟩

instance : LT (FuzzySet α P) := ⟨fun A B => A.grade < B.grade⟩

/-- Fuzzy sets, ordered by the grades of every point. -/
instance : DistribLattice (FuzzySet α P) :=
  grade_injective.distribLattice grade Iff.rfl Iff.rfl (fun _ _ => rfl) (fun _ _ => rfl)

@[simp] theorem grade_sup (A B : FuzzySet α P) (p : P) :
    (A ⊔ B).grade p = A.grade p ⊔ B.grade p := rfl

@[simp] theorem grade_inf (A B : FuzzySet α P) (p : P) :
    (A ⊓ B).grade p = A.grade p ⊓ B.grade p := rfl

theorem values_sup_subset (A B : FuzzySet α P) : (A ⊔ B).values ⊆ A.values ∪ B.values := by
  rintro a ⟨p, hp⟩
  exact mem_values_of_sup hp

theorem values_inf_subset (A B : FuzzySet α P) : (A ⊓ B).values ⊆ A.values ∪ B.values := by
  rintro a ⟨p, hp⟩
  exact mem_values_of_inf hp

/-! ## Presentations -/

/-- The fuzzy set that a list of labelled sets presents. -/
noncomputable def ofStack (s : List (α × Set P)) : FuzzySet α P :=
  ofSubset (LevelStack.grade s) (s.map Prod.fst).finite_toSet fun p a hp => by
    obtain ⟨l, hl, hla, -⟩ := (grade_eq_coe_iff.mp hp).1
    exact hla ▸ List.mem_map_of_mem hl

@[simp] theorem ofStack_grade (s : List (α × Set P)) (p : P) :
    (ofStack s).grade p = LevelStack.grade s p := rfl

/-- The grades in use are some of the labels. -/
theorem values_ofStack_subset (s : List (α × Set P)) :
    (ofStack s).values ⊆ {a | a ∈ s.map Prod.fst} := by
  rintro a ⟨p, hp⟩
  obtain ⟨l, hl, hla, -⟩ := (grade_eq_coe_iff.mp hp).1
  exact hla ▸ List.mem_map_of_mem hl

/-- On a strict stack they are all of them. -/
theorem values_ofStack {s : List (α × Set P)} (hs : IsStrictStack s) :
    (ofStack s).values = {a | a ∈ s.map Prod.fst} := by
  apply (values_ofStack_subset s).antisymm
  intro a ha
  obtain ⟨l, hl, rfl⟩ := List.mem_map.mp ha
  exact hs.exists_grade_eq hl

/-- The cuts at the grades in use, from the highest to the lowest. -/
noncomputable def stack (A : FuzzySet α P) : List (α × Set P) :=
  (A.finite.toFinset.sort (· ≥ ·)).map fun a => (a, A.cut a)

theorem mem_stack_iff {A : FuzzySet α P} {l : α × Set P} :
    l ∈ A.stack ↔ l.1 ∈ A.values ∧ l.2 = A.cut l.1 := by
  rw [stack, List.mem_map]
  simp only [Finset.mem_sort, Set.Finite.mem_toFinset]
  constructor
  · rintro ⟨a, ha, rfl⟩
    exact ⟨ha, rfl⟩
  · rintro ⟨ha, hl⟩
    exact ⟨l.1, ha, Prod.ext rfl hl.symm⟩

/-- A lower label has more points, where both are grades in use. -/
theorem cut_ssubset {A : FuzzySet α P} {a b : α} (hb : b ∈ A.values) (hlt : b < a) :
    A.cut a ⊂ A.cut b := by
  obtain ⟨p, hp⟩ := hb
  -- a point of the lower grade is in the larger cut only
  refine Set.ssubset_iff_exists.mpr ⟨fun q hq => ?_, p, mem_cut_iff.mpr hp.ge, fun hpa => ?_⟩
  · exact mem_cut_iff.mpr ((WithBot.coe_le_coe.mpr hlt.le).trans (mem_cut_iff.mp hq))
  · rw [mem_cut_iff, hp, WithBot.coe_le_coe] at hpa
    exact hlt.not_ge hpa

theorem isStrictStack_stack (A : FuzzySet α P) : IsStrictStack A.stack where
  ascending := by
    rw [stack, List.pairwise_map]
    refine List.Pairwise.imp_of_mem ?_ (Finset.sortedGT_sort A.finite.toFinset).pairwise
    intro a b _ hb hlt
    exact ⟨hlt, cut_ssubset (A.finite.mem_toFinset.mp ((Finset.mem_sort _).mp hb)) hlt⟩
  nonempty := by
    intro l hl
    obtain ⟨⟨p, hp⟩, hcut⟩ := mem_stack_iff.mp hl
    exact ⟨p, hcut ▸ hp.ge⟩

/-- **The cuts at the grades in use present a fuzzy set.** -/
theorem ofStack_stack (A : FuzzySet α P) : ofStack A.stack = A := by
  refine FuzzySet.ext (funext fun p => eq_of_coe_le_iff fun t => ?_)
  rw [ofStack_grade, coe_le_grade_iff]
  constructor
  · rintro ⟨l, hl, htl, hp⟩
    rw [(mem_stack_iff.mp hl).2] at hp
    exact (WithBot.coe_le_coe.mpr htl).trans hp
  · intro ht
    cases hg : A.grade p with
    | bot => exact absurd (hg ▸ ht) (WithBot.not_coe_le_bot t)
    | coe a =>
      -- the cut at the grade of the point
      rw [hg, WithBot.coe_le_coe] at ht
      exact ⟨(a, A.cut a), mem_stack_iff.mpr ⟨⟨p, hg⟩, rfl⟩, ht, hg.ge⟩

/-- **A strict stack is the stack of the cuts of what it presents.** -/
theorem stack_ofStack {s : List (α × Set P)} (hs : IsStrictStack s) : (ofStack s).stack = s :=
  (isStrictStack_stack _).eq_of_grade_eq hs
    (congrFun (congrArg grade (ofStack_stack (ofStack s))))

/-- The labels of a strict stack are the grades in use, in descending order. -/
theorem map_fst_eq_sort {s : List (α × Set P)} (hs : IsStrictStack s) :
    s.map Prod.fst = (ofStack s).finite.toFinset.sort (· ≥ ·) := by
  have h := congrArg (List.map Prod.fst) (stack_ofStack hs)
  rw [stack, List.map_map] at h
  exact h.symm.trans (List.map_id _)

/-- A presentation has at least as many levels as there are grades in use. -/
theorem ncard_values_le_length (s : List (α × Set P)) : (ofStack s).values.ncard ≤ s.length := by
  classical
  have hsubset : (ofStack s).values ⊆ ((s.map Prod.fst).toFinset : Set α) := by
    rw [List.coe_toFinset]
    exact values_ofStack_subset s
  calc (ofStack s).values.ncard
      ≤ (((s.map Prod.fst).toFinset : Finset α) : Set α).ncard :=
        Set.ncard_le_ncard hsubset (Finset.finite_toSet _)
    _ = (s.map Prod.fst).toFinset.card := Set.ncard_coe_finset _
    _ ≤ (s.map Prod.fst).length := List.toFinset_card_le _
    _ = s.length := List.length_map _

/-- A strict stack has exactly as many. -/
theorem length_eq_ncard_values {s : List (α × Set P)} (hs : IsStrictStack s) :
    s.length = (ofStack s).values.ncard := by
  rw [← List.length_map Prod.fst, map_fst_eq_sort hs, Finset.length_sort]
  exact (Set.ncard_eq_toFinset_card _ (ofStack s).finite).symm

end FuzzySet

/-! ## The extreme labels -/

theorem setOf_mem_nil {α : Type*} : {a | a ∈ ([] : List α)} = ∅ :=
  Set.eq_empty_iff_forall_notMem.mpr (by simp)

variable {α : Type*} [LinearOrder α] {l : List α}

/-- The least element of a set, none when the set is empty. -/
def IsMinimum (s : Set α) (m : Option α) : Prop := m.elim (s = ∅) (IsLeast s)

/-- The first element of a descending list is its greatest one. -/
theorem isMaximum_head? (h : l.Pairwise fun a b => b < a) : IsMaximum {a | a ∈ l} l.head? := by
  cases l with
  | nil => exact setOf_mem_nil
  | cons a l =>
    refine ⟨List.mem_cons_self, fun b hb => ?_⟩
    rcases List.mem_cons.mp hb with rfl | hb
    · exact le_rfl
    · exact ((List.pairwise_cons.mp h).1 b hb).le

/-- The last element of a descending list is its least one. -/
theorem isMinimum_getLast? (h : l.Pairwise fun a b => b < a) :
    IsMinimum {a | a ∈ l} l.getLast? := by
  rcases List.eq_nil_or_concat l with rfl | ⟨l, a, rfl⟩
  · exact setOf_mem_nil
  · rw [List.concat_eq_append] at h ⊢
    rw [List.getLast?_append, List.getLast?_singleton, Option.some_or]
    refine ⟨by simp, fun b hb => ?_⟩
    rcases List.mem_append.mp hb with hb | hb
    · exact ((List.pairwise_append.mp h).2.2 b hb a List.mem_cons_self).le
    · exact (List.mem_singleton.mp hb).ge

end LevelStack
