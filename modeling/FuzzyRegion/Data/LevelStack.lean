import FuzzyRegion.Data.Descending
import Mathlib.Data.List.Destutter
import Mathlib.Data.List.MinMax
import Mathlib.Data.List.Sort
import Mathlib.Data.Set.Lattice
import Mathlib.Order.CompletePartialOrder

/-!
# Level stacks

A finite list of labelled sets grades the points of a type: the grade of a point is the greatest
label of a set that contains it. A stack is such a list with descending labels and ascending sets,
the finite presentation of a fuzzy set by its cuts. On a stack the first covering level gives the
grade, the last level above a threshold gives a whole cut, and a strict stack is determined by its
grades.

## Main definitions

* `grade`: the grade of a point in a list of labelled sets
* `IsMaximum`: the greatest element of a set, if there is any
* `IsStack`, `IsStrictStack`: descending labels, with ascending or strictly ascending sets

## Main results

* `pairwise_lt_of_isChain_ne`: sorted keys without repeated neighbours are strictly sorted
* `coe_le_grade_iff`, `grade_congr`: grades are determined by the cuts
* `grade_eq_of_find?`: the first covering level of a list with descending labels gives the grade
* `IsStack.mem_lowest_iff`: the last level with a property covers what any level with it covers
* `grade_destutter`: dropping repeated sets keeps the grades
* `IsStrictStack.eq_of_grade_eq`: a strict stack is determined by its grades
-/

namespace LevelStack

variable {α P : Type*} [LinearOrder α]

/-! ## Neighbours -/

theorem isChain_and {β : Type*} {R S : β → β → Prop} {l : List β} (hR : l.IsChain R)
    (hS : l.IsChain S) : l.IsChain fun a b => R a b ∧ S a b := by
  induction l with
  | nil => exact .nil
  | cons a l ih =>
    cases l with
    | nil => exact .singleton a
    | cons b l =>
      rw [List.isChain_cons_cons] at hR hS ⊢
      exact ⟨⟨hR.1, hS.1⟩, ih hR.2 hS.2⟩

/-- Sorted keys without repeated neighbours are strictly sorted. -/
theorem pairwise_lt_of_isChain_ne {β : Type*} {key : β → α} {l : List β}
    (hle : l.Pairwise fun a b => key b ≤ key a) (hne : l.IsChain fun a b => key a ≠ key b) :
    l.Pairwise fun a b => key b < key a := by
  have hlt : l.IsChain fun a b => key b < key a :=
    (isChain_and hle.isChain hne).imp fun _ _ h => h.1.lt_of_ne h.2.symm
  exact Descending.isChain_iff_pairwise.mp hlt

theorem mem_destutter' {β : Type*} {R : β → β → Prop} [DecidableRel R]
    (hR : ∀ {a b}, ¬ R a b → a = b) {a b : β} {l : List β} (hb : b ∈ a :: l) :
    b ∈ l.destutter' R a := by
  -- induction on the unread part, with the last retained element as the head
  induction l generalizing a with
  | nil => simpa using hb
  | cons c l ih =>
    rw [List.destutter'_cons]
    split_ifs with hac
    · rcases List.mem_cons.mp hb with rfl | hb
      · exact List.mem_cons_self
      · exact List.mem_cons_of_mem a (ih hb)
    · -- the dropped element equals the retained one
      obtain rfl := hR hac
      rcases List.mem_cons.mp hb with rfl | hb
      · exact ih List.mem_cons_self
      · exact ih hb

/-- Dropping repeated neighbours loses no element. -/
theorem mem_destutter_iff {β : Type*} {R : β → β → Prop} [DecidableRel R]
    (hR : ∀ {a b}, ¬ R a b → a = b) {b : β} {l : List β} : b ∈ l.destutter R ↔ b ∈ l := by
  refine ⟨fun hb => (List.destutter_sublist R l).subset hb, fun hb => ?_⟩
  cases l with
  | nil => cases hb
  | cons a l => exact mem_destutter' hR hb

theorem exists_destutter'_eq_cons {β : Type*} {R : β → β → Prop} [DecidableRel R] (a : β)
    (l : List β) : ∃ l', l.destutter' R a = a :: l' := by
  induction l with
  | nil => exact ⟨[], rfl⟩
  | cons b l ih =>
    rw [List.destutter'_cons]
    split_ifs
    · exact ⟨_, rfl⟩
    · exact ih

section

variable {β γ : Type*} [DecidableEq γ] {f : β → γ} {S : γ → γ → Prop}

theorem isChain_of_isChain_destutter' (hS : ∀ c, S c c) {a : β} {l : List β}
    (h : (l.destutter' (fun a b => f a ≠ f b) a).IsChain fun a b => S (f a) (f b)) :
    (a :: l).IsChain fun a b => S (f a) (f b) := by
  -- induction on the unread part, with the last retained element as the head
  induction l generalizing a with
  | nil => exact .singleton a
  | cons b l ih =>
    rw [List.destutter'_cons] at h
    split_ifs at h with hab
    · -- the next retained element is `b`
      obtain ⟨l', hl'⟩ := exists_destutter'_eq_cons (R := fun a b => f a ≠ f b) b l
      rw [hl', List.isChain_cons_cons] at h
      exact List.isChain_cons_cons.mpr ⟨h.1, ih (hl' ▸ h.2)⟩
    · -- `b` is dropped, and related to its neighbours like `a`
      have heq : f a = f b := not_not.mp hab
      have hchain := ih h
      refine List.isChain_cons_cons.mpr ⟨heq ▸ hS (f a), ?_⟩
      cases l with
      | nil => exact .singleton b
      | cons c l =>
        rw [List.isChain_cons_cons] at hchain ⊢
        exact ⟨heq ▸ hchain.1, hchain.2⟩

/-- A chain without its repeated neighbours was a chain with them. -/
theorem isChain_of_isChain_destutter (hS : ∀ c, S c c) {l : List β}
    (h : (l.destutter fun a b => f a ≠ f b).IsChain fun a b => S (f a) (f b)) :
    l.IsChain fun a b => S (f a) (f b) := by
  cases l with
  | nil => exact .nil
  | cons a l => exact isChain_of_isChain_destutter' hS h

end

/-! ## Grades -/

open Classical in
/-- The greatest label of a set that contains the point, `⊥` when none does. -/
noncomputable def grade (s : List (α × Set P)) (p : P) : WithBot α :=
  ((s.filter fun l => p ∈ l.2).map Prod.fst).maximum

theorem coe_le_grade_iff {s : List (α × Set P)} {p : P} {t : α} :
    (t : WithBot α) ≤ grade s p ↔ ∃ l ∈ s, t ≤ l.1 ∧ p ∈ l.2 := by
  rw [grade, List.coe_le_maximum_iff]
  constructor
  · rintro ⟨a, ha, hta⟩
    obtain ⟨l, hl, rfl⟩ := List.mem_map.mp ha
    obtain ⟨hmem, hp⟩ := List.mem_filter.mp hl
    exact ⟨l, hmem, hta, by simpa using hp⟩
  · rintro ⟨l, hl, hta, hp⟩
    exact ⟨l.1, List.mem_map_of_mem (List.mem_filter.mpr ⟨hl, by simpa using hp⟩), hta⟩

theorem grade_eq_coe_iff {s : List (α × Set P)} {p : P} {a : α} :
    grade s p = a ↔ (∃ l ∈ s, l.1 = a ∧ p ∈ l.2) ∧ ∀ l ∈ s, p ∈ l.2 → l.1 ≤ a := by
  rw [grade, List.maximum_eq_coe_iff]
  constructor
  · rintro ⟨ha, hmax⟩
    obtain ⟨l, hl, rfl⟩ := List.mem_map.mp ha
    obtain ⟨hmem, hp⟩ := List.mem_filter.mp hl
    refine ⟨⟨l, hmem, rfl, by simpa using hp⟩, fun m hm hpm => hmax _ ?_⟩
    exact List.mem_map_of_mem (List.mem_filter.mpr ⟨hm, by simpa using hpm⟩)
  · rintro ⟨⟨l, hl, rfl, hp⟩, hmax⟩
    refine ⟨List.mem_map_of_mem (List.mem_filter.mpr ⟨hl, by simpa using hp⟩), fun b hb => ?_⟩
    obtain ⟨m, hm, rfl⟩ := List.mem_map.mp hb
    obtain ⟨hmem, hpm⟩ := List.mem_filter.mp hm
    exact hmax m hmem (by simpa using hpm)

theorem grade_eq_bot_iff {s : List (α × Set P)} {p : P} :
    grade s p = ⊥ ↔ ∀ l ∈ s, p ∉ l.2 := by
  rw [grade, List.maximum_eq_bot, List.map_eq_nil_iff, List.filter_eq_nil_iff]
  simp

/-- An element of `WithBot α` is determined by its lower bounds in `α`. -/
theorem eq_of_coe_le_iff {x y : WithBot α} (h : ∀ t : α, (t : WithBot α) ≤ x ↔ t ≤ y) : x = y := by
  apply le_antisymm
  · induction x with
    | bot => exact bot_le
    | coe a => exact (h a).mp le_rfl
  · induction y with
    | bot => exact bot_le
    | coe a => exact (h a).mpr le_rfl

theorem le_of_coe_le {x y : WithBot α} (h : ∀ a : α, (a : WithBot α) ≤ x → a ≤ y) : x ≤ y := by
  cases x with
  | bot => exact bot_le
  | coe a => exact h a le_rfl

/-- The greatest element of a set, none when the set is empty. -/
def IsMaximum (s : Set α) (m : Option α) : Prop := m.elim (s = ∅) (IsGreatest s)

/-- An option whose lower bounds are those of the elements of a set is its maximum. -/
theorem isMaximum_of_coe_le_iff {s : Set α} {m : Option α}
    (h : ∀ t : α, (t : WithBot α) ≤ m.elim ⊥ WithBot.some ↔ ∃ a ∈ s, t ≤ a) : IsMaximum s m := by
  cases m with
  | none =>
    apply Set.eq_empty_iff_forall_notMem.mpr
    intro a ha
    exact absurd ((h a).mpr ⟨a, ha, le_rfl⟩) (WithBot.not_coe_le_bot a)
  | some x =>
    have hupper : x ∈ upperBounds s := fun a ha =>
      WithBot.coe_le_coe.mp ((h a).mpr ⟨a, ha, le_rfl⟩)
    -- some element reaches `x`, and none exceeds it
    obtain ⟨a, ha, hxa⟩ := (h x).mp le_rfl
    exact ⟨hxa.antisymm (hupper ha) ▸ ha, hupper⟩

/-- Lists with the same cuts grade alike. -/
theorem grade_congr {s s' : List (α × Set P)} {p p' : P}
    (h : ∀ t, (∃ l ∈ s, t ≤ l.1 ∧ p ∈ l.2) ↔ ∃ l ∈ s', t ≤ l.1 ∧ p' ∈ l.2) :
    grade s p = grade s' p' :=
  eq_of_coe_le_iff fun t => by rw [coe_le_grade_iff, coe_le_grade_iff, h]

/-- A property of a covering level that passes to greater labels holds at the grade. -/
theorem exists_covering_iff {s : List (α × Set P)} {p : P} {q : α → Prop}
    (hq : ∀ {a b}, a ≤ b → q a → q b) :
    (∃ l ∈ s, q l.1 ∧ p ∈ l.2) ↔ ∃ a : α, grade s p = a ∧ q a := by
  constructor
  · rintro ⟨l, hl, hql, hp⟩
    cases hg : grade s p with
    | bot => exact absurd hp (grade_eq_bot_iff.mp hg l hl)
    | coe a =>
      -- the grade is at least the label of every covering level
      exact ⟨a, rfl, hq ((grade_eq_coe_iff.mp hg).2 l hl hp) hql⟩
  · rintro ⟨a, hg, hqa⟩
    obtain ⟨l, hl, rfl, hp⟩ := (grade_eq_coe_iff.mp hg).1
    exact ⟨l, hl, hqa, hp⟩

open Classical in
/-- On descending labels the first covering level gives the grade. -/
theorem grade_eq_of_find? {s : List (α × Set P)} (hs : s.Pairwise fun a b => b.1 < a.1) (p : P) :
    grade s p = (s.find? fun l => p ∈ l.2).elim ⊥ fun l => (l.1 : WithBot α) := by
  cases hf : s.find? fun l => p ∈ l.2 with
  | none =>
    rw [Option.elim_none, grade_eq_bot_iff]
    intro l hl
    simpa using List.find?_eq_none.mp hf l hl
  | some l =>
    obtain ⟨hp, pre, post, rfl, hpre⟩ := List.find?_eq_some_iff_append.mp hf
    rw [Option.elim_some, grade_eq_coe_iff]
    -- earlier levels do not cover the point, and later ones have smaller labels
    refine ⟨⟨l, by simp, rfl, by simpa using hp⟩, fun m hm hpm => ?_⟩
    rcases List.mem_append.mp hm with hm | hm
    · exact absurd hpm (by simpa using hpre m hm)
    · rcases List.mem_cons.mp hm with rfl | hm
      · exact le_rfl
      · exact ((List.pairwise_cons.mp (List.pairwise_append.mp hs).2.1).1 m hm).le

/-! ## Stacks -/

/-- Descending labels and ascending sets. -/
def IsStack (s : List (α × Set P)) : Prop := s.Pairwise fun a b => b.1 < a.1 ∧ a.2 ⊆ b.2

/-- Descending labels and strictly ascending nonempty sets. -/
structure IsStrictStack (s : List (α × Set P)) : Prop where
  ascending : s.Pairwise fun a b => b.1 < a.1 ∧ a.2 ⊂ b.2
  nonempty : ∀ l ∈ s, l.2.Nonempty

theorem IsStack.descending {s : List (α × Set P)} (hs : IsStack s) :
    s.Pairwise fun a b => b.1 < a.1 := hs.imp And.left

theorem IsStrictStack.isStack {s : List (α × Set P)} (hs : IsStrictStack s) : IsStack s :=
  hs.ascending.imp fun h => ⟨h.1, h.2.subset⟩

/-- The last level with a property covers every point that some level with the property covers. -/
theorem IsStack.mem_lowest_iff {s : List (α × Set P)} (hs : IsStack s) (q : α → Bool) (p : P) :
    (∃ l, s.reverse.find? (fun l => q l.1) = some l ∧ p ∈ l.2) ↔ ∃ l ∈ s, q l.1 ∧ p ∈ l.2 := by
  constructor
  · rintro ⟨l, hf, hp⟩
    exact ⟨l, List.mem_reverse.mp (List.mem_of_find?_eq_some hf),
      (List.find?_eq_some_iff_append.mp hf).1, hp⟩
  · rintro ⟨l, hl, hql, hp⟩
    cases hf : s.reverse.find? fun l => q l.1 with
    | none => exact absurd hql (List.find?_eq_none.mp hf l (List.mem_reverse.mpr hl))
    | some m =>
      obtain ⟨-, after, before, hsplit, hafter⟩ := List.find?_eq_some_iff_append.mp hf
      have hrev : s.reverse.Pairwise fun a b => b.2 ⊆ a.2 :=
        List.pairwise_reverse.mpr (hs.imp And.right)
      rw [hsplit] at hrev
      have hmem : l ∈ after ++ m :: before := hsplit ▸ List.mem_reverse.mpr hl
      -- the levels after `m` fail the property, and those before it lie inside it
      rcases List.mem_append.mp hmem with h | h
      · exact absurd hql (by simpa using hafter l h)
      · rcases List.mem_cons.mp h with rfl | h
        · exact ⟨l, rfl, hp⟩
        · exact ⟨m, rfl, (List.pairwise_cons.mp (List.pairwise_append.mp hrev).2.1).1 l h hp⟩

/-! ## Dropping repeated sets -/

section Destutter

open Classical

theorem exists_mem_destutter' {a : α × Set P} {s : List (α × Set P)}
    (hs : (a :: s).Pairwise fun a b => b.1 < a.1) {l : α × Set P} (hl : l ∈ a :: s) :
    ∃ m ∈ s.destutter' (fun a b => a.2 ≠ b.2) a, m.2 = l.2 ∧ l.1 ≤ m.1 := by
  -- induction on the unread levels, with the last retained one as the head
  induction s generalizing a l with
  | nil => exact ⟨a, by simp, by simp_all⟩
  | cons b s ih =>
    obtain ⟨ha, hbs⟩ := List.pairwise_cons.mp hs
    by_cases hab : a.2 ≠ b.2
    · rw [List.destutter'_cons, if_pos hab]
      rcases List.mem_cons.mp hl with rfl | hl
      · exact ⟨l, List.mem_cons_self, rfl, le_rfl⟩
      · obtain ⟨m, hm, h⟩ := ih hbs hl
        exact ⟨m, List.mem_cons_of_mem a hm, h⟩
    · rw [List.destutter'_cons, if_neg hab]
      have hskip : (a :: s).Pairwise fun a b => b.1 < a.1 :=
        List.pairwise_cons.mpr
          ⟨fun c hc => ha c (List.mem_cons_of_mem b hc), (List.pairwise_cons.mp hbs).2⟩
      rcases List.mem_cons.mp hl with rfl | hl
      · exact ih hskip List.mem_cons_self
      · rcases List.mem_cons.mp hl with rfl | hl
        · -- the dropped level has the set of the retained one, and a smaller label
          obtain ⟨m, hm, hset, hle⟩ := ih hskip List.mem_cons_self
          exact ⟨m, hm, hset.trans (not_not.mp hab), (ha l List.mem_cons_self).le.trans hle⟩
        · exact ih hskip (List.mem_cons_of_mem a hl)

theorem exists_mem_destutter {s : List (α × Set P)} (hs : s.Pairwise fun a b => b.1 < a.1)
    {l : α × Set P} (hl : l ∈ s) :
    ∃ m ∈ s.destutter (fun a b => a.2 ≠ b.2), m.2 = l.2 ∧ l.1 ≤ m.1 := by
  cases s with
  | nil => cases hl
  | cons a s => exact exists_mem_destutter' hs hl

/-- Dropping a level whose set repeats the last retained one changes no grade. -/
theorem grade_destutter {s : List (α × Set P)} (hs : s.Pairwise fun a b => b.1 < a.1) (p : P) :
    grade (s.destutter fun a b => a.2 ≠ b.2) p = grade s p := by
  refine grade_congr fun t => ⟨?_, ?_⟩
  · rintro ⟨l, hl, h⟩
    exact ⟨l, (List.destutter_sublist _ s).subset hl, h⟩
  · rintro ⟨l, hl, ht, hp⟩
    obtain ⟨m, hm, hset, hle⟩ := exists_mem_destutter hs hl
    exact ⟨m, hm, ht.trans hle, hset ▸ hp⟩

end Destutter

/-! ## Uniqueness -/

/-- Every level of a strict stack is the grade of one of its points. -/
theorem IsStrictStack.exists_grade_eq {s : List (α × Set P)} (hs : IsStrictStack s)
    {l : α × Set P} (hl : l ∈ s) : ∃ p, grade s p = l.1 := by
  obtain ⟨pre, post, rfl⟩ := List.append_of_mem hl
  obtain ⟨hpre, hpost, hcross⟩ := List.pairwise_append.mp hs.ascending
  -- a point of `l` outside the level before it is outside all earlier ones
  have hnew : ∃ p ∈ l.2, ∀ k ∈ pre, p ∉ k.2 := by
    rcases List.eq_nil_or_concat pre with rfl | ⟨pre', m, rfl⟩
    · obtain ⟨p, hp⟩ := hs.nonempty l hl
      exact ⟨p, hp, by simp⟩
    · rw [List.concat_eq_append] at hpre hcross ⊢
      obtain ⟨p, hp, hnot⟩ := Set.exists_of_ssubset (hcross m (by simp) l (by simp)).2
      refine ⟨p, hp, fun k hk => ?_⟩
      rcases List.mem_append.mp hk with hk | hk
      · exact fun h => hnot (((List.pairwise_append.mp hpre).2.2 k hk m (by simp)).2.subset h)
      · rwa [List.mem_singleton.mp hk]
  obtain ⟨p, hp, hout⟩ := hnew
  refine ⟨p, grade_eq_coe_iff.mpr ⟨⟨l, hl, rfl, hp⟩, ?_⟩⟩
  intro k hk hpk
  rcases List.mem_append.mp hk with hk | hk
  · exact absurd hpk (hout k hk)
  · rcases List.mem_cons.mp hk with rfl | hk
    · exact le_rfl
    · exact ((List.pairwise_cons.mp hpost).1 k hk).1.le

/-- A level of a stack is the cut at its label. -/
theorem IsStack.eq_cut {s : List (α × Set P)} (hs : IsStack s) {l : α × Set P} (hl : l ∈ s) :
    l.2 = {p | (l.1 : WithBot α) ≤ grade s p} := by
  ext p
  rw [Set.mem_ofPred_eq, coe_le_grade_iff]
  refine ⟨fun hp => ⟨l, hl, le_rfl, hp⟩, ?_⟩
  rintro ⟨m, hm, hle, hp⟩
  obtain ⟨pre, post, rfl⟩ := List.append_of_mem hl
  obtain ⟨-, hpost, hcross⟩ := List.pairwise_append.mp hs
  -- an earlier level lies inside `l`, and a later one has a smaller label
  rcases List.mem_append.mp hm with hm | hm
  · exact (hcross m hm l List.mem_cons_self).2 hp
  · rcases List.mem_cons.mp hm with rfl | hm
    · exact hp
    · exact absurd hle ((List.pairwise_cons.mp hpost).1 m hm).1.not_ge

theorem IsStack.eq_map_cut {s : List (α × Set P)} (hs : IsStack s) :
    s = (s.map Prod.fst).map fun a : α => (a, {p | (a : WithBot α) ≤ grade s p}) := by
  rw [List.map_map]
  refine (List.map_id s).symm.trans (List.map_congr_left fun l hl => ?_)
  exact Prod.ext rfl (hs.eq_cut hl)

/-- A strict stack is determined by its grades. -/
theorem IsStrictStack.eq_of_grade_eq {s s' : List (α × Set P)} (hs : IsStrictStack s)
    (hs' : IsStrictStack s') (h : ∀ p, grade s p = grade s' p) : s = s' := by
  -- the labels of a strict stack are the grades that occur
  have hlabels : ∀ {u v : List (α × Set P)}, IsStrictStack u → (∀ p, grade u p = grade v p) →
      ∀ a ∈ u.map Prod.fst, a ∈ v.map Prod.fst := by
    intro u v hu huv a ha
    obtain ⟨l, hl, rfl⟩ := List.mem_map.mp ha
    obtain ⟨p, hp⟩ := hu.exists_grade_eq hl
    obtain ⟨m, hm, hlabel, -⟩ := (grade_eq_coe_iff.mp ((huv p).symm.trans hp)).1
    exact hlabel ▸ List.mem_map_of_mem hm
  have hsorted : ∀ {u : List (α × Set P)}, IsStrictStack u →
      (u.map Prod.fst).Pairwise fun a b => b < a := fun hu =>
    List.pairwise_map.mpr hu.isStack.descending
  -- sorted lists with the same members are equal
  have hfst : s.map Prod.fst = s'.map Prod.fst :=
    (hsorted hs).eq_of_mem_iff (hsorted hs') fun a =>
      ⟨hlabels hs h a, hlabels hs' (fun p => (h p).symm) a⟩
  -- and each set is the cut at its label
  rw [hs.isStack.eq_map_cut, hs'.isStack.eq_map_cut, hfst]
  exact List.map_congr_left fun a _ => by simp only [h]

end LevelStack
