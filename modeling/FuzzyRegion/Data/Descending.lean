import FuzzyRegion.Data.Fallible
import Mathlib.Data.List.Sort
import Mathlib.Order.Defs.LinearOrder

/-!
# Descending lists

Lists sorted by descending keys. Sorting determines a list when its keys are distinct. A repeated
key shows up between neighbours, and the first repetition that a scan of the neighbours meets is the
greatest repeated key.

## Main results

* `isChain_iff_pairwise`: keys that descend between neighbours descend
* `eq_of_perm`: what sorting determines
* `le_of_find?`: the first element with a property has the greatest key
* `count_of_find?_windows`: the first repetition is the greatest repeated key
-/

namespace Descending

open Fallible

/-- Keys that descend between neighbours descend throughout. -/
theorem isChain_iff_pairwise {α β : Type*} [Preorder α] {key : β → α} {l : List β} :
    (l.IsChain fun a b => key b < key a) ↔ l.Pairwise fun a b => key b < key a := by
  have htrans : IsTrans β fun a b => key b < key a := ⟨fun _ _ _ h h' => h'.trans h⟩
  exact List.isChain_iff_pairwise

variable {α β : Type} [LinearOrder α]

/-- Sorted lists with the same elements are equal when their keys are distinct. -/
theorem eq_of_perm {key : β → α} {l l' : List β} (hl : l.Pairwise fun a b => key b ≤ key a)
    (hl' : l'.Pairwise fun a b => key b ≤ key a) (hperm : l.Perm l') (hkeys : (l.map key).Nodup) :
    l = l' := by
  refine hperm.eq_of_pairwise (fun a b ha hb h h' => ?_) hl hl'
  exact List.inj_on_of_nodup_map hkeys ha (hperm.mem_iff.mpr hb) (le_antisymm h' h)

/-- The first element with a property has the greatest key of all that have it. -/
theorem le_of_find? {key : β → α} {l : List β} (hl : l.Pairwise fun a b => key b ≤ key a)
    {q : β → Bool} {a b : β} (ha : l.find? q = some a) (hb : b ∈ l) (hqb : q b = true) :
    key b ≤ key a := by
  obtain ⟨-, pre, post, rfl, hpre⟩ := List.find?_eq_some_iff_append.mp ha
  rcases List.mem_append.mp hb with hb | hb
  · exact absurd hqb (by simpa using hpre b hb)
  · rcases List.mem_cons.mp hb with rfl | hb
    · exact le_rfl
    · exact (List.pairwise_cons.mp (List.pairwise_append.mp hl).2.1).1 b hb

/-- In a list with strictly descending keys, a relation that each element has to the later ones is
one to the elements of lower keys. -/
theorem rel_of_key_lt {key : β → α} {R : β → β → Prop} {l : List β}
    (h : l.Pairwise fun a b => key b < key a ∧ R a b) {a b : β} (ha : a ∈ l) (hb : b ∈ l)
    (hlt : key b < key a) : R a b := by
  obtain ⟨pre, post, rfl⟩ := List.append_of_mem ha
  obtain ⟨-, hpost, hcross⟩ := List.pairwise_append.mp h
  rcases List.mem_append.mp hb with hb | hb
  · exact absurd (hcross b hb a List.mem_cons_self).1 hlt.not_gt
  · rcases List.mem_cons.mp hb with rfl | hb
    · exact absurd hlt (lt_irrefl _)
    · exact ((List.pairwise_cons.mp hpost).1 b hb).2

/-! ## Repeated keys -/

theorem windows_map {γ : Type} (f : β → γ) (l : List β) :
    windows (l.map f) = (windows l).map (Prod.map f f) := by
  rw [windows, windows, ← List.map_tail, List.zip_map]

/-- The head of a descending list occurs again only next to itself. -/
theorem notMem_of_ne_head {a b : α} {l : List α} (hl : (a :: b :: l).Pairwise fun x y => y ≤ x)
    (hne : a ≠ b) : a ∉ b :: l := by
  intro ha
  obtain ⟨hle, htail⟩ := List.pairwise_cons.mp hl
  have hlt : b < a := (hle b List.mem_cons_self).lt_of_ne hne.symm
  rcases List.mem_cons.mp ha with rfl | ha
  · exact hne rfl
  · exact ((List.pairwise_cons.mp htail).1 a ha).not_gt hlt

/-- The first repetition among the neighbours is the greatest repeated key. -/
theorem count_of_find?_windows {l : List α} (hl : l.Pairwise fun a b => b ≤ a) {p : α × α}
    (h : (windows l).find? (fun p => decide (p.1 = p.2)) = some p) :
    2 ≤ l.count p.1 ∧ ∀ a, 2 ≤ l.count a → a ≤ p.1 := by
  induction l with
  | nil => simp at h
  | cons a l ih =>
    cases l with
    | nil => simp at h
    | cons b l =>
      obtain ⟨hle, htail⟩ := List.pairwise_cons.mp hl
      rw [windows_cons_cons, List.find?_cons] at h
      by_cases hab : a = b
      · -- the first two elements are equal, and the greatest
        subst hab
        simp only [decide_true, Option.some.injEq] at h
        subst h
        refine ⟨by simp, fun x hx => ?_⟩
        rcases List.mem_cons.mp (List.count_pos_iff.mp (Nat.lt_of_lt_of_le Nat.two_pos hx)) with
          rfl | hmem
        · exact le_rfl
        · exact hle x hmem
      · -- the head is not repeated, so the count is that of the tail
        simp only [hab, decide_false] at h
        obtain ⟨htwice, hgreatest⟩ := ih htail h
        have hnot := notMem_of_ne_head hl hab
        refine ⟨htwice.trans (List.count_le_count_cons), fun x hx => ?_⟩
        by_cases hxa : a = x
        · subst hxa
          rw [List.count_cons_self, List.count_eq_zero_of_not_mem hnot] at hx
          omega
        · rw [List.count_cons_of_ne hxa] at hx
          exact hgreatest x hx

end Descending
