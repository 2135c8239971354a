import Mathlib.Data.List.Basic
import Mathlib.Data.List.Chain
import Mathlib.Data.List.Forall2

/-!
# Fallible traversals

Loops over a list whose body may fail, in the exception monad. A traversal succeeds exactly when
every step does, so its success is a statement about the list: pointwise for a map, membership for
a check, adjacency for a check of neighbours.

## Main results

* `bind_eq_ok_iff`, `mapError_eq_ok_iff`: success of a sequence and of a relabelled call
* `mapM_eq_ok_iff`, `forM_eq_ok_iff`, `forM_windows_eq_ok_iff`: success of a traversal
* `mapM_eq_error_iff`: where a traversal fails
* `forM_eq_find?`, `mapM_eq_find?`: a traversal stops at the first element it refuses
* `foldlM_push`: a loop that pushes at most one element a step is a filtered map
-/

namespace Fallible

variable {α β γ ε ε' : Type}

@[simp] theorem bind_eq_ok_iff {x : Except ε α} {f : α → Except ε β} {b : β} :
    x >>= f = .ok b ↔ ∃ a, x = .ok a ∧ f a = .ok b := by
  cases x <;> simp [bind, Except.bind]

theorem bind_eq_error_iff {x : Except ε α} {f : α → Except ε β} {error : ε} :
    x >>= f = .error error ↔ x = .error error ∨ ∃ a, x = .ok a ∧ f a = .error error := by
  cases x <;> simp [bind, Except.bind]

/-- A check before a call succeeds when both do. -/
theorem check_bind_eq_ok_iff {x : Except ε Unit} {f : Unit → Except ε β} {b : β} :
    x >>= f = .ok b ↔ x = .ok () ∧ f () = .ok b :=
  bind_eq_ok_iff.trans ⟨fun ⟨(), h⟩ => h, fun h => ⟨(), h⟩⟩

@[simp] theorem map_eq_ok_iff {x : Except ε α} {f : α → β} {b : β} :
    f <$> x = .ok b ↔ ∃ a, x = .ok a ∧ f a = b := by
  cases x <;> simp [Functor.map, Except.map]

theorem map_eq_error_iff {x : Except ε α} {f : α → β} {error : ε} :
    f <$> x = .error error ↔ x = .error error := by
  cases x <;> simp [Functor.map, Except.map]

@[simp] theorem pure_eq_ok_iff {a b : α} : (pure a : Except ε α) = .ok b ↔ a = b := by
  simp [pure, Except.pure]

@[simp] theorem mapError_eq_ok_iff {x : Except ε α} {f : ε → ε'} {a : α} :
    x.mapError f = .ok a ↔ x = .ok a := by
  cases x <;> simp [Except.mapError]

theorem mapError_eq_error_iff {x : Except ε α} {f : ε → ε'} {error : ε'} :
    x.mapError f = .error error ↔ ∃ e, x = .error e ∧ f e = error := by
  cases x <;> simp [Except.mapError]

@[simp] theorem mapError_ok (f : ε → ε') (a : α) : (Except.ok a).mapError f = .ok a := rfl

@[simp] theorem ok_bind (a : α) (f : α → Except ε β) : (Except.ok a >>= f) = f a := rfl

/-- A traversal succeeds exactly with the results of its steps. -/
theorem mapM_eq_ok_iff {f : α → Except ε β} {l : List α} {r : List β} :
    l.mapM f = .ok r ↔ List.Forall₂ (fun a b => f a = .ok b) l r := by
  induction l generalizing r with
  | nil => cases r <;> simp
  | cons a l ih =>
    rw [List.mapM_cons]
    cases r with
    | nil => simp
    | cons b r => simp [ih]

/-- Every element of the right list of a pointwise relation has a partner. -/
theorem exists_of_forall₂ {R : α → β → Prop} {l : List α} {r : List β} (h : List.Forall₂ R l r)
    {b : β} (hb : b ∈ r) : ∃ a ∈ l, R a b := by
  induction h with
  | nil => cases hb
  | cons hR _ ih =>
    rcases List.mem_cons.mp hb with rfl | hb
    · exact ⟨_, List.mem_cons_self, hR⟩
    · obtain ⟨a, ha, hab⟩ := ih hb
      exact ⟨a, List.mem_cons_of_mem _ ha, hab⟩

/-- A traversal fails with the error of one of its steps. -/
theorem exists_of_mapM_eq_error {f : α → Except ε β} {l : List α} {error : ε}
    (h : l.mapM f = .error error) : ∃ a ∈ l, f a = .error error := by
  induction l with
  | nil => cases h
  | cons a l ih =>
    rw [List.mapM_cons, bind_eq_error_iff] at h
    rcases h with ha | ⟨b, -, h⟩
    · exact ⟨a, List.mem_cons_self, ha⟩
    · rcases bind_eq_error_iff.mp h with hl | ⟨r, -, h⟩
      · obtain ⟨a', ha', hfa'⟩ := ih hl
        exact ⟨a', List.mem_cons_of_mem a ha', hfa'⟩
      · cases h

/-- A traversal fails at the first element whose step fails. -/
theorem mapM_eq_error_iff {f : α → Except ε β} {l : List α} {error : ε} :
    l.mapM f = .error error ↔
      ∃ pre a post r, l = pre ++ a :: post ∧ pre.mapM f = .ok r ∧ f a = .error error := by
  induction l with
  | nil =>
    constructor
    · intro h
      cases h
    · rintro ⟨pre, a, post, r, hl, -⟩
      exact absurd hl (by simp)
  | cons a l ih =>
    rw [List.mapM_cons, bind_eq_error_iff]
    constructor
    · rintro (ha | ⟨b, hb, h⟩)
      · exact ⟨[], a, l, [], rfl, rfl, ha⟩
      · rcases bind_eq_error_iff.mp h with hl | ⟨r, -, h⟩
        · obtain ⟨pre, a', post, r, rfl, hpre, ha'⟩ := ih.mp hl
          refine ⟨a :: pre, a', post, b :: r, rfl, ?_, ha'⟩
          rw [List.mapM_cons, hb, ok_bind, hpre]
          rfl
        · cases h
    · rintro ⟨pre, a', post, r, hl, hpre, ha'⟩
      cases pre with
      | nil =>
        obtain ⟨rfl, rfl⟩ := List.cons.inj hl
        exact Or.inl ha'
      | cons x pre =>
        obtain ⟨rfl, rfl⟩ := List.cons.inj hl
        rw [List.mapM_cons] at hpre
        obtain ⟨b, hb, hpre⟩ := bind_eq_ok_iff.mp hpre
        obtain ⟨r, hr, -⟩ := bind_eq_ok_iff.mp hpre
        exact Or.inr ⟨b, hb, bind_eq_error_iff.mpr (Or.inl (ih.mpr ⟨pre, a', post, r, rfl, hr, ha'⟩))⟩

/-- Lists that agree element by element under two functions have the same images. -/
theorem map_eq_map_of_forall₂ {γ : Type} {f : α → γ} {g : β → γ} {l : List α} {r : List β}
    (h : List.Forall₂ (fun a b => f a = g b) l r) : l.map f = r.map g := by
  rw [← List.forall₂_eq_eq_eq, List.forall₂_map_left_iff, List.forall₂_map_right_iff]
  exact h

theorem exists_forall₂ {R : α → β → Prop} {l : List α} (h : ∀ a ∈ l, ∃ b, R a b) :
    ∃ r, List.Forall₂ R l r := by
  induction l with
  | nil => exact ⟨[], .nil⟩
  | cons a l ih =>
    obtain ⟨b, hb⟩ := h a List.mem_cons_self
    obtain ⟨r, hr⟩ := ih fun a' ha' => h a' (List.mem_cons_of_mem a ha')
    exact ⟨b :: r, .cons hb hr⟩

/-- A check of every element succeeds exactly when it does at every element. -/
theorem forM_eq_ok_iff {f : α → Except ε Unit} {l : List α} :
    forM l f = .ok () ↔ ∀ a ∈ l, f a = .ok () := by
  induction l with
  | nil => simp
  | cons a l ih => rw [List.forM_cons, check_bind_eq_ok_iff, ih, List.forall_mem_cons]

/-- A check of every element fails with the error of one of them. -/
theorem exists_of_forM_eq_error {f : α → Except ε Unit} {l : List α} {error : ε}
    (h : forM l f = .error error) : ∃ a ∈ l, f a = .error error := by
  induction l with
  | nil => cases h
  | cons a l ih =>
    rw [List.forM_cons, bind_eq_error_iff] at h
    rcases h with ha | ⟨-, -, h⟩
    · exact ⟨a, List.mem_cons_self, ha⟩
    · obtain ⟨b, hb, hfb⟩ := ih h
      exact ⟨b, List.mem_cons_of_mem a hb, hfb⟩

/-- A check of every element stops at the first one it refuses. -/
theorem forM_eq_find? {f : α → Except ε Unit} {refused : α → Bool} {error : α → ε}
    (h : ∀ a, f a = if refused a then .error (error a) else .ok ()) (l : List α) :
    forM l f = (l.find? refused).elim (.ok ()) fun a => .error (error a) := by
  induction l with
  | nil => rfl
  | cons a l ih =>
    rw [List.forM_cons, h a, ih, List.find?_cons]
    cases refused a <;> rfl

/-- A traversal stops at the first element it refuses. -/
theorem mapM_eq_find? {f : α → Except ε β} {refused : α → Bool} {error : α → ε} {g : α → β}
    (h : ∀ a, f a = if refused a then .error (error a) else .ok (g a)) (l : List α) :
    l.mapM f = (l.find? refused).elim (.ok (l.map g)) fun a => .error (error a) := by
  induction l with
  | nil => rfl
  | cons a l ih =>
    rw [List.mapM_cons, h a, ih, List.find?_cons]
    cases refused a
    · cases l.find? refused <;> rfl
    · rfl

/-- The pairs of neighbours of a list. -/
def windows (l : List α) : List (α × α) := l.zip l.tail

@[simp] theorem windows_nil : windows ([] : List α) = [] := rfl

@[simp] theorem windows_singleton (a : α) : windows [a] = [] := rfl

@[simp] theorem windows_cons_cons (a b : α) (l : List α) :
    windows (a :: b :: l) = (a, b) :: windows (b :: l) := rfl

theorem mem_of_mem_windows {l : List α} {pair : α × α} (h : pair ∈ windows l) :
    pair.1 ∈ l ∧ pair.2 ∈ l := by
  obtain ⟨hleft, hright⟩ := List.of_mem_zip h
  exact ⟨hleft, List.mem_of_mem_tail hright⟩

/-- Neighbours in a chain are related. -/
theorem rel_of_mem_windows {R : α → α → Prop} {l : List α} (h : l.IsChain R) {pair : α × α}
    (hpair : pair ∈ windows l) : R pair.1 pair.2 := by
  induction l with
  | nil => cases hpair
  | cons a l ih =>
    cases l with
    | nil => cases hpair
    | cons b l =>
      obtain ⟨hab, hrest⟩ := List.isChain_cons_cons.mp h
      rcases List.mem_cons.mp hpair with rfl | hpair
      · exact hab
      · exact ih hrest hpair

/-- A check of all neighbours succeeds exactly when the list is a chain. -/
theorem forM_windows_eq_ok_iff {f : α × α → Except ε Unit} {l : List α} :
    forM (windows l) f = .ok () ↔ l.IsChain fun a b => f (a, b) = .ok () := by
  induction l with
  | nil => simp
  | cons a l ih =>
    cases l with
    | nil => simp
    | cons b l =>
      rw [windows_cons_cons, List.forM_cons, check_bind_eq_ok_iff, ih, List.isChain_cons_cons]

/-- Loops whose steps agree on the elements of the list agree. -/
theorem foldlM_congr {f g : β → α → Except ε β} {l : List α} (h : ∀ a ∈ l, ∀ b, f b a = g b a)
    (b : β) : l.foldlM f b = l.foldlM g b := by
  induction l generalizing b with
  | nil => rfl
  | cons a l ih =>
    rw [List.foldlM_cons, List.foldlM_cons, h a List.mem_cons_self]
    exact bind_congr fun b' => ih (fun c hc => h c (List.mem_cons_of_mem a hc)) b'

/-- A fold over images is the image of the fold when every step is. -/
theorem foldlM_map {α' β' : Type} {f : β → α → Except ε β} {g : β' → α' → Except ε β'}
    {onElem : α → α'} {onAcc : β → β'}
    (h : ∀ b a, g (onAcc b) (onElem a) = onAcc <$> f b a) (l : List α) (b : β) :
    (l.map onElem).foldlM g (onAcc b) = onAcc <$> l.foldlM f b := by
  induction l generalizing b with
  | nil => rfl
  | cons a l ih =>
    rw [List.map_cons, List.foldlM_cons, List.foldlM_cons, h]
    cases f b a with
    | error e => rfl
    | ok b' => exact ih b'

/-- A loop that pushes at most one element a step collects a filtered map. -/
theorem foldlM_push {f : List β → α → Except ε (List β)} {g : α → Option β} {l : List α}
    (h : ∀ a ∈ l, ∀ acc, f acc a = .ok (acc ++ (g a).toList)) (acc : List β) :
    l.foldlM f acc = .ok (acc ++ l.filterMap g) := by
  induction l generalizing acc with
  | nil => simp [pure, Except.pure]
  | cons a l ih =>
    rw [List.foldlM_cons, h a List.mem_cons_self, ok_bind,
      ih fun b hb => h b (List.mem_cons_of_mem a hb)]
    cases hg : g a <;> simp [hg]

end Fallible
