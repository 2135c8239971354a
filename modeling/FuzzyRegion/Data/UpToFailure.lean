import FuzzyRegion.Data.Fallible

/-!
# Computations up to failures

A computation that calls an unreliable service ends as it would with a reliable one, or with a
failure of the service. The relation is kept by every way in which calls are put together: sequence,
relabelling of errors, and the three traversals. The same ways keep a bound on the errors that a
computation can end with.

## Main definitions

* `EndsAs failed x y`: `x` ends as `y` does, or fails in a given way
* `ErrorsIn allowed x`: every error of `x` is of a given kind

## Main results

* `EndsAs.bind`, `EndsAs.map`, `EndsAs.mapError`: sequences and relabelled calls
* `EndsAs.mapM`, `EndsAs.forM`, `EndsAs.foldlM`: traversals
* `EndsAs.eq_of_ok`, `EndsAs.ok_unique`: a run that returns has returned what it should
* `ErrorsIn.bind`, `ErrorsIn.mapError`, `ErrorsIn.foldlM`: the errors of composed computations
-/

namespace Fallible

variable {α β ε ε' : Type} {failed : ε → Prop}

/-- `x` ends as `y` does, unless it fails with an error of the given kind. -/
def EndsAs (failed : ε → Prop) (x y : Except ε α) : Prop :=
  (∃ error, failed error ∧ x = .error error) ∨ x = y

namespace EndsAs

theorem refl (x : Except ε α) : EndsAs failed x x := Or.inr rfl

theorem of_eq {x y : Except ε α} (h : x = y) : EndsAs failed x y := Or.inr h

theorem error {e : ε} (he : failed e) (y : Except ε α) : EndsAs failed (.error e) y :=
  Or.inl ⟨e, he, rfl⟩

theorem mono {failed' : ε → Prop} (hfailed : ∀ e, failed e → failed' e) {x y : Except ε α}
    (h : EndsAs failed x y) : EndsAs failed' x y :=
  h.imp_left fun ⟨e, he, hx⟩ => ⟨e, hfailed e he, hx⟩

/-- A run that returns has returned the right value. -/
theorem eq_of_ok {x y : Except ε α} (h : EndsAs failed x y) {a : α} (hx : x = .ok a) :
    y = .ok a := by
  rcases h with ⟨e, -, he⟩ | h
  · cases he.symm.trans hx
  · exact h.symm.trans hx

/-- Two runs of one computation that both return have returned the same. -/
theorem ok_unique {x x' y : Except ε α} (h : EndsAs failed x y) (h' : EndsAs failed x' y) {a a' : α}
    (hx : x = .ok a) (hx' : x' = .ok a') : a = a' :=
  Except.ok.inj ((h.eq_of_ok hx).symm.trans (h'.eq_of_ok hx'))

/-- A run that cannot fail ends as it should. -/
theorem eq_of_never {x y : Except ε α} (h : EndsAs failed x y) (hnever : ∀ e, ¬ failed e) :
    x = y := by
  rcases h with ⟨e, he, -⟩ | h
  · exact absurd he (hnever e)
  · exact h

/-- The second step only matters after what the first one should return. -/
theorem bind_of_ok {x y : Except ε α} {f g : α → Except ε β} (h : EndsAs failed x y)
    (hfg : ∀ a, y = .ok a → EndsAs failed (f a) (g a)) : EndsAs failed (x >>= f) (y >>= g) := by
  rcases h with ⟨e, he, rfl⟩ | rfl
  · exact .error he _
  · cases x with
    | error e => exact .refl _
    | ok a => exact hfg a rfl

theorem bind {x y : Except ε α} {f g : α → Except ε β} (h : EndsAs failed x y)
    (hfg : ∀ a, EndsAs failed (f a) (g a)) : EndsAs failed (x >>= f) (y >>= g) :=
  h.bind_of_ok fun a _ => hfg a

theorem map {x y : Except ε α} (h : EndsAs failed x y) (f : α → β) :
    EndsAs failed (f <$> x) (f <$> y) := by
  rcases h with ⟨e, he, rfl⟩ | rfl
  · exact .error he _
  · exact .refl _

theorem mapError {failed' : ε' → Prop} {f : ε → ε'} (hf : ∀ e, failed e → failed' (f e))
    {x y : Except ε α} (h : EndsAs failed x y) :
    EndsAs failed' (x.mapError f) (y.mapError f) := by
  rcases h with ⟨e, he, rfl⟩ | rfl
  · exact .error (hf e he) _
  · exact .refl _

theorem mapM {f g : α → Except ε β} (h : ∀ a, EndsAs failed (f a) (g a)) (l : List α) :
    EndsAs failed (l.mapM f) (l.mapM g) := by
  induction l with
  | nil => exact .refl _
  | cons a l ih =>
    rw [List.mapM_cons, List.mapM_cons]
    exact (h a).bind fun _ => ih.bind fun _ => .refl _

theorem forM {f g : α → Except ε Unit} (h : ∀ a, EndsAs failed (f a) (g a)) (l : List α) :
    EndsAs failed (forM l f) (forM l g) := by
  induction l with
  | nil => exact .refl _
  | cons a l ih =>
    rw [List.forM_cons, List.forM_cons]
    exact (h a).bind fun _ => ih

theorem foldlM {f g : β → α → Except ε β} (h : ∀ b a, EndsAs failed (f b a) (g b a)) (l : List α)
    (b : β) : EndsAs failed (l.foldlM f b) (l.foldlM g b) := by
  induction l generalizing b with
  | nil => exact .refl _
  | cons a l ih =>
    rw [List.foldlM_cons, List.foldlM_cons]
    exact (h b a).bind ih

end EndsAs

/-! ## The errors of a computation -/

/-- Every error of the computation is of the given kind. -/
def ErrorsIn (allowed : ε → Prop) (x : Except ε α) : Prop := ∀ error, x = .error error → allowed error

namespace ErrorsIn

variable {allowed : ε → Prop}

theorem ok (a : α) : ErrorsIn allowed (.ok a : Except ε α) := nofun

theorem error {e : ε} (h : allowed e) : ErrorsIn allowed (.error e : Except ε α) := by
  rintro _ ⟨⟩
  exact h

theorem mono {allowed' : ε → Prop} (hallowed : ∀ e, allowed e → allowed' e) {x : Except ε α}
    (h : ErrorsIn allowed x) : ErrorsIn allowed' x := fun e he => hallowed e (h e he)

/-- The second step only matters where the first one returns. -/
theorem bind {x : Except ε α} {f : α → Except ε β} (h : ErrorsIn allowed x)
    (hf : ∀ a, x = .ok a → ErrorsIn allowed (f a)) : ErrorsIn allowed (x >>= f) := by
  intro e he
  rcases bind_eq_error_iff.mp he with hx | ⟨a, ha, hfa⟩
  · exact h e hx
  · exact hf a ha e hfa

theorem map {x : Except ε α} (h : ErrorsIn allowed x) (f : α → β) : ErrorsIn allowed (f <$> x) :=
  fun e he => h e (map_eq_error_iff.mp he)

theorem mapError {allowed' : ε' → Prop} {f : ε → ε'} (hf : ∀ e, allowed e → allowed' (f e))
    {x : Except ε α} (h : ErrorsIn allowed x) : ErrorsIn allowed' (x.mapError f) := by
  intro e he
  obtain ⟨e, hx, rfl⟩ := mapError_eq_error_iff.mp he
  exact hf e (h e hx)

theorem foldlM {f : β → α → Except ε β} (h : ∀ b a, ErrorsIn allowed (f b a)) (l : List α) (b : β) :
    ErrorsIn allowed (l.foldlM f b) := by
  induction l generalizing b with
  | nil => exact ok b
  | cons a l ih =>
    rw [List.foldlM_cons]
    exact (h b a).bind fun b' _ => ih b'

end ErrorsIn

/-- A computation whose values are the right one and whose errors are failures. -/
theorem EndsAs.of_errorsIn {failed : ε → Prop} {x : Except ε α} {a : α} (h : ErrorsIn failed x)
    (hx : ∀ b, x = .ok b → b = a) : EndsAs failed x (.ok a) := by
  cases x with
  | error e => exact .error (h e rfl) _
  | ok b => exact .of_eq (congrArg Except.ok (hx b rfl))

end Fallible
