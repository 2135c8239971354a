import FuzzyRegion.Data.Fallible

/-!
# Reading through a cursor

A decoder moves a cursor through a list and may fail. It is described by the chunks it accepts: a
relation between results and the elements consumed for them. Success is then a fact about the
unread input alone, in both directions, and the description of a decoder is put together from those
of its parts.

## Main definitions

* `Cursor`: a list and the offset of the next unread element
* `Decoder`: a computation that moves a cursor and may fail
* `ofCall`: the step of a decoder that a call makes, for calls that leave a cursor behind
* `Reads input d R`: on this input, `d` succeeds exactly by consuming a chunk that `R` allows
* `repeatRead n d`: the loop that runs a decoder `n` times
* `RunsOut input truncated d chunk`: on this input, `d` reports the end of the input when less than
  the chunk is left

## Main results

* `Reads.bind`, `Reads.map`, `Reads.ite`, `Reads.lift`: descriptions compose
* `Reads.repeatRead`: a loop consumes one chunk for each result
* `Reads.run_eq_ok_iff`: a decoder that consumes the whole input
* `RunsOut.bind`, `RunsOut.repeatRead`: a sequence and a loop report the end where one of their parts
  does
-/

variable {α β γ ε : Type}

/-- A list, and the offset of the next unread element. -/
structure Cursor (γ : Type) where
  bytes : List γ
  offset : Nat
deriving DecidableEq

namespace Cursor

open Fallible

/-- A computation that moves a cursor and may fail. -/
abbrev Decoder (γ ε α : Type) := StateT (Cursor γ) (Except ε) α

/-- The unread elements. -/
def rest (c : Cursor γ) : List γ := c.bytes.drop c.offset

def advance (c : Cursor γ) (n : Nat) : Cursor γ := ⟨c.bytes, c.offset + n⟩

@[simp] theorem advance_zero (c : Cursor γ) : c.advance 0 = c := rfl

@[simp] theorem advance_advance (c : Cursor γ) (m n : Nat) :
    (c.advance m).advance n = c.advance (m + n) := by
  rw [advance, advance, advance, Nat.add_assoc]

theorem rest_advance (c : Cursor γ) (n : Nat) : (c.advance n).rest = c.rest.drop n := by
  rw [rest, rest, advance, List.drop_drop]

/-- The offset does not exceed the input. -/
def InBounds (c : Cursor γ) : Prop := c.offset ≤ c.bytes.length

/-- A call that returns a result and leaves a cursor behind, as a step of a decoder: the cursor that a
failed call leaves is dropped. -/
def ofCall (call : Cursor γ → Except ε α × Cursor γ) : Decoder γ ε α := fun c =>
  match call c with
  | (.ok a, c') => .ok (a, c')
  | (.error e, _) => .error e

theorem run_ofCall_ok {call : Cursor γ → Except ε α × Cursor γ} {c c' : Cursor γ} {a : α}
    (h : call c = (.ok a, c')) : (ofCall call).run c = .ok (a, c') := by
  simp only [StateT.run, ofCall, h]

theorem run_ofCall_error {call : Cursor γ → Except ε α × Cursor γ} {c c' : Cursor γ} {e : ε}
    (h : call c = (.error e, c')) : (ofCall call).run c = .error e := by
  simp only [StateT.run, ofCall, h]

theorem InBounds.advance {c : Cursor γ} (hc : c.InBounds) {chunk : List γ}
    (h : chunk <+: c.rest) : (c.advance chunk.length).InBounds := by
  have hlen := h.length_le
  rw [rest, List.length_drop] at hlen
  rw [InBounds] at hc ⊢
  change c.offset + chunk.length ≤ c.bytes.length
  omega

/-- Two chunks in a row are one chunk. -/
theorem append_prefix_rest_iff {c : Cursor γ} {chunk chunk' : List γ} :
    chunk ++ chunk' <+: c.rest ↔ chunk <+: c.rest ∧ chunk' <+: (c.advance chunk.length).rest := by
  rw [rest_advance]
  constructor
  · rintro ⟨suffix, h⟩
    rw [← h, List.append_assoc, List.drop_left]
    exact ⟨List.prefix_append _ _, List.prefix_append _ _⟩
  · rintro ⟨⟨suffix, h⟩, hnext⟩
    rw [← h, List.drop_left] at hnext
    obtain ⟨suffix', rfl⟩ := hnext
    exact ⟨suffix', by rw [← h, List.append_assoc]⟩

/-- On this input, the decoder succeeds exactly by consuming a chunk that the relation allows for
its result. -/
def Reads (input : List γ) (d : Decoder γ ε α) (R : α → List γ → Prop) : Prop :=
  ∀ c : Cursor γ, c.bytes = input → c.InBounds → ∀ a c',
    d.run c = .ok (a, c') ↔ ∃ chunk, R a chunk ∧ chunk <+: c.rest ∧ c' = c.advance chunk.length

variable {input : List γ} {d : Decoder γ ε α} {R : α → List γ → Prop}

theorem Reads.congr {R' : α → List γ → Prop} (h : Reads input d R)
    (hR : ∀ a chunk, R a chunk ↔ R' a chunk) : Reads input d R' := by
  intro c hc hin a c'
  simp only [h c hc hin a c', hR]

protected theorem Reads.pure (a : α) :
    Reads input (pure a : Decoder γ ε α) fun b chunk => b = a ∧ chunk = [] := by
  intro c _ _ b c'
  simp only [StateT.run_pure, pure_eq_ok_iff, Prod.mk.injEq]
  constructor
  · rintro ⟨rfl, rfl⟩
    exact ⟨[], ⟨rfl, rfl⟩, List.nil_prefix, rfl⟩
  · rintro ⟨chunk, ⟨rfl, rfl⟩, -, rfl⟩
    exact ⟨rfl, rfl⟩

protected theorem Reads.throw (e : ε) :
    Reads input (throw e : Decoder γ ε α) fun _ _ => False := by
  intro c _ _ b c'
  have hrun : (throw e : Decoder γ ε α).run c = .error e := rfl
  simp [hrun]

/-- A call without a cursor consumes nothing. -/
theorem Reads.lift (x : Except ε α) :
    Reads input (liftM x : Decoder γ ε α) fun a chunk => x = .ok a ∧ chunk = [] := by
  intro c _ _ b c'
  cases x with
  | error e =>
    have hrun : (liftM (Except.error e : Except ε α) : Decoder γ ε α).run c = .error e := rfl
    simp [hrun]
  | ok a =>
    have hrun : (liftM (Except.ok a : Except ε α) : Decoder γ ε α).run c = .ok (a, c) := rfl
    rw [hrun]
    constructor
    · intro h
      obtain ⟨rfl, rfl⟩ := Prod.mk.inj (Except.ok.inj h)
      exact ⟨[], ⟨rfl, rfl⟩, List.nil_prefix, rfl⟩
    · rintro ⟨chunk, ⟨h, rfl⟩, -, rfl⟩
      rw [Except.ok.inj h, List.length_nil, advance_zero]

/-- In a sequence the chunks follow each other, and the later call may rely on the earlier one. -/
protected theorem Reads.bind {f : α → Decoder γ ε β} {S : α → β → List γ → Prop}
    (hd : Reads input d R) (hf : ∀ a {chunk}, R a chunk → Reads input (f a) (S a)) :
    Reads input (d >>= f) fun b chunk =>
      ∃ a first last, R a first ∧ S a b last ∧ chunk = first ++ last := by
  intro c hc hin b c'
  rw [StateT.run_bind, bind_eq_ok_iff]
  constructor
  · -- the second decoder starts where the first chunk ends
    rintro ⟨⟨a, c₁⟩, hfirst, hlast⟩
    obtain ⟨first, hR, hpre, rfl⟩ := (hd c hc hin a c₁).mp hfirst
    obtain ⟨last, hS, hpre', rfl⟩ :=
      (hf a hR (c.advance first.length) hc (hin.advance hpre) b c').mp hlast
    refine ⟨first ++ last, ⟨a, first, last, hR, hS, rfl⟩,
      append_prefix_rest_iff.mpr ⟨hpre, hpre'⟩, ?_⟩
    rw [advance_advance, List.length_append]
  · rintro ⟨-, ⟨a, first, last, hR, hS, rfl⟩, hpre, rfl⟩
    obtain ⟨hfirst, hlast⟩ := append_prefix_rest_iff.mp hpre
    refine ⟨(a, c.advance first.length), (hd c hc hin _ _).mpr ⟨first, hR, hfirst, rfl⟩, ?_⟩
    refine (hf a hR (c.advance first.length) hc (hin.advance hfirst) b _).mpr ⟨last, hS, hlast, ?_⟩
    rw [advance_advance, List.length_append]

protected theorem Reads.map {f : α → β} (hd : Reads input d R) :
    Reads input (f <$> d) fun b chunk => ∃ a, R a chunk ∧ b = f a := by
  rw [← bind_pure_comp]
  apply (hd.bind fun a _ _ => Reads.pure (f a)).congr
  intro b chunk
  constructor
  · rintro ⟨a, first, last, hR, ⟨rfl, rfl⟩, rfl⟩
    exact ⟨a, by rwa [List.append_nil], rfl⟩
  · rintro ⟨a, hR, rfl⟩
    exact ⟨a, chunk, [], hR, ⟨rfl, rfl⟩, (List.append_nil chunk).symm⟩

theorem Reads.ite {p : Prop} [Decidable p] {d' : Decoder γ ε α} {R' : α → List γ → Prop}
    (hd : Reads input d R) (hd' : Reads input d' R') :
    Reads input (if p then d else d') fun a chunk => if p then R a chunk else R' a chunk := by
  by_cases hp : p
  · simpa only [if_pos hp] using hd
  · simpa only [if_neg hp] using hd'

/-- Run a decoder a number of times and collect the results. -/
def repeatRead (d : Decoder γ ε α) : Nat → Decoder γ ε (List α)
  | 0 => pure []
  | n + 1 => do
    let a ← d
    let l ← repeatRead d n
    return a :: l

/-- A loop consumes one chunk for each of its results. -/
protected theorem Reads.repeatRead {encode : α → List γ}
    (hd : Reads input d fun a chunk => chunk = encode a) (n : Nat) :
    Reads input (repeatRead d n) fun l chunk => l.length = n ∧ chunk = l.flatMap encode := by
  induction n with
  | zero =>
    apply (Reads.pure []).congr
    intro l chunk
    constructor
    · rintro ⟨rfl, rfl⟩
      exact ⟨rfl, rfl⟩
    · rintro ⟨hlen, rfl⟩
      obtain rfl := List.eq_nil_of_length_eq_zero hlen
      exact ⟨rfl, rfl⟩
  | succ n ih =>
    -- one turn, then the remaining turns, then the result is put together
    apply (hd.bind fun a _ _ => ih.bind fun l _ _ => Reads.pure (a :: l)).congr
    intro l chunk
    constructor
    · rintro ⟨a, first, last, rfl, ⟨l', middle, -, ⟨hlen, rfl⟩, ⟨rfl, rfl⟩, rfl⟩, rfl⟩
      exact ⟨congrArg Nat.succ hlen, by rw [List.append_nil, List.flatMap_cons]⟩
    · rintro ⟨hlen, rfl⟩
      cases l with
      | nil => cases hlen
      | cons a l =>
        refine ⟨a, _, _, rfl, ⟨l, _, [], ⟨Nat.succ.inj hlen, rfl⟩, ⟨rfl, rfl⟩, rfl⟩, ?_⟩
        rw [List.append_nil, List.flatMap_cons]

/-- A decoder that starts at the beginning and ends at the end has consumed its whole input. -/
theorem Reads.run_eq_ok_iff (hd : Reads input d R) {a : α} :
    d.run ⟨input, 0⟩ = .ok (a, ⟨input, input.length⟩) ↔ R a input := by
  rw [hd ⟨input, 0⟩ rfl (Nat.zero_le _)]
  constructor
  · rintro ⟨chunk, hR, hpre, hend⟩
    -- a prefix as long as the input is the input
    have hlen : input.length = 0 + chunk.length := congrArg Cursor.offset hend
    rw [Nat.zero_add] at hlen
    have hall : chunk <+: input := hpre
    rwa [← hall.eq_of_length hlen.symm]
  · intro hR
    refine ⟨input, hR, List.prefix_rfl, ?_⟩
    rw [advance, Nat.zero_add]

/-- A decoder that finds a chunk of one of its results consumes it. -/
theorem Reads.run_of_begins (hd : Reads input d R) {c : Cursor γ} (hc : c.bytes = input)
    (hin : c.InBounds) {a : α} {chunk : List γ} (hR : R a chunk) (hpre : chunk <+: c.rest) :
    d.run c = .ok (a, c.advance chunk.length) :=
  (hd c hc hin a _).mpr ⟨chunk, hR, hpre, rfl⟩

/-! ## The end of the input -/

/-- On this input, a decoder that is left with less than the chunk reports where it stood, more than
what was left there, and what was left. -/
def RunsOut (input : List γ) (truncated : Nat → Nat → Nat → ε) (d : Decoder γ ε α)
    (chunk : List γ) : Prop :=
  ∀ c : Cursor γ, c.bytes = input → c.InBounds → c.rest <+: chunk → c.rest ≠ chunk →
    ∃ offset needed, offset ≤ input.length ∧ input.length - offset < needed ∧
      d.run c = .error (truncated offset needed (input.length - offset))

variable {truncated : Nat → Nat → Nat → ε} {chunk first last : List γ}

/-- There is always enough left for nothing. -/
theorem RunsOut.nil (d : Decoder γ ε α) : RunsOut input truncated d [] := fun _ _ _ hpre hne =>
  absurd (List.prefix_nil.mp hpre) hne

/-- A sequence runs out in its first call, or in the later one after the first chunk. -/
protected theorem RunsOut.bind {f : α → Decoder γ ε β} {a : α} (hd : Reads input d R)
    (hR : R a first) (hfirst : RunsOut input truncated d first)
    (hlast : RunsOut input truncated (f a) last) :
    RunsOut input truncated (d >>= f) (first ++ last) := by
  intro c hc hin hpre hne
  rw [StateT.run_bind]
  by_cases hsplit : first <+: c.rest
  · rw [hd.run_of_begins hc hin hR hsplit, ok_bind]
    -- the later call is left with less than the last chunk
    obtain ⟨left, hleft⟩ := hsplit
    have hrest : (c.advance first.length).rest = left := by
      rw [rest_advance, ← hleft, List.drop_left]
    have hin' := hin.advance ⟨left, hleft⟩
    rw [← hleft] at hpre hne
    apply hlast (c.advance first.length) hc hin'
    · rw [hrest]
      exact (List.prefix_append_right_inj first).mp hpre
    · rw [hrest]
      exact fun heq => hne (congrArg (first ++ ·) heq)
  · have hcut : c.rest <+: first :=
      (List.prefix_or_prefix_of_prefix hpre (List.prefix_append first last)).resolve_right hsplit
    obtain ⟨offset, needed, hoffset, hneeded, hrun⟩ := hfirst c hc hin hcut fun heq =>
      hsplit (heq ▸ List.prefix_rfl)
    exact ⟨offset, needed, hoffset, hneeded, by rw [hrun]; rfl⟩

/-- A call after which nothing is read. -/
theorem RunsOut.bind_nil {f : α → Decoder γ ε β} {a : α} (hd : Reads input d R) (hR : R a chunk)
    (hout : RunsOut input truncated d chunk) : RunsOut input truncated (d >>= f) chunk := by
  rw [← List.append_nil chunk]
  exact .bind hd hR hout (.nil _)

protected theorem RunsOut.map {f : α → β} (hd : RunsOut input truncated d chunk) :
    RunsOut input truncated (f <$> d) chunk := by
  intro c hc hin hpre hne
  obtain ⟨offset, needed, hoffset, hneeded, hrun⟩ := hd c hc hin hpre hne
  exact ⟨offset, needed, hoffset, hneeded, by rw [StateT.run_map, hrun]; rfl⟩

/-- A loop runs out in one of its turns. -/
protected theorem RunsOut.repeatRead {encode : α → List γ}
    (hd : Reads input d fun a chunk => chunk = encode a)
    (hout : ∀ a, RunsOut input truncated d (encode a)) (l : List α) :
    RunsOut input truncated (Cursor.repeatRead d l.length) (l.flatMap encode) := by
  induction l with
  | nil => exact .nil _
  | cons a l ih =>
    rw [List.flatMap_cons]
    refine .bind hd rfl (hout a) ?_
    -- nothing is read once the remaining turns are done
    exact .bind_nil (Reads.repeatRead hd l.length) ⟨rfl, rfl⟩ ih

end Cursor
