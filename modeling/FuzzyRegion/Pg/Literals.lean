import FuzzyRegion.Pg.Grammar
import FuzzyRegion.Pg.StatementMeaning

/-!
# Literals

Reading a literal parses it, canonicalizes the levels that it lists and stores the result. The texts
that are read are the literals of well-formed level lists, the value has the meaning of the list, and
an error tells whether the text is no literal or what is wrong with its levels.

## Main definitions

* `levelEntry`: what the literal lists of a level

## Main results

* `input_describes`: which texts are read, as what, and why not otherwise
-/

namespace FuzzyRegion

open Numeric Fallible LevelStack Fuzzyregion SqlFuzzyregion

variable {S : Type}

/-- The number and the bytes that stand for a level. -/
def levelEntry (l : Level F64 PostgisGeometry) : F64 × List UInt8 := (l.alpha.value, l.geometry.ewkb)

theorem map_levelEntry_region (stored : StoredFuzzyregion) :
    stored.region.levels.map levelEntry = stored.levels.map levelData := by
  rw [StoredFuzzyregion.region, List.map_map]
  rfl

theorem levelEntry_injective : Function.Injective levelEntry := by
  intro l l' h
  obtain ⟨halpha, hewkb⟩ := Prod.ext_iff.mp h
  obtain ⟨alpha, geometry⟩ := l
  obtain ⟨alpha', geometry'⟩ := l'
  obtain rfl : alpha = alpha' := Alpha.ext_value halpha
  obtain rfl : geometry = geometry' := PostgisGeometry.ext hewkb
  rfl

/-- The parser reads the levels of the payload from the text. -/
theorem literal_of_parseText {f64 : F64Text} {text : List Char} {parsed : SqlFuzzyregion}
    (h : parseText f64 text = .ok parsed) :
    Literal f64 text parsed.stored.srid (parsed.stored.region.levels.map levelEntry) := by
  rw [map_levelEntry_region]
  exact parseText_eq_ok_iff.mp h

/-- A literal that fits into memory is parsed. -/
theorem exists_parseText_of_literal {f64 : F64Text} {text : List Char} (hlen : text.length < 2 ^ 32)
    {srid : Option Int32} {levels : List (F64 × List UInt8)}
    (h : Literal f64 text srid levels) :
    ∃ parsed, parseText f64 text = .ok parsed ∧
      parsed.stored.region.levels.map levelEntry = levels := by
  -- what the literal denotes is shorter than the text, so it can be stored
  obtain ⟨hcount, hbytes⟩ := length_le_of_literal h
  obtain ⟨stored, rfl, rfl⟩ := exists_stored_of_literal h (hcount.trans_lt hlen)
    fun level hl => (hbytes level hl).trans_lt hlen
  exact ⟨⟨stored⟩, parseText_eq_ok_iff.mpr h, map_levelEntry_region stored⟩

section

variable {e : PointSetEngine PostgisGeometry PostgisPoint} {f64 : F64Text}

/-- An error of reading a payload names a defect of its levels. -/
theorem exists_refused_of_toDomain {v : SqlFuzzyregion} {error : PostgisError S}
    (h : v.toDomain f64 (e.engine (PostgisError S)) = .error error) :
    ∃ reason, Refused e.toCrispEngine v.stored.region.levels reason ∧
      error = domainError f64 reason := by
  obtain ⟨reason, hreason, rfl⟩ := mapError_eq_error_iff.mp h
  rw [decode_eq_canonicalize] at hreason
  exact ⟨reason, refused_of_fromLevels hreason, rfl⟩

/-- A text that is read is a literal of a well-formed level list, with its meaning. -/
theorem exists_literal_of_input {text : List Char} {v : SqlFuzzyregion}
    (h : input f64 (e.engine (PostgisError S)) text = .ok v) :
    ∃ srid raw, Literal f64 text srid (raw.map levelEntry) ∧ WellFormed e.toCrispEngine raw ∧
      v.meaning e = .ofStack (e.stack raw) := by
  simp only [input, bind_eq_ok_iff, mapError_eq_ok_iff] at h
  obtain ⟨parsed, hparsed, d, hd, hv⟩ := h
  rw [toDomain_eq_ok_iff, decode_eq_canonicalize] at hd
  refine ⟨_, _, literal_of_parseText hparsed, wellFormed_of_fromLevels hd, ?_⟩
  rw [meaning_of_stores (fromDomain_eq_ok_iff.mp hv)]
  exact meaning_of_canonicalize hd

/-- A literal of a well-formed level list is read, up to the limits of the storage. -/
theorem exists_input_of_literal {text : List Char} (hlen : text.length < 2 ^ 32)
    {srid : Option Int32} {raw : List (Level F64 PostgisGeometry)}
    (hliteral : Literal f64 text srid (raw.map levelEntry))
    (hwell : WellFormed e.toCrispEngine raw) :
    (∃ v, input f64 (e.engine (PostgisError S)) text = .ok v) ∨
    ∃ limit, ExceedsLimit limit ∧
      input f64 (e.engine (PostgisError S)) text = .error (.postgis (.storage limit)) := by
  obtain ⟨parsed, hparsed, hlevels⟩ := exists_parseText_of_literal hlen hliteral
  obtain rfl := List.map_injective_iff.mpr levelEntry_injective hlevels
  obtain ⟨d, hd⟩ := exists_fromLevels_iff (E := PostgisError S).mpr hwell
  have hread : parsed.toDomain f64 (e.engine (PostgisError S)) = .ok d :=
    toDomain_eq_ok_iff.mpr ((decode_eq_canonicalize _ _).trans hd)
  rw [input, hparsed, mapError_ok, ok_bind, hread, mapError_ok, ok_bind]
  rcases exists_fromDomain_or_limit (canonicalize_canonical hd) with ⟨v, hv⟩ | ⟨limit, hlimit, hrun⟩
  · exact Or.inl ⟨v, by rw [hv, mapError_ok]⟩
  · exact Or.inr ⟨limit, hlimit, by rw [hrun, Except.mapError]⟩

/-- An error of the input names what is wrong with the text, with the levels, or with their storage.
-/
theorem refusal_of_input {text : List Char} (hlen : text.length < 2 ^ 32) {error : LiteralError S}
    (h : input f64 (e.engine (PostgisError S)) text = .error error) :
    (∃ reason, error = .text reason ∧ ¬ ∃ srid levels, Literal f64 text srid levels) ∨
    (∃ srid raw reason, Literal f64 text srid (raw.map levelEntry) ∧
      Refused e.toCrispEngine raw reason ∧ error = .postgis (domainError f64 reason)) ∨
    ∃ limit, ExceedsLimit limit ∧ error = .postgis (.storage limit) := by
  rcases bind_eq_error_iff.mp h with h | ⟨parsed, hparsed, h⟩
  -- the text is not read
  · obtain ⟨reason, hreason, rfl⟩ := mapError_eq_error_iff.mp h
    refine Or.inl ⟨reason, rfl, ?_⟩
    rintro ⟨srid, levels, hliteral⟩
    obtain ⟨parsed, hparsed, -⟩ := exists_parseText_of_literal hlen hliteral
    rw [hparsed] at hreason
    cases hreason
  · have hliteral := literal_of_parseText (mapError_eq_ok_iff.mp hparsed)
    rcases bind_eq_error_iff.mp h with h | ⟨d, hd, h⟩
    -- its levels are refused
    · obtain ⟨_, hread, rfl⟩ := mapError_eq_error_iff.mp h
      obtain ⟨reason, hrefused, rfl⟩ := exists_refused_of_toDomain hread
      exact Or.inr (Or.inl ⟨_, _, reason, hliteral, hrefused, rfl⟩)
    -- the canonical value is not stored
    · have hcanonical := canonical_of_toDomain (mapError_eq_ok_iff.mp hd)
      exact Or.inr (Or.inr (exists_limit_of_fromDomain hcanonical h))

end

end FuzzyRegion
