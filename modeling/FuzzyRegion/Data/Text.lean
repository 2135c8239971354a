import Mathlib.Algebra.Group.Int.Defs
import Mathlib.Data.List.Basic

/-!
# Text of the standard library

The string operations that the text format uses, on lists of characters: trimming, the first
occurrence of a marker, the decimal text of a 32-bit integer, and the UTF-8 bytes of a text.

## Main definitions

* `trim`, `stripPrefix`, `stripSuffix`, `splitOnce`
* `FirstOccurrence`: where the first occurrence of a marker is
* `i32ToString`, `i32FromStr`: the text of a signed 32-bit integer
* `utf8`: the bytes of a text

## Main results

* `splitOnce_eq_some_iff`: the split is at the first occurrence
* `splitOn_eq_iff`: the entries of a separated list
* `splitOnce_append`: the first marker is found where no earlier character starts one
* `i32FromStr_toString`: reading an integer undoes writing it
-/

namespace Text

variable {α : Type} [DecidableEq α]

/-! ## Markers -/

def stripPrefix (marker s : List α) : Option (List α) :=
  if marker.isPrefixOf s then some (s.drop marker.length) else none

def stripSuffix (marker s : List α) : Option (List α) :=
  if marker.isSuffixOf s then some (s.take (s.length - marker.length)) else none

/-- The text before and after the first occurrence of the marker. -/
def splitOnce (marker : List α) : List α → Option (List α × List α)
  | [] => if marker.isEmpty then some ([], []) else none
  | c :: s =>
    if marker.isPrefixOf (c :: s) then some ([], (c :: s).drop marker.length)
    else (splitOnce marker s).map fun (before, after) => (c :: before, after)

theorem stripPrefix_append (marker s : List α) : stripPrefix marker (marker ++ s) = some s := by
  rw [stripPrefix, if_pos (List.isPrefixOf_iff_prefix.mpr (List.prefix_append marker s)),
    List.drop_left]

theorem stripSuffix_append (marker s : List α) : stripSuffix marker (s ++ marker) = some s := by
  rw [stripSuffix, if_pos (List.isSuffixOf_iff_suffix.mpr (List.suffix_append s marker)),
    List.length_append, Nat.add_sub_cancel, List.take_left]

theorem stripPrefix_eq_some_iff {marker s rest : List α} :
    stripPrefix marker s = some rest ↔ s = marker ++ rest := by
  constructor
  · intro h
    unfold stripPrefix at h
    split_ifs at h with hbegins
    obtain ⟨rest', rfl⟩ := List.isPrefixOf_iff_prefix.mp hbegins
    rw [List.drop_left] at h
    rw [Option.some.inj h]
  · rintro rfl
    exact stripPrefix_append marker rest

theorem stripSuffix_eq_some_iff {marker s rest : List α} :
    stripSuffix marker s = some rest ↔ s = rest ++ marker := by
  constructor
  · intro h
    unfold stripSuffix at h
    split_ifs at h with hsuffix
    obtain ⟨rest', rfl⟩ := List.isSuffixOf_iff_suffix.mp hsuffix
    rw [List.length_append, Nat.add_sub_cancel, List.take_left] at h
    rw [Option.some.inj h]
  · rintro rfl
    exact stripSuffix_append marker rest

/-- The first occurrence of the marker in `s` is between `before` and `after`. -/
structure FirstOccurrence (marker s before after : List α) : Prop where
  eq : s = before ++ marker ++ after
  first : ∀ pre post, s = pre ++ marker ++ post → before.length ≤ pre.length

/-- The split is at the first occurrence. -/
theorem splitOnce_eq_some_iff {marker s before after : List α} (hmarker : marker ≠ []) :
    splitOnce marker s = some (before, after) ↔ FirstOccurrence marker s before after := by
  induction s generalizing before with
  | nil =>
    rw [splitOnce, if_neg (by simpa using hmarker)]
    refine iff_of_false (by simp) fun h => hmarker ?_
    have hnil := h.eq.symm
    rw [List.append_eq_nil_iff, List.append_eq_nil_iff] at hnil
    exact hnil.1.2
  | cons c s ih =>
    rw [splitOnce]
    split_ifs with hbegins
    · -- the marker is here
      obtain ⟨rest, hrest⟩ := List.isPrefixOf_iff_prefix.mp hbegins
      rw [← hrest, List.drop_left, Option.some.injEq, Prod.mk.injEq]
      constructor
      · rintro ⟨rfl, rfl⟩
        exact ⟨rfl, fun _ _ _ => Nat.zero_le _⟩
      · intro h
        have hnil : before = [] := List.length_eq_zero_iff.mp
          (Nat.le_zero.mp (h.first [] rest rfl))
        have heq := h.eq
        rw [hnil, List.nil_append] at heq
        exact ⟨hnil.symm, List.append_cancel_left heq⟩
    · -- no occurrence starts at `c`, so every one is an occurrence in `s`
      have hnot : ∀ post, c :: s ≠ marker ++ post := fun post heq =>
        hbegins (List.isPrefixOf_iff_prefix.mpr ⟨post, heq.symm⟩)
      constructor
      · intro h
        obtain ⟨⟨before', after'⟩, hsplit, hpair⟩ := Option.map_eq_some_iff.mp h
        obtain ⟨rfl, rfl⟩ := Prod.mk.inj hpair
        obtain ⟨heq, hfirst⟩ := ih.mp hsplit
        refine ⟨congrArg (c :: ·) heq, fun pre post hoccurs => ?_⟩
        cases pre with
        | nil => exact absurd hoccurs (hnot post)
        | cons d pre =>
          exact Nat.succ_le_succ (hfirst pre post (List.cons.inj hoccurs).2)
      · intro h
        cases before with
        | nil => exact absurd h.eq (hnot after)
        | cons d before =>
          obtain ⟨rfl, hs⟩ := List.cons.inj h.eq
          refine Option.map_eq_some_iff.mpr ⟨(before, after), ih.mpr ⟨hs, ?_⟩, rfl⟩
          intro pre post hoccurs
          exact Nat.le_of_succ_le_succ (h.first (c :: pre) post (congrArg (c :: ·) hoccurs))

/-- A marker is found where the text before it avoids its first character. -/
theorem splitOnce_append {c : α} {marker before : List α} (hc : c ∉ before) (after : List α) :
    splitOnce (c :: marker) (before ++ c :: marker ++ after) = some (before, after) := by
  induction before with
  | nil =>
    -- the marker is here
    have hpre : (c :: marker).isPrefixOf (c :: (marker ++ after)) = true :=
      List.isPrefixOf_iff_prefix.mpr (List.prefix_append (c :: marker) after)
    simp only [List.nil_append, List.cons_append, splitOnce, hpre, if_true, List.length_cons,
      List.drop_succ_cons, List.drop_left]
  | cons d before ih =>
    -- no marker starts at `d`, since it is not the first character of the marker
    obtain ⟨hcd, hc⟩ := not_or.mp (List.mem_cons.not.mp hc)
    have hpre : (c :: marker).isPrefixOf (d :: (before ++ c :: marker ++ after)) = false := by
      rw [Bool.eq_false_iff, ne_eq, List.isPrefixOf_iff_prefix, List.cons_prefix_cons]
      exact fun h => hcd h.1
    rw [List.cons_append, List.cons_append, splitOnce, hpre]
    simp only [Bool.false_eq_true, if_false]
    rw [ih hc]
    rfl

theorem not_mem_of_mem_splitOn {a : α} {s entry : List α} (h : entry ∈ s.splitOn a) :
    a ∉ entry := by
  induction s generalizing entry with
  | nil =>
    rw [List.splitOn_nil, List.mem_singleton] at h
    simp [h]
  | cons b s ih =>
    rw [List.splitOn_cons_eq_if_modifyHead] at h
    split_ifs at h with hb
    · rcases List.mem_cons.mp h with rfl | h
      · simp
      · exact ih h
    · -- the first entry begins with `b`, which is no separator
      obtain ⟨first, rest, hsplit⟩ := List.exists_cons_of_ne_nil (List.splitOn_ne_nil a s)
      rw [hsplit] at h ih
      rcases List.mem_cons.mp h with rfl | h
      · rw [List.mem_cons, not_or]
        exact ⟨fun heq => hb (beq_iff_eq.mpr heq.symm), ih List.mem_cons_self⟩
      · exact ih (List.mem_cons_of_mem _ h)

/-- The entries of a list are the parts without a separator that it joins. -/
theorem splitOn_eq_iff {a : α} {s : List α} {entries : List (List α)} :
    s.splitOn a = entries ↔
      entries ≠ [] ∧ (∀ entry ∈ entries, a ∉ entry) ∧ s = [a].intercalate entries := by
  constructor
  · rintro rfl
    exact ⟨List.splitOn_ne_nil a s, fun _ h => not_mem_of_mem_splitOn h,
      (List.intercalate_splitOn a).symm⟩
  · rintro ⟨hne, hentries, rfl⟩
    exact List.splitOn_intercalate a hentries hne

/-- A separated list is no shorter than any of its entries. -/
theorem length_le_intercalate {β : Type} {a : β} {entry : List β} {entries : List (List β)}
    (h : entry ∈ entries) : entry.length ≤ ([a].intercalate entries).length := by
  induction entries with
  | nil => cases h
  | cons first rest ih =>
    cases rest with
    | nil =>
      obtain rfl := List.mem_singleton.mp h
      exact Nat.le_of_eq (congrArg List.length List.intercalate_singleton.symm)
    | cons second rest =>
      rw [List.intercalate_cons_cons, List.length_append, List.length_append]
      rcases List.mem_cons.mp h with rfl | h
      · omega
      · have hle := ih h
        omega

/-- A list of non-empty entries is no longer than the text that it separates. -/
theorem length_entries_le {β : Type} {a : β} {entries : List (List β)}
    (h : ∀ entry ∈ entries, entry ≠ []) :
    entries.length ≤ ([a].intercalate entries).length := by
  induction entries with
  | nil => exact Nat.zero_le _
  | cons first rest ih =>
    obtain ⟨hfirst, hrest⟩ := List.forall_mem_cons.mp h
    have hpos := List.length_pos_iff.mpr hfirst
    cases rest with
    | nil =>
      rw [List.intercalate_singleton]
      exact hpos
    | cons second rest =>
      have hle := ih hrest
      rw [List.intercalate_cons_cons, List.length_append, List.length_append, List.length_cons]
      omega

/-! ## Whitespace -/

/-- The characters with the Unicode property `White_Space`. -/
def isWhitespace (c : Char) : Bool :=
  (0x9 ≤ c.toNat && c.toNat ≤ 0xD) || (0x2000 ≤ c.toNat && c.toNat ≤ 0x200A) ||
    [0x20, 0x85, 0xA0, 0x1680, 0x2028, 0x2029, 0x202F, 0x205F, 0x3000].contains c.toNat

def trim (s : List Char) : List Char :=
  ((s.dropWhile isWhitespace).reverse.dropWhile isWhitespace).reverse

theorem length_trim_le (s : List Char) : (trim s).length ≤ s.length := by
  have hend := (List.dropWhile_sublist isWhitespace
    (l := (s.dropWhile isWhitespace).reverse)).length_le
  have hstart := (List.dropWhile_sublist isWhitespace (l := s)).length_le
  rw [List.length_reverse] at hend
  rw [trim, List.length_reverse]
  omega

/-- A text that neither starts nor ends with whitespace is its own trimming. -/
theorem trim_eq_self {first last : Char} (middle : List Char) (hfirst : isWhitespace first = false)
    (hlast : isWhitespace last = false) :
    trim (first :: (middle ++ [last])) = first :: (middle ++ [last]) := by
  have hrev : (first :: (middle ++ [last])).reverse = last :: (first :: middle).reverse := by
    simp
  rw [trim, List.dropWhile_cons_of_neg (by simp [hfirst]), hrev,
    List.dropWhile_cons_of_neg (by simp [hlast]), ← hrev, List.reverse_reverse]

/-! ## Integers -/

/-- `i32::to_string`. -/
def i32ToString (x : Int32) : List Char :=
  if x.toInt < 0 then '-' :: Nat.toDigits 10 x.toInt.natAbs else Nat.toDigits 10 x.toInt.natAbs

/-- The value of a nonempty list of decimal digits. -/
def digitsToNat (digits : List Char) : Option Nat :=
  if !digits.isEmpty && digits.all Char.isDigit then some (Nat.ofDigitChars 10 digits 0) else none

/-- An integer that fits in 32 bits. -/
def toI32 (x : Int) : Option Int32 :=
  if -2 ^ 31 ≤ x ∧ x < 2 ^ 31 then some (Int32.ofInt x) else none

/-- `i32::from_str`: an optional sign and decimal digits, in range. -/
def i32FromStr (s : List Char) : Option Int32 :=
  match s with
  | '-' :: digits => (digitsToNat digits).bind fun n => toI32 (-(n : Int))
  | '+' :: digits => (digitsToNat digits).bind fun n => toI32 n
  | digits => (digitsToNat digits).bind fun n => toI32 n

theorem digitsToNat_toDigits (n : Nat) : digitsToNat (Nat.toDigits 10 n) = some n := by
  have hempty : (Nat.toDigits 10 n).isEmpty = false :=
    List.isEmpty_eq_false_iff.mpr Nat.toDigits_ne_nil
  have hall : (Nat.toDigits 10 n).all Char.isDigit = true :=
    List.all_eq_true.mpr fun c hc => Nat.isDigit_of_mem_toDigits (by omega) (by omega) hc
  rw [digitsToNat, hempty, hall]
  simp

theorem toI32_toInt (x : Int32) : toI32 x.toInt = some x := by
  have hle := x.le_toInt
  have hlt := x.toInt_lt
  rw [toI32, if_pos ⟨hle, hlt⟩, Int32.ofInt_toInt]

/-- The first character of a decimal text is a digit, hence no sign. -/
theorem i32FromStr_toDigits (n : Nat) : i32FromStr (Nat.toDigits 10 n) = toI32 n := by
  unfold i32FromStr
  split
  -- a sign at the head would have to be a digit
  · next digits heq =>
    have hdigit : Char.isDigit '-' = true :=
      Nat.isDigit_of_mem_toDigits (b := 10) (n := n) (by omega) (by omega) (by simp [heq])
    exact absurd hdigit (by decide)
  · next digits heq =>
    have hdigit : Char.isDigit '+' = true :=
      Nat.isDigit_of_mem_toDigits (b := 10) (n := n) (by omega) (by omega) (by simp [heq])
    exact absurd hdigit (by decide)
  · rw [digitsToNat_toDigits, Option.bind_some]

/-- Reading an integer undoes writing it. -/
theorem i32FromStr_toString (x : Int32) : i32FromStr (i32ToString x) = some x := by
  unfold i32ToString
  split_ifs with hneg
  · have habs : -(x.toInt.natAbs : Int) = x.toInt := by omega
    rw [i32FromStr, digitsToNat_toDigits, Option.bind_some, habs, toI32_toInt]
  · have habs : (x.toInt.natAbs : Int) = x.toInt := by omega
    rw [i32FromStr_toDigits, habs, toI32_toInt]

/-- The text of an integer has no other characters than digits and a sign. -/
theorem not_mem_i32ToString {x : Int32} {c : Char} (hdigit : c.isDigit = false) (hminus : c ≠ '-') :
    c ∉ i32ToString x := by
  have hdigits : c ∉ Nat.toDigits 10 x.toInt.natAbs := by
    intro h
    have hc : c.isDigit = true := Nat.isDigit_of_mem_toDigits (by omega) (by omega) h
    exact Bool.false_ne_true (hdigit.symm.trans hc)
  unfold i32ToString
  split_ifs
  · exact List.not_mem_cons_of_ne_of_not_mem hminus hdigits
  · exact hdigits

/-! ## Bytes -/

/-- The UTF-8 bytes of a text. -/
def utf8 (s : List Char) : List UInt8 := s.flatMap String.utf8EncodeChar

theorem utf8EncodeChar_ascii {c : Char} (h : c.toNat < 128) :
    String.utf8EncodeChar c = [UInt8.ofNat c.toNat] := by
  rw [String.utf8EncodeChar]
  exact if_pos (Nat.le_of_lt_succ h)

/-- No byte of another character is one of an ASCII character. -/
theorem le_of_mem_utf8EncodeChar {c : Char} (h : 128 ≤ c.toNat) {byte : UInt8}
    (hb : byte ∈ String.utf8EncodeChar c) : 128 ≤ byte.toNat := by
  rw [String.utf8EncodeChar] at hb
  change byte ∈ (if c.toNat ≤ 127 then _ else _) at hb
  -- the encodings of two, three and four bytes
  split_ifs at hb
  · omega
  · simp only [List.mem_cons, List.not_mem_nil, or_false] at hb
    rcases hb with rfl | rfl <;> simp only [UInt8.toNat_ofNat'] <;> omega
  · simp only [List.mem_cons, List.not_mem_nil, or_false] at hb
    rcases hb with rfl | rfl | rfl <;> simp only [UInt8.toNat_ofNat'] <;> omega
  · simp only [List.mem_cons, List.not_mem_nil, or_false] at hb
    rcases hb with rfl | rfl | rfl | rfl <;> simp only [UInt8.toNat_ofNat'] <;> omega

/-- The bytes of a text are ASCII bytes only if its characters are. -/
theorem ascii_of_utf8 {s : List Char} (h : ∀ byte ∈ utf8 s, byte.toNat < 128) :
    ∀ c ∈ s, c.toNat < 128 := by
  intro c hc
  by_contra hge
  obtain ⟨byte, hbyte⟩ := List.exists_mem_of_ne_nil _ (String.utf8EncodeChar_ne_nil (c := c))
  have hlt := h byte (List.mem_flatMap.mpr ⟨c, hc, hbyte⟩)
  exact absurd (le_of_mem_utf8EncodeChar (Nat.not_lt.mp hge) hbyte) (Nat.not_le.mpr hlt)

/-- ASCII characters are read off the bytes of the text. -/
theorem map_utf8_ascii {s : List Char} (h : ∀ c ∈ s, c.toNat < 128) :
    (utf8 s).map (fun byte => Char.ofNat byte.toNat) = s := by
  induction s with
  | nil => rfl
  | cons c s ih =>
    obtain ⟨hc, hs⟩ := List.forall_mem_cons.mp h
    have hbyte : (UInt8.ofNat c.toNat).toNat = c.toNat := by
      rw [UInt8.toNat_ofNat']
      omega
    rw [utf8, List.flatMap_cons, utf8EncodeChar_ascii hc, List.singleton_append, List.map_cons,
      hbyte, Char.ofNat_toNat]
    exact congrArg (c :: ·) (ih hs)

end Text
