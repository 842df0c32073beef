import Ccf.CommandLine.Decode
import Mathlib.Data.List.DropRight
import Mathlib.Data.List.Forall2
import Mathlib.Tactic.IntervalCases

/-!
# Texts that render bytes in hexadecimal

A text renders bytes if it consists of blanks, a mark of hexadecimal numbers or none, a body and
blanks again (`Layout`), and the body spells the digits of the bytes in either case, with separators
anywhere between them (`Spells`).  Exactly the renderings are read, each as the bytes that it
renders (`parse_readsRenderings`).

A text has many layouts, but in one only the blanks around it and the mark are as long as they can be
(`Layout.IsTight`).  What is left of the body of that one without separators tells the outcome: if it
has an odd number of bytes, that is reported, else its first byte that is no digit.
-/

namespace Ccf

namespace Text

structure IsTrimmed (chars : List Char) : Prop where
  first : ∀ char ∈ chars.head?, isBlank char = false
  last : ∀ char ∈ chars.getLast?, isBlank char = false

/-- Blanks around what neither begins nor ends with one are taken off. -/
theorem trim_eq {before chars after : List Char} (hbefore : ∀ char ∈ before, isBlank char = true)
    (hafter : ∀ char ∈ after, isBlank char = true) (hchars : IsTrimmed chars) :
    trim (before ++ chars ++ after) = chars := by
  have hback (front : List Char) (hfront : ∀ char ∈ front.getLast?, isBlank char = false) :
      ((front ++ after).reverse.dropWhile isBlank).reverse = front := by
    rw [List.reverse_append, List.dropWhile_append_of_pos
      fun char hchar => hafter char (List.mem_reverse.1 hchar)]
    exact List.rdropWhile_eq_self_iff.2 fun hne => by
      simp [hfront _ (List.getLast?_eq_some_getLast hne)]
  rw [trim, List.append_assoc, List.dropWhile_append_of_pos hbefore]
  cases chars with
  | nil =>
    rw [List.nil_append, List.dropWhile_eq_nil_iff.2 hafter]
    rfl
  | cons first others =>
    have hfirst := hchars.first first rfl
    rw [List.cons_append, List.dropWhile_cons_of_neg (by simp [hfirst])]
    exact hback (first :: others) hchars.last

/-- The blanks at the end of a text. -/
theorem exists_blanks_at_end (chars : List Char) :
    ∃ front after, chars = front ++ after ∧ (∀ char ∈ after, isBlank char = true) ∧
      ∀ char ∈ front.getLast?, isBlank char = false := by
  refine ⟨chars.rdropWhile isBlank, chars.rtakeWhile isBlank,
    List.rdropWhile_append_rtakeWhile.symm, fun _ => List.mem_rtakeWhile_imp,
    fun char hchar => ?_⟩
  obtain ⟨hne, rfl⟩ := List.mem_getLast?_eq_getLast hchar
  simpa using List.rdropWhile_last_not isBlank chars hne

/-- The blanks at both ends. -/
theorem exists_isTrimmed (chars : List Char) :
    ∃ before middle after, chars = before ++ middle ++ after ∧
      (∀ char ∈ before, isBlank char = true) ∧ (∀ char ∈ after, isBlank char = true) ∧
      IsTrimmed middle := by
  obtain ⟨middle, after, hsplit, hafter, hlast⟩ := exists_blanks_at_end (chars.dropWhile isBlank)
  refine ⟨chars.takeWhile isBlank, middle, after, ?_, fun _ => List.mem_takeWhile_imp, hafter,
    ?_, hlast⟩
  · rw [List.append_assoc, ← hsplit, List.takeWhile_append_dropWhile]
  · intro char hchar
    have hfirst := List.head?_dropWhile_not isBlank chars
    rw [hsplit, List.head?_append, Option.mem_def.1 hchar] at hfirst
    exact hfirst

end Text

namespace Hex

/-! ## Digits and separators -/

def halves (byte : UInt8) : List Nat := [byte.toNat / 16, byte.toNat % 16]

/-- The character is a digit with the given value, in either case. -/
def IsDigit (value : Nat) (char : Char) : Prop :=
  value < 16 ∧ (char = digit value ∨ char = (digit value).toUpper)

def IsDigitByte (value : Nat) (byte : UInt8) : Prop := IsDigit value (Char.ofNat byte.toNat)

/-- The characters that may stand between digits: the blanks of ASCII and the colon. -/
def separators : List Char := [' ', '\t', '\n', '\x0C', '\r', ':']

/-- Where the digits are among the characters. -/
theorem isDigit_iff {value : Nat} {char : Char} :
    IsDigit value char ↔
      48 ≤ char.toNat ∧ char.toNat ≤ 57 ∧ value = char.toNat - 48 ∨
      97 ≤ char.toNat ∧ char.toNat ≤ 102 ∧ value = char.toNat - 87 ∨
      65 ≤ char.toNat ∧ char.toNat ≤ 70 ∧ value = char.toNat - 55 := by
  constructor
  · rintro ⟨hvalue, rfl | rfl⟩
    all_goals
      revert hvalue
      revert value
      decide
  · intro hrange
    have hchar := Char.ofNat_toNat char
    generalize char.toNat = number at hrange hchar
    subst hchar
    rcases hrange with ⟨hlow, hhigh, rfl⟩ | ⟨hlow, hhigh, rfl⟩ | ⟨hlow, hhigh, rfl⟩
    all_goals
      unfold IsDigit
      interval_cases number <;> decide

theorem isDigitByte_iff {value : Nat} {byte : UInt8} :
    IsDigitByte value byte ↔
      48 ≤ byte.toNat ∧ byte.toNat ≤ 57 ∧ value = byte.toNat - 48 ∨
      97 ≤ byte.toNat ∧ byte.toNat ≤ 102 ∧ value = byte.toNat - 87 ∨
      65 ≤ byte.toNat ∧ byte.toNat ≤ 70 ∧ value = byte.toNat - 55 := by
  have hvalid : byte.toNat.isValidChar := Or.inl (Nat.lt_trans byte.toNat_lt (by decide))
  have hchar : (Char.ofNat byte.toNat).toNat = byte.toNat := by
    rw [Char.ofNat, dif_pos hvalid]
    rfl
  rw [IsDigitByte, isDigit_iff, hchar]

/-- The value of a digit is counted from the first digit of its kind. -/
theorem ofNat_sub_toNat {low : Nat} {byte : UInt8} (hlow : low ≤ byte.toNat) :
    UInt8.ofNat (byte.toNat - low) = byte - UInt8.ofNat low := by
  rw [UInt8.ofNat_sub hlow, UInt8.ofNat_toNat]

theorem nibble_of_isDigitByte {value : Nat} {byte : UInt8} (hdigit : IsDigitByte value byte) :
    nibble byte = .ok (UInt8.ofNat value) := by
  unfold nibble
  simp only [UInt8.le_iff_toNat_le]
  rcases isDigitByte_iff.1 hdigit with ⟨hlow, hhigh, rfl⟩ | ⟨hlow, hhigh, rfl⟩ | ⟨hlow, hhigh, rfl⟩
  · rw [if_pos ⟨hlow, hhigh⟩, ofNat_sub_toNat hlow]
    rfl
  · have hvalue : byte.toNat - 87 = byte.toNat - 97 + 10 := by omega
    rw [if_neg (by simp; omega), if_pos ⟨hlow, hhigh⟩, hvalue, UInt8.ofNat_add,
      ofNat_sub_toNat hlow]
    rfl
  · have hvalue : byte.toNat - 55 = byte.toNat - 65 + 10 := by omega
    rw [if_neg (by simp; omega), if_neg (by simp; omega), if_pos ⟨hlow, hhigh⟩, hvalue,
      UInt8.ofNat_add, ofNat_sub_toNat hlow]
    rfl

theorem nibble_of_not_isDigitByte {byte : UInt8} (hnone : ∀ value, ¬ IsDigitByte value byte) :
    nibble byte = .error (.badDigit byte) := by
  have hranges := fun value => mt isDigitByte_iff.2 (hnone value)
  have hdecimal := hranges (byte.toNat - 48)
  have hlower := hranges (byte.toNat - 87)
  have hupper := hranges (byte.toNat - 55)
  unfold nibble
  simp only [UInt8.le_iff_toNat_le]
  rw [if_neg (by simp; omega), if_neg (by simp; omega), if_neg (by simp; omega)]

/-- A separator is no digit, and neither is a blank. -/
theorem not_isDigit_of_separator {value : Nat} {char : Char} (hchar : char ∈ separators) :
    ¬ IsDigit value char := by
  rw [isDigit_iff]
  simp only [separators, List.mem_cons, List.not_mem_nil, or_false] at hchar
  rcases hchar with rfl | rfl | rfl | rfl | rfl | rfl <;> simp

theorem not_isDigit_of_blank {value : Nat} {char : Char} (hchar : Text.isBlank char = true) :
    ¬ IsDigit value char := by
  rw [isDigit_iff]
  simp only [Text.isBlank, Text.blankRanges, List.any_cons, List.any_nil, Bool.or_false,
    Bool.or_eq_true, Bool.and_eq_true, decide_eq_true_eq] at hchar
  omega

/-- What is left of characters without separators, as bytes. -/
def bytesLeft (chars : List Char) : List UInt8 :=
  (chars.filter fun char => decide (char ∉ separators)).flatMap String.utf8EncodeChar

/-- A character of ASCII is one byte. -/
theorem utf8EncodeChar_of_ascii {char : Char} (hascii : char.toNat < 128) :
    String.utf8EncodeChar char = [UInt8.ofNat char.toNat] :=
  if_pos (Nat.le_of_lt_succ hascii)

/-- Any other character has bytes beyond ASCII only. -/
theorem le_toNat_of_mem_utf8EncodeChar {char : Char} (hother : 128 ≤ char.toNat) {byte : UInt8}
    (hbyte : byte ∈ String.utf8EncodeChar char) : 128 ≤ byte.toNat := by
  have hascii : ¬ char.val.toNat ≤ 127 := Nat.not_le.2 hother
  simp only [String.utf8EncodeChar, hascii, if_false] at hbyte
  split at hbyte
  · simp only [List.mem_cons, List.not_mem_nil, or_false] at hbyte
    rcases hbyte with rfl | rfl <;> simp <;> omega
  · split at hbyte
    all_goals
      simp only [List.mem_cons, List.not_mem_nil, or_false] at hbyte
    · rcases hbyte with rfl | rfl | rfl <;> simp <;> omega
    · rcases hbyte with rfl | rfl | rfl | rfl <;> simp <;> omega

theorem toNat_ofNat_toNat {char : Char} (hascii : char.toNat < 128) :
    (UInt8.ofNat char.toNat).toNat = char.toNat := by
  rw [UInt8.toNat_ofNat', Nat.mod_eq_of_lt (by omega)]

/-- The bytes of separators. -/
theorem isSeparator_iff {byte : UInt8} :
    isSeparator byte = true ↔ byte.toNat ∈ separators.map Char.toNat := by
  simp [isSeparator, Text.isAsciiBlank, separators, ← UInt8.toNat_inj, or_assoc]

theorem isSeparator_of_ascii {char : Char} (hascii : char.toNat < 128) :
    isSeparator (UInt8.ofNat char.toNat) = decide (char ∈ separators) := by
  rw [Bool.eq_iff_iff, isSeparator_iff, toNat_ofNat_toNat hascii, decide_eq_true_iff]
  exact List.mem_map_of_injective fun _ _ => Char.toNat_inj.1

theorem isSeparator_of_beyond {byte : UInt8} (hbeyond : 128 ≤ byte.toNat) :
    isSeparator byte = false := by
  have hascii : ∀ number ∈ separators.map Char.toNat, number < 128 := by decide
  rw [Bool.eq_false_iff, ne_eq, isSeparator_iff]
  exact fun hmem => Nat.not_lt.2 hbeyond (hascii _ hmem)

theorem not_separator_of_beyond {char : Char} (hbeyond : 128 ≤ char.toNat) :
    char ∉ separators := by
  have hascii : ∀ separator ∈ separators, separator.toNat < 128 := by simp [separators]
  exact fun hmem => Nat.not_lt.2 hbeyond (hascii char hmem)

/-- Taking the separators out of the characters or out of their bytes is the same. -/
theorem filter_utf8EncodeChar (chars : List Char) :
    ((chars.flatMap String.utf8EncodeChar).filter fun byte => !isSeparator byte) =
      bytesLeft chars := by
  induction chars with
  | nil => rfl
  | cons char later ih =>
    rw [List.flatMap_cons, List.filter_append, ih, bytesLeft, bytesLeft, List.filter_cons]
    rcases Nat.lt_or_ge char.toNat 128 with hascii | hbeyond
    · rw [utf8EncodeChar_of_ascii hascii, List.filter_cons, isSeparator_of_ascii hascii]
      by_cases hseparator : char ∈ separators
      · simp [hseparator]
      · simp [hseparator, utf8EncodeChar_of_ascii hascii]
    · have hkept : ((String.utf8EncodeChar char).filter fun byte => !isSeparator byte) =
          String.utf8EncodeChar char :=
        List.filter_eq_self.2 fun byte hbyte => by
          rw [isSeparator_of_beyond (le_toNat_of_mem_utf8EncodeChar hbeyond hbyte)]
          rfl
      rw [hkept, if_pos (decide_eq_true (not_separator_of_beyond hbeyond)), List.flatMap_cons]

/-! ## Spelling -/

/-- The characters are digits with the given values, with separators anywhere. -/
inductive Spells : List Nat → List Char → Prop
  | nil : Spells [] []
  | separator {values : List Nat} {char : Char} {later : List Char} (hchar : char ∈ separators)
      (hlater : Spells values later) : Spells values (char :: later)
  | digit {values : List Nat} {char : Char} {later : List Char} {value : Nat}
      (hchar : IsDigit value char) (hlater : Spells values later) :
      Spells (value :: values) (char :: later)

theorem bytesLeft_of_separator {char : Char} {later : List Char} (hchar : char ∈ separators) :
    bytesLeft (char :: later) = bytesLeft later := by
  rw [bytesLeft, List.filter_cons_of_neg (by simp [hchar]), bytesLeft]

theorem bytesLeft_of_other {char : Char} {later : List Char} (hchar : char ∉ separators) :
    bytesLeft (char :: later) = String.utf8EncodeChar char ++ bytesLeft later := by
  rw [bytesLeft, List.filter_cons_of_pos (by simp [hchar]), List.flatMap_cons, bytesLeft]

theorem isDigitByte_ofNat {value : Nat} {char : Char} (hascii : char.toNat < 128) :
    IsDigitByte value (UInt8.ofNat char.toNat) ↔ IsDigit value char := by
  rw [IsDigitByte, toNat_ofNat_toNat hascii, Char.ofNat_toNat]

/-- Characters spell digits if what is left of them without separators are these digits. -/
theorem spells_iff {values : List Nat} {chars : List Char} :
    Spells values chars ↔ List.Forall₂ IsDigitByte values (bytesLeft chars) := by
  induction chars generalizing values with
  | nil =>
    rw [show bytesLeft [] = [] from rfl, List.forall₂_nil_right_iff]
    constructor
    · intro hspells
      cases hspells
      rfl
    · rintro rfl
      exact .nil
  | cons char later ih =>
    by_cases hseparator : char ∈ separators
    · rw [bytesLeft_of_separator hseparator, ← ih]
      constructor
      · intro hspells
        cases hspells with
        | separator _ hlater => exact hlater
        | digit hdigit _ => exact absurd hdigit (not_isDigit_of_separator hseparator)
      · exact .separator hseparator
    · rw [bytesLeft_of_other hseparator]
      rcases Nat.lt_or_ge char.toNat 128 with hascii | hbeyond
      · rw [utf8EncodeChar_of_ascii hascii, List.singleton_append, List.forall₂_cons_right_iff]
        constructor
        · intro hspells
          cases hspells with
          | separator hchar _ => exact absurd hchar hseparator
          | digit hdigit hlater =>
            exact ⟨_, _, (isDigitByte_ofNat hascii).2 hdigit, ih.1 hlater, rfl⟩
        · rintro ⟨value, values, hdigit, hlater, rfl⟩
          exact .digit ((isDigitByte_ofNat hascii).1 hdigit) (ih.2 hlater)
      · -- The first byte of the character is no digit.
        obtain ⟨byte, more, hbytes⟩ :=
          List.exists_cons_of_ne_nil (String.utf8EncodeChar_ne_nil (c := char))
        have hbyte := le_toNat_of_mem_utf8EncodeChar hbeyond
          (hbytes ▸ List.mem_cons_self : byte ∈ String.utf8EncodeChar char)
        rw [hbytes, List.cons_append, List.forall₂_cons_right_iff]
        constructor
        · intro hspells
          cases hspells with
          | separator hchar _ => exact absurd hchar hseparator
          | digit hdigit _ =>
            rw [isDigit_iff] at hdigit
            omega
        · rintro ⟨value, values, hdigit, -, -⟩
          rw [isDigitByte_iff] at hdigit
          omega

theorem bytesLeft_append (front back : List Char) :
    bytesLeft (front ++ back) = bytesLeft front ++ bytesLeft back := by
  rw [bytesLeft, List.filter_append, List.flatMap_append, bytesLeft, bytesLeft]

theorem Spells.separator_or_digit {values : List Nat} {chars : List Char}
    (hspells : Spells values chars) :
    ∀ char ∈ chars, char ∈ separators ∨ ∃ value, IsDigit value char := by
  induction hspells with
  | nil => exact List.forall_mem_nil _
  | separator hchar _ ih => exact List.forall_mem_cons.2 ⟨Or.inl hchar, ih⟩
  | digit hchar _ ih => exact List.forall_mem_cons.2 ⟨Or.inr ⟨_, hchar⟩, ih⟩

/-- Blanks in what is spelled are separators. -/
theorem Spells.bytesLeft_of_blank {values : List Nat} {chars blanks : List Char}
    (hspells : Spells values chars) (hsubset : blanks ⊆ chars)
    (hblanks : ∀ char ∈ blanks, Text.isBlank char = true) : bytesLeft blanks = [] := by
  have hseparators : ∀ char ∈ blanks, char ∈ separators := fun char hchar =>
    (hspells.separator_or_digit char (hsubset hchar)).resolve_right fun ⟨_, hdigit⟩ =>
      not_isDigit_of_blank (hblanks char hchar) hdigit
  rw [bytesLeft, List.filter_eq_nil_iff.2 fun char hchar => by simp [hseparators char hchar],
    List.flatMap_nil]

/-- What is spelled is spelled without blanks at its ends. -/
theorem Spells.of_blank {values : List Nat} {before chars after : List Char}
    (hspells : Spells values (before ++ chars ++ after))
    (hbefore : ∀ char ∈ before, Text.isBlank char = true)
    (hafter : ∀ char ∈ after, Text.isBlank char = true) : Spells values chars := by
  have hfront := hspells.bytesLeft_of_blank
    (List.subset_append_of_subset_left _ (List.subset_append_left _ _)) hbefore
  have hback := hspells.bytesLeft_of_blank (List.subset_append_right _ _) hafter
  rw [spells_iff, bytesLeft_append, bytesLeft_append, hfront, hback, List.nil_append,
    List.append_nil] at hspells
  exact spells_iff.2 hspells

def marks : List (List Char) := [[], ['0', 'x'], ['0', 'X']]

/-- A division of a text. -/
structure Layout where
  before : List Char
  mark : List Char
  body : List Char
  after : List Char
  before_blank : ∀ char ∈ before, Text.isBlank char = true
  after_blank : ∀ char ∈ after, Text.isBlank char = true
  mark_mem : mark ∈ marks

namespace Layout

def chars (layout : Layout) : List Char :=
  layout.before ++ (layout.mark ++ layout.body) ++ layout.after

/-- The blanks around the text and the mark are as long as they can be. -/
structure IsTight (layout : Layout) : Prop where
  trimmed : Text.IsTrimmed (layout.mark ++ layout.body)
  unmarked : layout.mark = [] → ∀ mark ∈ marks, mark <+: layout.body → mark = []

variable {layout : Layout} {text : String}

theorem withoutMark_eq (htight : layout.IsTight) :
    withoutMark (layout.mark ++ layout.body) = layout.body := by
  have hmark := layout.mark_mem
  simp only [marks, List.mem_cons, List.not_mem_nil, or_false] at hmark
  rcases hmark with hmark | hmark | hmark
  · have hnone := htight.unmarked hmark
    rw [hmark, List.nil_append]
    unfold withoutMark
    split
    · rename_i rest hbody
      exact absurd (hnone ['0', 'x'] (by decide) ⟨rest, hbody.symm⟩) (by decide)
    · rename_i rest hbody
      exact absurd (hnone ['0', 'X'] (by decide) ⟨rest, hbody.symm⟩) (by decide)
    · rfl
  · rw [hmark]
    rfl
  · rw [hmark]
    rfl

/-- Reading looks at the body of a tight layout, without separators. -/
theorem digitBytes_eq (htext : text.toList = layout.chars) (htight : layout.IsTight) :
    digitBytes text = bytesLeft layout.body := by
  rw [digitBytes, htext, chars, Text.trim_eq layout.before_blank layout.after_blank
    htight.trimmed, withoutMark_eq htight, filter_utf8EncodeChar]

/-- Every text has a tight layout. -/
theorem exists_tight (chars : List Char) :
    ∃ layout : Layout, layout.chars = chars ∧ layout.IsTight := by
  obtain ⟨before, middle, after, rfl, hbefore, hafter, htrimmed⟩ := Text.exists_isTrimmed chars
  by_cases hmarked : ∃ mark ∈ marks, mark ≠ [] ∧ mark <+: middle
  · obtain ⟨mark, hmark, hne, body, rfl⟩ := hmarked
    exact ⟨⟨before, mark, body, after, hbefore, hafter, hmark⟩, rfl, htrimmed,
      fun hnone => absurd hnone hne⟩
  · exact ⟨⟨before, [], middle, after, hbefore, hafter, List.mem_cons_self⟩, rfl, htrimmed,
      fun _ mark hmark hfront =>
        Decidable.of_not_not fun hne => hmarked ⟨mark, hmark, hne, hfront⟩⟩

/-- Behind a mark, only blanks at the end can be taken off. -/
theorem isTrimmed_marked {mark body : List Char} (hmark : mark ∈ marks) (hne : mark ≠ [])
    (hbody : ∀ char ∈ body.getLast?, Text.isBlank char = false) :
    Text.IsTrimmed (mark ++ body) := by
  have hzero : Text.isBlank '0' = false := by decide
  have hsmall : Text.isBlank 'x' = false := by decide
  have hcapital : Text.isBlank 'X' = false := by decide
  obtain ⟨hfirst, hlast⟩ : Text.IsTrimmed mark := by
    simp only [marks, List.mem_cons, List.not_mem_nil, or_false] at hmark
    rcases hmark with rfl | rfl | rfl
    · exact absurd rfl hne
    · exact ⟨by simpa using hzero, by simpa using hsmall⟩
    · exact ⟨by simpa using hzero, by simpa using hcapital⟩
  constructor
  · rwa [List.head?_append_of_ne_nil _ hne]
  · rw [List.getLast?_append]
    cases hend : body.getLast? with
    | none => exact hlast
    | some last =>
      rw [hend] at hbody
      exact hbody

/-- What is spelled does not begin with a mark. -/
theorem unmarked_of_spells {values : List Nat} {chars mark : List Char}
    (hspells : Spells values chars) (hmark : mark ∈ marks) (hfront : mark <+: chars) :
    mark = [] := by
  have hother : ∀ char ∈ ['x', 'X'], char ∉ chars := by
    intro char hchar hmem
    have hseparators : ∀ char ∈ ['x', 'X'], char ∉ separators := by simp [separators]
    rcases hspells.separator_or_digit char hmem with hseparator | ⟨value, hdigit⟩
    · exact hseparators char hchar hseparator
    · rw [isDigit_iff] at hdigit
      simp only [List.mem_cons, List.not_mem_nil, or_false] at hchar
      rcases hchar with rfl | rfl <;> simp at hdigit
  simp only [marks, List.mem_cons, List.not_mem_nil, or_false] at hmark
  rcases hmark with rfl | rfl | rfl
  · rfl
  · exact absurd (hfront.subset (by decide)) (hother 'x' (by decide))
  · exact absurd (hfront.subset (by decide)) (hother 'X' (by decide))

/-- A layout whose body spells digits can be made tight. -/
theorem exists_tight_of_spells {values : List Nat} (hspells : Spells values layout.body) :
    ∃ tight : Layout, tight.chars = layout.chars ∧ tight.IsTight ∧ Spells values tight.body := by
  obtain ⟨before, mark, body, after, hbefore, hafter, hmark⟩ := layout
  by_cases hnone : mark = []
  · obtain ⟨front, middle, back, rfl, hfront, hback, htrimmed⟩ := Text.exists_isTrimmed body
    have hmiddle := hspells.of_blank hfront hback
    refine ⟨⟨before ++ front, mark, middle, back ++ after,
      List.forall_mem_append.2 ⟨hbefore, hfront⟩, List.forall_mem_append.2 ⟨hback, hafter⟩,
      hmark⟩, ?_, ⟨?_, fun _ _ => unmarked_of_spells hmiddle⟩, hmiddle⟩
    · simp [chars, hnone]
    · simpa [hnone] using htrimmed
  · obtain ⟨front, back, rfl, hback, hlast⟩ := Text.exists_blanks_at_end body
    have hwhole : Spells values ([] ++ front ++ back) := hspells
    have hfront := hwhole.of_blank (List.forall_mem_nil _) hback
    refine ⟨⟨before, mark, front, back ++ after, hbefore,
      List.forall_mem_append.2 ⟨hback, hafter⟩, hmark⟩, ?_,
      ⟨isTrimmed_marked hmark hnone hlast, fun hempty => absurd hempty hnone⟩, hfront⟩
    simp [chars]

end Layout

/-! ## Pairs of digits -/

def FirstFault (fault : UInt8) (bytes : List UInt8) : Prop :=
  ∃ front back, bytes = front ++ fault :: back ∧
    (∀ byte ∈ front, ∃ value, IsDigitByte value byte) ∧ ∀ value, ¬ IsDigitByte value fault

theorem exists_firstFault (bytes : List UInt8) :
    (∀ byte ∈ bytes, ∃ value, IsDigitByte value byte) ∨ ∃ fault, FirstFault fault bytes := by
  induction bytes with
  | nil => exact Or.inl (List.forall_mem_nil _)
  | cons byte later ih =>
    by_cases hdigit : ∃ value, IsDigitByte value byte
    · rcases ih with hall | ⟨fault, front, back, rfl, hfront, hfault⟩
      · exact Or.inl (List.forall_mem_cons.2 ⟨hdigit, hall⟩)
      · exact Or.inr ⟨fault, byte :: front, back, rfl,
          List.forall_mem_cons.2 ⟨hdigit, hfront⟩, hfault⟩
    · exact Or.inr ⟨byte, [], later, rfl, List.forall_mem_nil _, not_exists.1 hdigit⟩

theorem ofNat_high_low (high low : Nat) :
    UInt8.ofNat high * 16 + UInt8.ofNat low = UInt8.ofNat (high * 16 + low) := by
  rw [UInt8.ofNat_add, UInt8.ofNat_mul]
  rfl

/-- Two digits are the halves of the byte that they make. -/
theorem halves_of_digits {high low : Nat} (hhigh : high < 16) (hlow : low < 16) :
    halves (UInt8.ofNat high * 16 + UInt8.ofNat low) = [high, low] := by
  have hbyte : (UInt8.ofNat (high * 16 + low)).toNat = high * 16 + low := by
    rw [UInt8.toNat_ofNat', Nat.mod_eq_of_lt (by omega)]
  have hdivide : (high * 16 + low) / 16 = high := by omega
  have hrest : (high * 16 + low) % 16 = low := by omega
  rw [halves, ofNat_high_low, hbyte, hdivide, hrest]

/-- The halves of a byte make it. -/
theorem ofNat_halves (byte : UInt8) :
    UInt8.ofNat (byte.toNat / 16) * 16 + UInt8.ofNat (byte.toNat % 16) = byte := by
  rw [ofNat_high_low, Nat.mul_comm, Nat.div_add_mod, UInt8.ofNat_toNat]

theorem pairs_cons {high low : Nat} {first second : UInt8} {rest : List UInt8}
    (hfirst : IsDigitByte high first) (hsecond : IsDigitByte low second) :
    pairs (first :: second :: rest) =
      (pairs rest).map fun bytes => (UInt8.ofNat high * 16 + UInt8.ofNat low) :: bytes := by
  rw [pairs, nibble_of_isDigitByte hfirst, nibble_of_isDigitByte hsecond]
  cases pairs rest <;> rfl

/-- Pairs of digits are read as the bytes that they are the halves of. -/
theorem pairs_of_digits {bytes digits : List UInt8}
    (hdigits : List.Forall₂ IsDigitByte (bytes.flatMap halves) digits) :
    pairs digits = .ok bytes := by
  induction bytes generalizing digits with
  | nil =>
    cases hdigits
    rfl
  | cons byte later ih =>
    cases hdigits with
    | cons hhigh hothers =>
      cases hothers with
      | cons hlow hlater =>
        rw [pairs_cons hhigh hlow, ih hlater, ofNat_halves]
        rfl

/-- Digits in pairs are the halves of bytes. -/
theorem exists_bytes {digits : List UInt8}
    (hdigits : ∀ byte ∈ digits, ∃ value, IsDigitByte value byte)
    (heven : digits.length % 2 = 0) :
    ∃ bytes : List UInt8, List.Forall₂ IsDigitByte (bytes.flatMap halves) digits := by
  match digits with
  | [] => exact ⟨[], .nil⟩
  | [_] => cases heven
  | first :: second :: rest =>
    simp only [List.forall_mem_cons] at hdigits
    obtain ⟨⟨high, hhigh⟩, ⟨low, hlow⟩, hrest⟩ := hdigits
    rw [List.length_cons, List.length_cons, Nat.add_assoc, Nat.add_mod_right] at heven
    obtain ⟨bytes, hbytes⟩ := exists_bytes hrest heven
    refine ⟨(UInt8.ofNat high * 16 + UInt8.ofNat low) :: bytes, ?_⟩
    rw [List.flatMap_cons, halves_of_digits hhigh.1 hlow.1]
    exact .cons hhigh (.cons hlow hbytes)

/-- The first byte in pairs that is no digit is reported. -/
theorem pairs_of_fault {fault : UInt8} {front back : List UInt8}
    (hfront : ∀ byte ∈ front, ∃ value, IsDigitByte value byte)
    (hfault : ∀ value, ¬ IsDigitByte value fault)
    (heven : (front ++ fault :: back).length % 2 = 0) :
    pairs (front ++ fault :: back) = .error (.badDigit fault) := by
  match front, back with
  | [], [] => cases heven
  | [], _ :: _ => rw [List.nil_append, pairs, nibble_of_not_isDigitByte hfault]
  | [first], back =>
    obtain ⟨value, hfirst⟩ := hfront first (List.mem_singleton_self first)
    rw [List.singleton_append, pairs, nibble_of_isDigitByte hfirst,
      nibble_of_not_isDigitByte hfault]
  | first :: second :: others, back =>
    simp only [List.forall_mem_cons] at hfront
    obtain ⟨⟨high, hhigh⟩, ⟨low, hlow⟩, hothers⟩ := hfront
    simp only [List.cons_append, List.length_cons, Nat.add_assoc, Nat.add_mod_right] at heven
    rw [List.cons_append, List.cons_append, pairs_cons hhigh hlow,
      pairs_of_fault hothers hfault heven]
    rfl

/-- Bytes in pairs are read as those that they are the halves of, or their first fault is
reported. -/
theorem pairs_eq_ok_iff {digits : List UInt8} (heven : digits.length % 2 = 0)
    {bytes : List UInt8} :
    pairs digits = .ok bytes ↔ List.Forall₂ IsDigitByte (bytes.flatMap halves) digits := by
  refine ⟨fun hpairs => ?_, pairs_of_digits⟩
  rcases exists_firstFault digits with hdigits | ⟨fault, front, back, rfl, hfront, hfault⟩
  · obtain ⟨others, hothers⟩ := exists_bytes hdigits heven
    rw [pairs_of_digits hothers, Except.ok.injEq] at hpairs
    exact hpairs ▸ hothers
  · rw [pairs_of_fault hfront hfault heven] at hpairs
    cases hpairs

theorem pairs_eq_error_iff {digits : List UInt8} (heven : digits.length % 2 = 0)
    {reason : ParseError} :
    pairs digits = .error reason ↔ ∃ fault, reason = .badDigit fault ∧ FirstFault fault digits := by
  constructor
  · intro hpairs
    rcases exists_firstFault digits with hdigits | ⟨fault, front, back, rfl, hfront, hfault⟩
    · obtain ⟨bytes, hbytes⟩ := exists_bytes hdigits heven
      rw [pairs_of_digits hbytes] at hpairs
      cases hpairs
    · rw [pairs_of_fault hfront hfault heven, Except.error.injEq] at hpairs
      exact ⟨fault, hpairs.symm, front, back, rfl, hfront, hfault⟩
  · rintro ⟨fault, rfl, front, back, rfl, hfront, hfault⟩
    exact pairs_of_fault hfront hfault heven

/-! ## Renderings -/

open CommandLine

def Renders (bytes : List UInt8) (text : String) : Prop :=
  ∃ layout : Layout, layout.chars = text.toList ∧ Spells (bytes.flatMap halves) layout.body

/-- What is read off the body of a tight layout. -/
theorem parse_eq {layout : Layout} {text : String} (htext : layout.chars = text.toList)
    (htight : layout.IsTight) :
    parse text =
      if (bytesLeft layout.body).length % 2 = 0 then pairs (bytesLeft layout.body)
      else .error .oddDigits := by
  rw [parse, Layout.digitBytes_eq htext.symm htight, ite_not]

theorem length_flatMap_halves (bytes : List UInt8) :
    (bytes.flatMap halves).length % 2 = 0 := by
  induction bytes with
  | nil => rfl
  | cons byte later ih => rw [List.flatMap_cons, List.length_append, halves, ← ih]; simp

/-- A rendering is read as the bytes that it renders, and nothing else is read. -/
theorem parse_eq_ok_iff {text : String} {bytes : List UInt8} :
    parse text = .ok bytes ↔ Renders bytes text := by
  constructor
  · intro hparse
    obtain ⟨layout, htext, htight⟩ := Layout.exists_tight text.toList
    rw [parse_eq htext htight] at hparse
    split at hparse
    · rename_i heven
      exact ⟨layout, htext, spells_iff.2 ((pairs_eq_ok_iff heven).1 hparse)⟩
    · cases hparse
  · rintro ⟨layout, htext, hspells⟩
    obtain ⟨tight, hchars, htight, htightSpells⟩ := Layout.exists_tight_of_spells hspells
    have hdigits := spells_iff.1 htightSpells
    have heven := length_flatMap_halves bytes
    rw [hdigits.length_eq] at heven
    rw [parse_eq (hchars.trans htext) htight, if_pos heven, pairs_of_digits hdigits]

/-- Decoding ends with the code of misspelled arguments where reading fails. -/
theorem number_decode_eq_iff (text : String) (format : ReportFormat) :
    (decode text format).code.number = 64 ↔ ∃ reason, parse text = .error reason := by
  unfold decode
  cases parse text with
  | error reason =>
    refine ⟨fun _ => ⟨reason, rfl⟩, fun _ => ?_⟩
    cases reason <;> rfl
  | ok bytes =>
    simp only [reduceCtorEq, exists_false, iff_false]
    cases SegmentHeader.decode bytes with
    | error fault => exact (by decide : ExitCode.dataInvalid.number ≠ 64)
    | ok header => exact (by decide : ExitCode.success.number ≠ 64)

/-- Exactly the renderings of bytes are read.  A text is read as some bytes if and only if it renders
them.  Of any other text, the body of a tight layout without separators tells what is reported: an
odd number of bytes if there is one, else the first byte that is no digit.  And decoding ends with
the code of misspelled arguments for exactly those texts that render nothing. -/
theorem parse_readsRenderings (text : String) :
    (∀ bytes, parse text = .ok bytes ↔ Renders bytes text) ∧
      (∃ layout : Layout, layout.chars = text.toList ∧ layout.IsTight) ∧
      (∀ layout : Layout, layout.chars = text.toList → layout.IsTight →
        (parse text = .error .oddDigits ↔ (bytesLeft layout.body).length % 2 = 1) ∧
        ∀ fault, parse text = .error (.badDigit fault) ↔
          (bytesLeft layout.body).length % 2 = 0 ∧ FirstFault fault (bytesLeft layout.body)) ∧
      ∀ format, (decode text format).code.number = 64 ↔
        ∀ bytes, ¬ Renders bytes text := by
  refine ⟨fun bytes => parse_eq_ok_iff, Layout.exists_tight text.toList,
    fun layout htext htight => ?_, fun format => ?_⟩
  · have hparse := parse_eq htext htight
    by_cases heven : (bytesLeft layout.body).length % 2 = 0
    · rw [if_pos heven] at hparse
      simp [hparse, heven, pairs_eq_error_iff heven]
    · rw [if_neg heven] at hparse
      simp [hparse, Nat.mod_two_ne_zero.1 heven]
  · rw [number_decode_eq_iff]
    simp only [← parse_eq_ok_iff]
    cases parse text <;> simp

/-- A mark, separators inside and between the bytes, both cases, and blanks of Unicode around. -/
example : parse "\u2003 0X8 0:3e\t:aF\u000B" = .ok [0x80, 0x3E, 0xAF] := by cbv

/-- The odd number of digits is reported, not the bad one. -/
example : parse "0x:12z" = .error .oddDigits := by cbv

end Hex

end Ccf
