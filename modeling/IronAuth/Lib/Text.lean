import Mathlib

/-!
# Texts

A string as the list of its characters, with the operations on strings that verified programs
use: cutting at a character, stripping a beginning, ASCII case. Lengths are counted in bytes of
UTF-8.
-/

namespace IronAuth

open List

/-- A string, as its characters. -/
abbrev Text := List Char

instance : LawfulBEq Text := inferInstance

namespace Text

variable (text : Text)

/-- The length in bytes. -/
def len : ℕ := (text.map Char.utf8Size).sum

/-- What stands before and after the first such character. -/
def splitOnce (p : Char → Bool) : Text → Option (Text × Text)
  | [] => none
  | c :: rest => if p c then some ([], rest) else (splitOnce p rest).map fun parts => (c :: parts.1, parts.2)

/-- What stands before and after the last such character. -/
def rsplitOnce (p : Char → Bool) (text : Text) : Option (Text × Text) :=
  (splitOnce p text.reverse).map fun parts => (parts.2.reverse, parts.1.reverse)

/-- The pieces between such characters. -/
def split (p : Char → Bool) : Text → List Text
  | [] => [[]]
  | c :: rest =>
    if p c then [] :: split p rest
    else match split p rest with
      | [] => [[c]]
      | first :: more => (c :: first) :: more

/-- The bytes of the text in UTF-8. -/
def bytes : List UInt8 := text.flatMap String.utf8EncodeChar

/-- What follows a given beginning. -/
def stripPrefix : Text → Text → Option Text
  | [], text => some text
  | _ :: _, [] => none
  | c :: start, d :: text => if c = d then stripPrefix start text else none

/-- The text without a character at its ends. -/
def trimMatches (c : Char) (text : Text) : Text := ((text.dropWhile (· = c)).reverse.dropWhile (· = c)).reverse

/-- The characters that Unicode calls white space. -/
def isWhiteSpace (c : Char) : Bool :=
  (0x9 ≤ c.toNat && c.toNat ≤ 0xd) || c.toNat = 0x20 || c.toNat = 0x85 || c.toNat = 0xa0 || c.toNat = 0x1680 ||
    (0x2000 ≤ c.toNat && c.toNat ≤ 0x200a) || c.toNat = 0x2028 || c.toNat = 0x2029 || c.toNat = 0x202f ||
    c.toNat = 0x205f || c.toNat = 0x3000

/-- Nothing is left when the white space at the ends is cut off. -/
def isBlank : Bool := text.all isWhiteSpace

/-- The text without the white space at its ends. -/
def trim : Text := ((text.dropWhile isWhiteSpace).reverse.dropWhile isWhiteSpace).reverse

/-- The text with its ASCII letters in lower case. -/
def toAsciiLowercase : Text := text.map Char.toLower

/-- Equality up to the case of ASCII letters. -/
def eqIgnoreAsciiCase (other : Text) : Bool := text.toAsciiLowercase = other.toAsciiLowercase

end Text

theorem stripPrefix_eq_some_iff {s t rest : Text} :
    Text.stripPrefix s t = some rest ↔ t = s ++ rest := by
  induction s generalizing t with
  | nil => simp [Text.stripPrefix]
  | cons c s ih =>
    cases t with
    | nil => simp [Text.stripPrefix]
    | cons d t =>
      by_cases hcd : c = d
      · simp [Text.stripPrefix, hcd, ih]
      · simp [Text.stripPrefix, hcd, Ne.symm hcd]

namespace Text

/-! ### Cutting -/

variable {p : Char → Bool} {s : Text} {c : Char}

theorem splitOnce_append {r : Text} (hst : ∀ d ∈ s, p d = false)
    (hc : p c = true) : splitOnce p (s ++ c :: r) = some (s, r) := by
  induction s with
  | nil => simp [splitOnce, hc]
  | cons d s ih =>
    obtain ⟨hd, hst⟩ := forall_mem_cons.mp hst
    simp [splitOnce, hd, ih hst]

theorem rsplitOnce_append {r : Text} (hr : ∀ d ∈ r, p d = false)
    (hc : p c = true) : rsplitOnce p (s ++ c :: r) = some (s, r) := by
  have hre : (s ++ c :: r).reverse = r.reverse ++ c :: s.reverse := by simp
  rw [rsplitOnce, hre, splitOnce_append (fun d hd => hr d (mem_reverse.mp hd)) hc]
  simp

theorem split_of_forall {t : Text} (h : ∀ d ∈ t, p d = false) : split p t = [t] := by
  induction t with
  | nil => rfl
  | cons d t ih =>
    obtain ⟨hd, ht⟩ := forall_mem_cons.mp h
    simp [split, hd, ih ht]

theorem split_append {rest : Text} (hst : ∀ d ∈ s, p d = false)
    (hc : p c = true) : split p (s ++ c :: rest) = s :: split p rest := by
  induction s with
  | nil => simp [split, hc]
  | cons d s ih =>
    obtain ⟨hd, hst⟩ := forall_mem_cons.mp hst
    simp [split, hd, ih hst]

/-! ### Bytes -/

variable (t : Text)

theorem bytes_append (other : Text) : bytes (t ++ other) = bytes t ++ bytes other := flatMap_append

theorem length_bytes : (bytes t).length = t.len := by
  rw [bytes, length_flatMap, len]
  simp [String.length_utf8EncodeChar]

theorem len_append (other : Text) : len (t ++ other) = len t + len other := by
  simp [len]

theorem len_cons (c : Char) (text : Text) : len (c :: text) = c.utf8Size + len text := by
  simp [len]

/-- A text of ASCII characters has as many bytes as characters. -/
theorem len_eq_length {t : Text} (h : ∀ c ∈ t, c.utf8Size = 1) : t.len = t.length := by
  rw [len, map_congr_left h]
  simp

/-! ### White space at the ends -/

/-- There is no white space at the ends. -/
def Trimmed (text : Text) : Prop :=
  (∀ c ∈ text.head?, isWhiteSpace c = false) ∧ ∀ c ∈ text.getLast?, isWhiteSpace c = false

theorem dropWhile_eq_self {text : Text} (h : ∀ c ∈ text.head?, p c = false) : text.dropWhile p = text := by
  cases text with
  | nil => rfl
  | cons c text => rw [dropWhile_cons_of_neg (by simp [h c rfl])]

theorem head?_dropWhile : ∀ c ∈ (t.dropWhile p).head?, p c = false := by
  intro c hc
  have hd := List.head?_dropWhile_not p t
  rw [hc] at hd
  simpa using hd

theorem trim_eq_self {text : Text} (h : Trimmed text) : trim text = text := by
  have hl : ∀ c ∈ text.reverse.head?, isWhiteSpace c = false := by
    rw [List.head?_reverse]
    exact h.2
  rw [trim, dropWhile_eq_self h.1, dropWhile_eq_self hl, reverse_reverse]

theorem trim_isPrefix : trim t <+: t.dropWhile isWhiteSpace := by
  rw [trim, ← reverse_suffix, reverse_reverse]
  exact dropWhile_suffix _

theorem trim_isInfix (text : Text) : trim text <:+: text :=
  (trim_isPrefix text).isInfix.trans (dropWhile_suffix _).isInfix

theorem trimmed_trim : Trimmed (trim t) := by
  constructor
  · -- the first character is the first one of the text that is not white space
    intro c hc
    obtain ⟨rest, hr⟩ := trim_isPrefix t
    refine head?_dropWhile t c ?_
    rw [← hr, List.head?_append, show (trim t).head? = some c from hc]
    rfl
  · intro c hc
    rw [trim, List.getLast?_reverse] at hc
    exact head?_dropWhile _ c hc

end Text

end IronAuth
