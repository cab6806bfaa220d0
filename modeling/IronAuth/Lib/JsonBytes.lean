import IronAuth.Lib.Scan
import Mathlib.Data.Nat.Digits.Lemmas

/-!
# The bytes of a flat JSON object

The compact text of a JSON object whose values are strings, integers or null, byte by byte. A string
is its bytes: the quote, the backslash and the control characters are escaped, every other byte stands
for itself.

Two facts make such a text safe to hash behind other bytes: it determines its members
(`object_injective`), and it is never a proper suffix of another such text whose first key begins with
a plain letter (`object_suffix`).
-/

namespace IronAuth.Lib.JsonBytes

open List

abbrev Bytes := List UInt8

/-- The bytes of an ASCII text. -/
def ascii (text : String) : Bytes := text.toList.map fun c => UInt8.ofNat c.toNat

/-! ### Hexadecimal -/

/-- A lower-case hexadecimal digit. -/
def hexDigit (n : UInt8) : UInt8 := if n < 10 then 48 + n else 87 + n

/-- The value of a lower-case hexadecimal digit. -/
def hexValue (d : UInt8) : UInt8 := if d < 58 then d - 48 else d - 87

variable (b : UInt8)

theorem hexValue_hexDigit : 16 * hexValue (hexDigit (b / 16)) + hexValue (hexDigit (b % 16)) = b := by
  have ha : ∀ n : Fin 256, 16 * hexValue (hexDigit (UInt8.ofNat n.val / 16)) + hexValue (hexDigit (UInt8.ofNat n.val % 16)) =
      UInt8.ofNat n.val := by decide +kernel
  have hb := ha ⟨b.toNat, UInt8.toNat_lt b⟩
  rwa [UInt8.ofNat_toNat] at hb

/-- Two lower-case digits for each byte. -/
def hex : Bytes → Bytes
  | [] => []
  | b :: bs => hexDigit (b / 16) :: hexDigit (b % 16) :: hex bs

theorem hex_injective : Function.Injective hex := by
  intro bs
  induction bs with
  | nil =>
    intro bs' h
    cases bs' with
    | nil => rfl
    | cons b' bs' => simp [hex] at h
  | cons b bs ih =>
    intro bs' h
    cases bs' with
    | nil => simp [hex] at h
    | cons b' bs' =>
      simp only [hex, List.cons.injEq] at h
      obtain ⟨hh, hl, hr⟩ := h
      rw [← hexValue_hexDigit b, hh, hl, hexValue_hexDigit, ih hr]

/-! ### Strings -/

/-- One byte of a string as it is written. -/
def escape : Bytes :=
  if b = 34 then [92, 34]
  else if b = 92 then [92, 92]
  else if b = 8 then [92, 98]
  else if b = 9 then [92, 116]
  else if b = 10 then [92, 110]
  else if b = 12 then [92, 102]
  else if b = 13 then [92, 114]
  else if b < 32 then [92, 117, 48, 48, hexDigit (b / 16), hexDigit (b % 16)]
  else [b]

def escaped (s : Bytes) : Bytes := s.flatMap escape

def quoted (s : Bytes) : Bytes := 34 :: (escaped s ++ [34])

/-- What stands behind a backslash. -/
def readEscape : Bytes → Option (UInt8 × Bytes)
  | [] => none
  | c :: rest =>
    if c = 117 then
      match rest with
      | _ :: _ :: h :: l :: rest => some (16 * hexValue h + hexValue l, rest)
      | _ => none
    else if c = 98 then some (8, rest)
    else if c = 116 then some (9, rest)
    else if c = 110 then some (10, rest)
    else if c = 102 then some (12, rest)
    else if c = 114 then some (13, rest)
    else some (c, rest)

/-- The first byte of a string, read back from how it is written. -/
def unescape : Bytes → Option (UInt8 × Bytes)
  | [] => none
  | b :: rest => if b = 92 then readEscape rest else some (b, rest)

theorem unescape_escape (r : Bytes) : unescape (escape b ++ r) = some (b, r) := by
  unfold escape
  split_ifs with h1 h2 h3 h4 h5 h6 h7 h8
  · rw [h1]; rfl
  · rw [h2]; rfl
  · rw [h3]; rfl
  · rw [h4]; rfl
  · rw [h5]; rfl
  · rw [h6]; rfl
  · rw [h7]; rfl
  · simp [unescape, readEscape, hexValue_hexDigit b]
  · simp [unescape, h2]

/-- What is written for a byte does not begin with a quote. -/
theorem escape_eq_cons : ∃ c t, escape b = c :: t ∧ c ≠ 34 := by
  unfold escape
  split_ifs with h1
  all_goals first
    | exact ⟨_, _, rfl, by decide⟩
    | exact ⟨_, _, rfl, h1⟩

variable {r r' : Bytes} {d d' : UInt8}

/-- A written string ends at its first unescaped quote. -/
theorem escaped_append_inj {s s' : Bytes} (h : escaped s ++ 34 :: r = escaped s' ++ 34 :: r') : s = s' ∧ r = r' := by
  induction s generalizing s' with
  | nil =>
    cases s' with
    | nil => simpa [escaped] using h
    | cons b' s' =>
      obtain ⟨c, t, hc, hne⟩ := escape_eq_cons b'
      simp [escaped, hc, hne.symm] at h
  | cons b s ih =>
    cases s' with
    | nil =>
      obtain ⟨c, t, hc, hne⟩ := escape_eq_cons b
      simp [escaped, hc, hne] at h
    | cons b' s' =>
      simp only [escaped, flatMap_cons, append_assoc] at h
      have hr := congrArg unescape h
      rw [unescape_escape, unescape_escape] at hr
      simp only [Option.some.injEq, Prod.mk.injEq] at hr
      obtain ⟨rfl, hs⟩ := hr
      obtain ⟨rfl, rfl⟩ := ih hs
      exact ⟨rfl, rfl⟩

/-! ### Integers -/

/-- A natural number in decimal. -/
def natural (n : ℕ) : Bytes :=
  if n = 0 then [48] else (Nat.digits 10 n).reverse.map fun d => UInt8.ofNat (48 + d)

def decimal (n : ℤ) : Bytes := if n < 0 then 45 :: natural n.natAbs else natural n.natAbs

def numeral : Bool := b = 45 ∨ (48 ≤ b ∧ b ≤ 57)

/-- A natural number is written with digits, at least one. -/
theorem natural_digits (n : ℕ) : natural n ≠ [] ∧ ∀ b ∈ natural n, numeral b = true ∧ b ≠ 45 := by
  unfold natural
  split_ifs with h
  · simp [numeral]
  · constructor
    · simp [Nat.digits_ne_nil_iff_ne_zero, h]
    · intro b hb
      obtain ⟨d, hd, rfl⟩ := mem_map.mp hb
      have ha : ∀ n : Fin 10, numeral (UInt8.ofNat (48 + n.val)) = true ∧ UInt8.ofNat (48 + n.val) ≠ 45 := by decide
      exact ha ⟨d, Nat.digits_lt_base (by norm_num) (mem_reverse.mp hd)⟩

/-- The number a run of digits stands for. -/
def readNatural (bs : Bytes) : ℕ := Nat.ofDigits 10 (bs.reverse.map fun b => b.toNat - 48)

theorem readNatural_natural (n : ℕ) : readNatural (natural n) = n := by
  unfold readNatural natural
  split_ifs with h
  · rw [h]; rfl
  · have hdi : ∀ d ∈ Nat.digits 10 n, ((fun b : UInt8 => b.toNat - 48) ∘ fun d => UInt8.ofNat (48 + d)) d = id d := by
      intro d hd
      have hlt : d < 10 := Nat.digits_lt_base (by norm_num) hd
      simp only [Function.comp_apply, UInt8.toNat_ofNat', id_eq]
      omega
    rw [← map_reverse, reverse_reverse, map_map, map_congr_left hdi, map_id, Nat.ofDigits_digits]

theorem decimal_injective : Function.Injective decimal := by
  intro n n' h
  have hmi : ∀ m : ℕ, ∀ t, natural m ≠ 45 :: t := by
    intro m t hm
    exact ((natural_digits m).2 45 (by rw [hm]; exact mem_cons_self)).2 rfl
  have ha : ∀ {m m' : ℕ}, natural m = natural m' → m = m' := by
    intro m m' hm
    rw [← readNatural_natural m, hm, readNatural_natural]
  unfold decimal at h
  split_ifs at h with h1 h2 h2
  · have := ha (List.cons.inj h).2
    omega
  · exact absurd h.symm (hmi _ _)
  · exact absurd h (hmi _ _)
  · have := ha h
    omega

/-- An integer is written with digits and at most a sign, at least one of them. -/
theorem decimal_numerals (n : ℤ) : decimal n ≠ [] ∧ ∀ b ∈ decimal n, numeral b = true := by
  have hn := natural_digits n.natAbs
  unfold decimal
  split_ifs with h
  · refine ⟨cons_ne_nil _ _, ?_⟩
    intro b hb
    rcases mem_cons.mp hb with rfl | hb
    · rfl
    · exact (hn.2 b hb).1
  · exact ⟨hn.1, fun b hb => (hn.2 b hb).1⟩

/-- A written integer ends at the first byte that is no numeral. -/
theorem decimal_append_inj {n n' : ℤ} (hd : numeral d = false) (hd' : numeral d' = false)
    (h : decimal n ++ d :: r = decimal n' ++ d' :: r') : n = n' ∧ d = d' ∧ r = r' := by
  obtain ⟨hde, hr⟩ := Scan.append_inj_of_scan (decimal_numerals n).2 (decimal_numerals n').2 (Scan.delimited_cons hd r)
    (Scan.delimited_cons hd' r') h
  exact ⟨decimal_injective hde, List.cons.inj hr⟩

/-! ### Objects -/

/-- The value of a member. -/
inductive Value where
  | null
  | string (s : Bytes)
  | integer (n : ℤ)
  deriving DecidableEq

def Value.text : Value → Bytes
  | .null => ascii "null"
  | .string s => quoted s
  | .integer n => decimal n

def member (m : Bytes × Value) : Bytes := quoted m.1 ++ 58 :: m.2.text

def members : List (Bytes × Value) → Bytes
  | [] => [125]
  | [m] => member m ++ [125]
  | m :: m' :: rest => member m ++ 44 :: members (m' :: rest)

def object (ms : List (Bytes × Value)) : Bytes := 123 :: members ms

/-- The bytes that can follow a value: the comma and the closing brace. -/
def Follows (d : UInt8) : Prop := d = 44 ∨ d = 125

theorem Follows.not_numeral (h : Follows d) : numeral d = false := by
  rcases h with rfl | rfl <;> rfl

theorem quoted_append (s r : Bytes) : quoted s ++ r = 34 :: (escaped s ++ 34 :: r) := by
  simp [quoted]

theorem Value.text_append_inj {v v' : Value} (hd : Follows d) (hd' : Follows d')
    (h : v.text ++ d :: r = v'.text ++ d' :: r') : v = v' ∧ d = d' ∧ r = r' := by
  -- The first byte tells the kinds apart: a numeral is neither the quote nor the letter of null.
  have hi : ∀ (n : ℤ) (c : UInt8) (t t' : Bytes), decimal n ++ t = c :: t' → numeral c = true := by
    intro n c t t' hn
    obtain ⟨b, bs, hb⟩ := exists_cons_of_ne_nil (decimal_numerals n).1
    rw [hb, cons_append, List.cons.injEq] at hn
    rw [← hn.1]
    exact (decimal_numerals n).2 b (by rw [hb]; exact mem_cons_self)
  cases v with
  | null =>
    cases v' with
    | null => exact ⟨rfl, by simpa [Value.text] using h⟩
    | string s' => simp [Value.text, quoted, ascii] at h
    | integer n' => exact absurd (hi n' 110 _ _ h.symm) (by decide)
  | string s =>
    cases v' with
    | null => simp [Value.text, quoted, ascii] at h
    | string s' =>
      simp only [Value.text, quoted_append, List.cons.injEq, true_and] at h
      obtain ⟨rfl, hr⟩ := escaped_append_inj h
      exact ⟨rfl, by simpa using hr⟩
    | integer n' => exact absurd (hi n' 34 _ _ h.symm) (by decide)
  | integer n =>
    cases v' with
    | null => exact absurd (hi n 110 _ _ h) (by decide)
    | string s' => exact absurd (hi n 34 _ _ h) (by decide)
    | integer n' =>
      obtain ⟨rfl, hr⟩ := decimal_append_inj hd.not_numeral hd'.not_numeral h
      exact ⟨rfl, hr⟩

theorem member_append_inj {m m' : Bytes × Value} (hd : Follows d) (hd' : Follows d')
    (h : member m ++ d :: r = member m' ++ d' :: r') : m = m' ∧ d = d' ∧ r = r' := by
  simp only [member, append_assoc, cons_append, quoted_append, List.cons.injEq, true_and] at h
  obtain ⟨hk, hre⟩ := escaped_append_inj h
  obtain ⟨hv, hd, hr⟩ := Value.text_append_inj hd hd' (List.cons.inj hre).2
  exact ⟨Prod.ext hk hv, hd, hr⟩

/-- The members begin with a quote, and the text of no members is the closing brace. -/
theorem members_cons_ne_nil (m : Bytes × Value) (ms : List (Bytes × Value)) : members (m :: ms) ≠ members [] := by
  cases ms <;> simp [members, member, quoted]

theorem members_injective : Function.Injective members := by
  intro ms
  induction ms with
  | nil =>
    intro ms' h
    cases ms' with
    | nil => rfl
    | cons m' ms' => exact absurd h.symm (members_cons_ne_nil m' ms')
  | cons m ms ih =>
    intro ms' h
    cases ms' with
    | nil => exact absurd h (members_cons_ne_nil m ms)
    | cons m' ms' =>
      -- What follows the first member tells whether there is another one.
      cases ms with
      | nil =>
        cases ms' with
        | nil =>
          obtain ⟨rfl, -⟩ := member_append_inj (.inr rfl) (.inr rfl) h
          rfl
        | cons m'' r' =>
          obtain ⟨-, hd, -⟩ := member_append_inj (.inr rfl) (.inl rfl) h
          exact absurd hd (by decide)
      | cons m2 rest =>
        cases ms' with
        | nil =>
          obtain ⟨-, hd, -⟩ := member_append_inj (.inl rfl) (.inr rfl) h
          exact absurd hd (by decide)
        | cons m'' r' =>
          obtain ⟨rfl, -, hr⟩ := member_append_inj (.inl rfl) (.inl rfl) h
          rw [ih hr]

theorem object_injective : Function.Injective object := by
  intro ms ms' h
  exact members_injective (List.cons.inj h).2

/-! ### No text is the end of another -/

/-- The bytes that can follow the closing quote of a string. -/
def closing (d : UInt8) : Bool := d = 44 ∨ d = 58 ∨ d = 125

/-- Whether an object with a first key opens here: a brace, a quote, and no byte that would make the quote a closing one. -/
def opensHere : Bytes → Bool
  | a :: q :: c :: _ => a = 123 ∧ q = 34 ∧ closing c = false
  | _ => false

/-- Whether an object with a first key opens anywhere. -/
def opens : Bytes → Bool
  | [] => false
  | a :: t => opensHere (a :: t) || opens t

theorem opens_append {t : Bytes} (x : Bytes) (h : opens t = true) : opens (x ++ t) = true := by
  induction x with
  | nil => exact h
  | cons a x ih => simp [opens, ih]

/-- Without a brace nothing opens. -/
theorem opens_cons_of_ne {a : UInt8} (h : a ≠ 123) (t : Bytes) : opens (a :: t) = opens t := by
  have hh : opensHere (a :: t) = false := by
    unfold opensHere
    split <;> simp_all
  simp [opens, hh]

theorem opens_append_of_notMem {x : Bytes} (h : 123 ∉ x) (t : Bytes) : opens (x ++ t) = opens t := by
  induction x with
  | nil => rfl
  | cons a x ih =>
    rw [mem_cons, not_or] at h
    rw [cons_append, opens_cons_of_ne (Ne.symm h.1), ih h.2]

/-- Only the brace itself is written with a brace, and then as it is. -/
theorem escape_brace : escape b = [123] ∨ 123 ∉ escape b := by
  have ha : ∀ n : Fin 256, escape (UInt8.ofNat n.val) = [123] ∨ 123 ∉ escape (UInt8.ofNat n.val) := by
    decide +kernel
  have hb := ha ⟨b.toNat, UInt8.toNat_lt b⟩
  rwa [UInt8.ofNat_toNat] at hb

/-- Inside a string nothing opens: a quote behind a brace closes the string. -/
theorem opens_escaped (s : Bytes) (hd : closing d = true) (r : Bytes) :
    opens (escaped s ++ 34 :: d :: r) = opens (d :: r) := by
  induction s with
  | nil => exact opens_cons_of_ne (by decide) _
  | cons b s ih =>
    simp only [escaped, flatMap_cons, append_assoc]
    rcases escape_brace b with hb | hb
    · have hh : opensHere (123 :: (escaped s ++ 34 :: d :: r)) = false := by
        cases s with
        | nil => simp [escaped, opensHere, hd]
        | cons b' s =>
          obtain ⟨c, t, hc, hne⟩ := escape_eq_cons b'
          simp only [escaped, flatMap_cons, hc, cons_append]
          unfold opensHere
          split <;> simp_all
      rw [hb, singleton_append, opens]
      rw [escaped] at hh ih
      rw [hh, ih, Bool.false_or]
    · rw [opens_append_of_notMem hb]
      exact ih

theorem opens_quoted (s : Bytes) (hd : closing d = true) (r : Bytes) : opens (quoted s ++ d :: r) = opens (d :: r) := by
  rw [quoted_append, opens_cons_of_ne (by decide), opens_escaped s hd]

theorem opens_text (v : Value) (hd : closing d = true) (r : Bytes) : opens (v.text ++ d :: r) = opens (d :: r) := by
  cases v with
  | null => exact opens_append_of_notMem (by decide) _
  | string s => exact opens_quoted s hd r
  | integer n =>
    refine opens_append_of_notMem ?_ _
    intro hm
    exact absurd ((decimal_numerals n).2 123 hm) (by decide)

theorem opens_member (m : Bytes × Value) (hd : closing d = true) (r : Bytes) :
    opens (member m ++ d :: r) = opens (d :: r) := by
  rw [member, append_assoc, cons_append, opens_quoted _ (by decide), opens_cons_of_ne (by decide), opens_text _ hd]

theorem opens_members (ms : List (Bytes × Value)) : opens (members ms) = false := by
  induction ms with
  | nil => rfl
  | cons m ms ih =>
    cases ms with
    | nil => exact opens_member m (by decide) []
    | cons m' rest => rw [members, opens_member m (by decide), opens_cons_of_ne (by decide), ih]

/-- An object with a first key that opens is no proper suffix of another object's text. -/
theorem object_suffix {ms ms' : List (Bytes × Value)} {x : Bytes} (hf : opens (object ms') = true)
    (h : object ms = x ++ object ms') : x = [] := by
  cases x with
  | nil => rfl
  | cons a x =>
    rw [object, cons_append, List.cons.injEq] at h
    have ho := opens_append x hf
    rw [← h.2, opens_members] at ho
    exact absurd ho (by decide)

end IronAuth.Lib.JsonBytes
