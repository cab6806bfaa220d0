import IronAuth.Lib.Text

/-!
# base64url without padding

Three bytes are four symbols; what is left at the end is two symbols for one byte and three for
two, and the bits that such a group does not use are zero. A text is decoded only when it is
the encoding of something.

## What is proved

* `decode_encode`: what is encoded is decoded again.
* `length_encode`: the number of symbols.
* `mem_alphabet_of_mem_encode`: an encoding consists of symbols.
-/

namespace IronAuth.Lib.Base64Url

open Option

/-- The symbols, by their value. -/
def alphabet : List Char :=
  ['A', 'B', 'C', 'D', 'E', 'F', 'G', 'H', 'I', 'J', 'K', 'L', 'M', 'N', 'O', 'P', 'Q', 'R', 'S', 'T', 'U', 'V',
    'W', 'X', 'Y', 'Z', 'a', 'b', 'c', 'd', 'e', 'f', 'g', 'h', 'i', 'j', 'k', 'l', 'm', 'n', 'o', 'p', 'q', 'r',
    's', 't', 'u', 'v', 'w', 'x', 'y', 'z', '0', '1', '2', '3', '4', '5', '6', '7', '8', '9', '-', '_']

/-- The symbol of six bits. -/
def symbol (n : ℕ) : Char := alphabet.getD n 'A'

/-- The value of a symbol. -/
def value (c : Char) : Option ℕ := alphabet.idxOf? c

/-- The encoding of a string of bytes. -/
def encode : List UInt8 → Text
  | [] => []
  | [a] => [symbol (a.toNat / 4), symbol (a.toNat % 4 * 16)]
  | [a, b] => [symbol (a.toNat / 4), symbol (a.toNat % 4 * 16 + b.toNat / 16), symbol (b.toNat % 16 * 4)]
  | a :: b :: c :: rest =>
    symbol (a.toNat / 4) :: symbol (a.toNat % 4 * 16 + b.toNat / 16) :: symbol (b.toNat % 16 * 4 + c.toNat / 64) ::
      symbol (c.toNat % 64) :: encode rest

/-- The bytes of a text, when it is an encoding. -/
def decode : Text → Option (List UInt8)
  | [] => some []
  | [_] => none
  | [w, x] => do
    let w ← value w
    let x ← value x
    if x % 16 = 0 then some [UInt8.ofNat (w * 4 + x / 16)] else none
  | [w, x, y] => do
    let w ← value w
    let x ← value x
    let y ← value y
    if y % 4 = 0 then some [UInt8.ofNat (w * 4 + x / 16), UInt8.ofNat (x % 16 * 16 + y / 4)] else none
  | w :: x :: y :: z :: rest => do
    let w ← value w
    let x ← value x
    let y ← value y
    let z ← value z
    let rest ← decode rest
    some (UInt8.ofNat (w * 4 + x / 16) :: UInt8.ofNat (x % 16 * 16 + y / 4) :: UInt8.ofNat (y % 4 * 64 + z) :: rest)

theorem value_symbol {n : ℕ} (h : n < 64) : value (symbol n) = some n := by
  have ha : ∀ n < 64, value (symbol n) = some n := by decide
  exact ha n h

theorem symbol_mem_alphabet (n : ℕ) : symbol n ∈ alphabet := by
  rw [symbol, List.getD_eq_getElem?_getD]
  cases h : alphabet[n]? with
  | none => decide
  | some c => exact List.mem_of_getElem? h

variable {c : Char}

/-- No symbol is a dot. -/
theorem ne_dot_of_mem_alphabet (h : c ∈ alphabet) : c ≠ '.' := by
  have ha : alphabet.all (fun c => c != '.') = true := by decide
  simpa using List.all_eq_true.mp ha c h

/-- Every symbol is one byte. -/
theorem utf8Size_of_mem_alphabet (h : c ∈ alphabet) : c.utf8Size = 1 := by
  have ha : alphabet.all (fun c => c.utf8Size = 1) = true := by decide
  simpa using List.all_eq_true.mp ha c h

theorem mem_alphabet_of_mem_encode {bt : List UInt8} (h : c ∈ encode bt) : c ∈ alphabet := by
  induction bt using encode.induct with
  | case1 => cases h
  | case2 a =>
    simp only [encode, List.mem_cons, List.not_mem_nil, or_false] at h
    rcases h with rfl | rfl <;> exact symbol_mem_alphabet _
  | case3 a b =>
    simp only [encode, List.mem_cons, List.not_mem_nil, or_false] at h
    rcases h with rfl | rfl | rfl <;> exact symbol_mem_alphabet _
  | case4 a b d rest ih =>
    simp only [encode, List.mem_cons] at h
    rcases h with rfl | rfl | rfl | rfl | h
    iterate 4 exact symbol_mem_alphabet _
    exact ih h

/-- Four symbols for three bytes, and what is left rounded up. -/
theorem length_encode (bt : List UInt8) : (encode bt).length = (bt.length * 4 + 2) / 3 := by
  induction bt using encode.induct with
  | case1 => rfl
  | case2 | case3 => simp [encode]
  | case4 a b c rest ih =>
    simp only [encode, List.length_cons, ih]
    omega

/-- A byte put together from its bits. -/
theorem ofNat_eq {a : UInt8} {n : ℕ} (h : n = a.toNat) : UInt8.ofNat n = a := by
  rw [h]
  exact UInt8.ofNat_toNat

/-- **What is encoded is decoded again.** -/
theorem decode_encode (bytes : List UInt8) : decode (encode bytes) = some bytes := by
  induction bytes using encode.induct with
  | case1 => rfl
  | case2 a =>
    have ha := a.toNat_lt
    simp only [encode, decode, value_symbol (show a.toNat / 4 < 64 by omega),
      value_symbol (show a.toNat % 4 * 16 < 64 by omega), bind_eq_bind, bind_some]
    rw [if_pos (by omega), ofNat_eq (a := a) (by omega)]
  | case3 a b =>
    have ha := a.toNat_lt
    have hb := b.toNat_lt
    simp only [encode, decode, value_symbol (show a.toNat / 4 < 64 by omega),
      value_symbol (show a.toNat % 4 * 16 + b.toNat / 16 < 64 by omega),
      value_symbol (show b.toNat % 16 * 4 < 64 by omega), bind_eq_bind, bind_some]
    rw [if_pos (by omega), ofNat_eq (a := a) (by omega), ofNat_eq (a := b) (by omega)]
  | case4 a b c rest ih =>
    have ha := a.toNat_lt
    have hb := b.toNat_lt
    have hc := c.toNat_lt
    simp only [encode, decode, value_symbol (show a.toNat / 4 < 64 by omega),
      value_symbol (show a.toNat % 4 * 16 + b.toNat / 16 < 64 by omega),
      value_symbol (show b.toNat % 16 * 4 + c.toNat / 64 < 64 by omega),
      value_symbol (show c.toNat % 64 < 64 by omega), ih, bind_eq_bind, bind_some]
    rw [ofNat_eq (a := a) (by omega), ofNat_eq (a := b) (by omega), ofNat_eq (a := c) (by omega)]

end IronAuth.Lib.Base64Url
