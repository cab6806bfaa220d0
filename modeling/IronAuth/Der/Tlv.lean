import IronAuth.Lib.Fallible
import Mathlib.Data.Nat.Digits.Lemmas

/-!
# The framing of DER values

`ironauth-der` reads and writes tag-length-value triples. The reader, `read_tlv`, refuses every
length that is not written in the shortest way; the writer, `len` of `write.rs`, writes the shortest.

A `usize` is a number below `2 ^ 64`, and a `Slice` is a run of octets whose length is one. The
loop of `len` that pushes `remaining & 0xFF` and shifts is `Nat.digits 256`.

## What is proved

* `readLength_eq_ok_iff`: a length is read off exactly the octets `len` writes for it.
* `tlv_framing`: reading undoes writing, and only what the writer writes is read.
-/

namespace IronAuth.Der

open Lib.Fallible List

/-- The refusals of `read_tlv` and `parse_time`, from `DerError`. -/
inductive DerError where
  | truncated
  | unexpectedTag
  | badLength
  | badValue
  deriving DecidableEq, Repr

/-- A `&[u8]`: its length is a `usize`. -/
abbrev Slice := { octets : List UInt8 // octets.length < 2 ^ 64 }

/-! ## The reader -/

/-- `split_at_checked`. -/
def splitAtChecked (slice : List UInt8) (mid : ℕ) : Except DerError (List UInt8 × List UInt8) := do
  refuseIf (slice.length < mid) .truncated
  return (slice.take mid, slice.drop mid)

/-- The loop of `read_tlv` over the length octets, with its checked multiplication and addition. -/
def lengthOf (octets : List UInt8) : Except DerError ℕ :=
  octets.foldlM (fun length b => do
    refuseIf (2 ^ 64 ≤ length * 256 + b.toNat) .badLength
    return length * 256 + b.toNat) 0

/-- The part of `read_tlv` that reads the length. -/
def readLength : List UInt8 → Except DerError (ℕ × List UInt8)
  | [] => .error .truncated
  | lenByte :: afterLenByte =>
    if lenByte &&& 0x80 = 0 then .ok (lenByte.toNat, afterLenByte)
    else do
      let numBytes := (lenByte &&& 0x7F).toNat
      refuseIf (numBytes = 0 ∨ 8 < numBytes) .badLength
      let (lenBytes, after) ← splitAtChecked afterLenByte numBytes
      refuseIf (lenBytes.head? = some 0) .badLength
      let length ← lengthOf lenBytes
      refuseIf (length < 0x80) .badLength
      return (length, after)

/-- `read_tlv`. -/
def readTlv : List UInt8 → Except DerError (UInt8 × List UInt8 × List UInt8)
  | [] => .error .truncated
  | tag :: afterTag => do
    refuseIf (tag &&& 0x1F = 0x1F) .unexpectedTag
    let (length, afterLength) ← readLength afterTag
    let (contents, rest) ← splitAtChecked afterLength length
    return (tag, contents, rest)

/-! ## The writer -/

/-- `bytes` of `len`, the most significant octet first. -/
def lengthBytes (value : ℕ) : List UInt8 := ((Nat.digits 256 value).map UInt8.ofNat).reverse

/-- `len`. -/
def len (value : ℕ) : List UInt8 :=
  if value < 0x80 then [UInt8.ofNat value]
  else (0x80 ||| UInt8.ofNat (lengthBytes value).length) :: lengthBytes value

/-- `tlv`. -/
def tlv (tagByte : UInt8) (contents : List UInt8) : List UInt8 := tagByte :: (len contents.length ++ contents)

/-! ## Length octets and numbers -/

/-- The number the octets write in base 256. -/
def numberOf (octets : List UInt8) : ℕ := Nat.ofDigits 256 (octets.reverse.map UInt8.toNat)

theorem numberOf_append_singleton (o : List UInt8) (b : UInt8) :
    numberOf (o ++ [b]) = numberOf o * 256 + b.toNat := by
  simp only [numberOf, reverse_append, reverse_singleton, singleton_append, map_cons, Nat.ofDigits_cons]
  omega

/-- Only a number that does not fit a `usize` is refused. -/
theorem lengthOf_eq (o : List UInt8) :
    lengthOf o = if numberOf o < 2 ^ 64 then .ok (numberOf o) else .error .badLength := by
  induction o using reverseRecOn with
  | nil => rfl
  | append_singleton o b ih =>
    rw [lengthOf, foldlM_append, ← lengthOf, ih, numberOf_append_singleton]
    by_cases h : numberOf o < 2 ^ 64
    · rw [if_pos h, ok_bind]
      simp only [foldlM_cons, foldlM_nil, refuseIf, bind_pure]
      split_ifs with hbig hfit
      · omega
      · rfl
      · rfl
      · omega
    · rw [if_neg h, if_neg (by omega), error_bind]

theorem toNat_reverse_lengthBytes (n : ℕ) : (lengthBytes n).reverse.map UInt8.toNat = Nat.digits 256 n := by
  rw [lengthBytes, reverse_reverse, map_map]
  refine (map_congr_left fun d hd => ?_).trans (map_id _)
  simpa using Nat.mod_eq_of_lt (Nat.digits_lt_base (by decide) hd)

theorem numberOf_lengthBytes (n : ℕ) : numberOf (lengthBytes n) = n := by
  rw [numberOf, toNat_reverse_lengthBytes, Nat.ofDigits_digits]

variable {n : ℕ} {r : List UInt8}

theorem head?_lengthBytes_ne (h : n ≠ 0) : (lengthBytes n).head? ≠ some 0 := by
  intro hz
  have hd : (Nat.digits 256 n).getLast? = some 0 := by
    rw [← toNat_reverse_lengthBytes, getLast?_map, getLast?_reverse, hz]
    rfl
  exact Nat.getLast_digit_ne_zero 256 h (getLast_of_mem_getLast? hd)

/-- Without a leading zero the octets are those the writer has for their number. -/
theorem lengthBytes_numberOf {octets : List UInt8} (h : octets.head? ≠ some 0) : lengthBytes (numberOf octets) = octets := by
  rw [lengthBytes, numberOf, Nat.digits_ofDigits 256 (by decide)]
  · simp [Function.comp_def]
  · simp only [mem_map]
    rintro _ ⟨b, -, rfl⟩
    exact b.toNat_lt
  · intro hne hz
    have hl : (octets.reverse.map UInt8.toNat).getLast? = some 0 := by rw [getLast?_eq_getLast_of_ne_nil hne, hz]
    rw [getLast?_map, getLast?_reverse, Option.map_eq_some_iff] at hl
    obtain ⟨b, hb, h0⟩ := hl
    exact h (by rw [hb, show b = 0 from UInt8.toNat_inj.mp h0])

theorem length_lengthBytes_le (h : n < 2 ^ 64) : (lengthBytes n).length ≤ 8 := by
  rw [lengthBytes, length_reverse, length_map, Nat.digits_length_le_iff (by decide)]
  exact h

/-! ## The first length octet -/

theorem forall_octet {P : UInt8 → Prop} (h : ∀ n < 256, P (UInt8.ofNat n)) (b : UInt8) : P b := by
  simpa using h b.toNat b.toNat_lt

theorem short_form_iff (b : UInt8) : b &&& 0x80 = 0 ↔ b.toNat < 0x80 := by
  revert b
  exact forall_octet (by decide +kernel)

theorem long_form_eq (b : UInt8) (h : b &&& 0x80 ≠ 0) : 0x80 ||| UInt8.ofNat (b &&& 0x7F).toNat = b := by
  revert b
  exact forall_octet (by decide +kernel)

theorem long_form_count : ∀ k ≤ 8, (0x80 ||| UInt8.ofNat k) &&& 0x80 ≠ 0 ∧ ((0x80 ||| UInt8.ofNat k) &&& 0x7F).toNat = k := by
  decide +kernel

/-! ## Lengths and triples -/

theorem splitAtChecked_eq_ok_iff {s c : List UInt8} {mid : ℕ} :
    splitAtChecked s mid = .ok (c, r) ↔ s = c ++ r ∧ c.length = mid := by
  simp only [splitAtChecked, check_bind_eq_ok_iff, refuseIf_eq_ok_iff, not_lt, pure, Except.pure, Except.ok.injEq,
    Prod.mk.injEq]
  constructor
  · rintro ⟨h, rfl, rfl⟩
    exact ⟨(take_append_drop _ _).symm, length_take_of_le h⟩
  · rintro ⟨rfl, rfl⟩
    simp

theorem readLength_len (h : n < 2 ^ 64) (r : List UInt8) : readLength (len n ++ r) = .ok (n, r) := by
  rw [len]
  split_ifs with hs
  · have ht : (UInt8.ofNat n).toNat = n := by simpa using by omega
    simp [readLength, short_form_iff, ht, hs]
  · obtain ⟨hl, hc⟩ := long_form_count _ (length_lengthBytes_le h)
    have hne : lengthBytes n ≠ [] := by
      simp only [lengthBytes, ne_eq, reverse_eq_nil_iff, map_eq_nil_iff, Nat.digits_eq_nil_iff_eq_zero]
      omega
    have hk : ¬ ((lengthBytes n).length = 0 ∨ 8 < (lengthBytes n).length) := by
      simp [hne, length_lengthBytes_le h]
    simp only [cons_append, readLength, if_neg hl, hc, refuseIf_neg hk, splitAtChecked_eq_ok_iff.mpr ⟨rfl, rfl⟩, lengthOf_eq,
      numberOf_lengthBytes, if_pos h, refuseIf_neg (head?_lengthBytes_ne (n := n) (by omega)), refuseIf_neg hs, ok_bind,
      pure, Except.pure]

theorem readLength_eq_ok_iff {o : List UInt8} :
    readLength o = .ok (n, r) ↔ o = len n ++ r ∧ n < 2 ^ 64 := by
  refine ⟨fun h => ?_, by rintro ⟨rfl, h⟩; exact readLength_len h r⟩
  cases o with
  | nil => cases h
  | cons lb after =>
    rw [readLength] at h
    split_ifs at h with hs
    · cases h
      have hlt := (short_form_iff lb).mp hs
      simp [len, hlt]
      omega
    · simp only [exists_unit_iff, bind_eq_ok_iff, refuseIf_eq_ok_iff, Prod.exists, splitAtChecked_eq_ok_iff,
        lengthOf_eq, pure, Except.pure, Except.ok.injEq, Prod.mk.injEq] at h
      obtain ⟨-, l, _, ⟨rfl, hl⟩, hz, _, hm, hb, rfl, rfl⟩ := h
      split_ifs at hm with hfit
      cases hm
      rw [len, if_neg hb, lengthBytes_numberOf hz, hl, long_form_eq _ hs]
      exact ⟨rfl, hfit⟩

/-- A triple is read off exactly the octets the writer writes for it. -/
theorem readTlv_eq_ok_iff {i co rest : List UInt8} {tag : UInt8} :
    readTlv i = .ok (tag, co, rest) ↔
      tag &&& 0x1F ≠ 0x1F ∧ co.length < 2 ^ 64 ∧ i = tlv tag co ++ rest := by
  cases i with
  | nil => simp [readTlv, tlv]
  | cons t a =>
    simp only [readTlv, exists_unit_iff, bind_eq_ok_iff, refuseIf_eq_ok_iff, Prod.exists, splitAtChecked_eq_ok_iff,
      readLength_eq_ok_iff, pure, Except.pure, Except.ok.injEq, Prod.mk.injEq, tlv, cons_append, append_assoc, cons.injEq]
    constructor
    · rintro ⟨ht, n, after, ⟨rfl, hn⟩, c, r, ⟨rfl, rfl⟩, rfl, rfl, rfl⟩
      exact ⟨ht, hn, rfl, rfl⟩
    · rintro ⟨ht, hn, rfl, rfl⟩
      exact ⟨ht, _, _, ⟨rfl, hn⟩, _, _, ⟨rfl, rfl⟩, rfl, rfl, rfl⟩

/-- The encoding is unique: reading undoes writing for every tag in the low-tag-number form, and what is read
was written that way. -/
theorem tlv_framing :
    (∀ (tag : UInt8) (contents : Slice) (rest : List UInt8), tag &&& 0x1F ≠ 0x1F →
      readTlv (tlv tag contents ++ rest) = .ok (tag, contents.1, rest)) ∧
    ∀ (input contents rest : List UInt8) (tag : UInt8), readTlv input = .ok (tag, contents, rest) →
      input = tlv tag contents ++ rest := by
  constructor
  · intro tag contents rest ht
    exact readTlv_eq_ok_iff.mpr ⟨ht, contents.2, rfl⟩
  · intro input contents rest tag h
    exact (readTlv_eq_ok_iff.mp h).2.2

/-- The two readings at an `OCTET STRING` of one octet. -/
theorem octetString_framed :
    readTlv (tlv 0x04 [0x2A] ++ [0x05]) = .ok (0x04, [0x2A], [0x05]) ∧
      [0x04, 0x01, 0x2A, 0x05] = tlv 0x04 [0x2A] ++ [0x05] :=
  ⟨tlv_framing.1 0x04 ⟨[0x2A], by decide⟩ [0x05] (by decide),
    tlv_framing.2 [0x04, 0x01, 0x2A, 0x05] [0x2A] [0x05] 0x04 (by decide)⟩

end IronAuth.Der
