import IronAuth.Saml.Verify

/-!
# The spellings of a base64 value

`decode_base64` drops the bits that are left over after the last octet, and takes any number of
padding signs, or none. So a value has more than one spelling, and two of them are one only if they
end alike.

## What is proved

* `decodeBase64From_eq_some`: what the loop accepts, and the number that it computes.
* `sameSpelling_iff`: when two spellings of a value are the same.
* `unpadded_decodes`: a value spelled with and without its padding.
-/

namespace IronAuth.Saml

open List

/-- A text without the whitespace that `decode_base64` skips. -/
def stripWhitespace (text : Text) : Text := text.filter fun c => !isAsciiWhitespace c

/-- The six-bit values of the characters of a text. -/
def sextets (text : Text) : List ℕ := text.filterMap fun c => base64Table.findIdx? (· = c)

/-- The bits of the last character that reach no octet. -/
def spareBits (text : Text) : ℕ := (sextets text).getLastD 0 % 2 ^ (6 * (sextets text).length % 8)

/-- Two texts with as many characters of the alphabet and signs of padding, and the same spare bits. -/
structure EndAlike (text other : Text) : Prop where
  length : (sextets text).length = (sextets other).length
  padding : text.count '=' = other.count '='
  spare : spareBits text = spareBits other

/-- The number that digits write after a number. -/
def numberAfter (base : ℕ) (n : ℕ) (digits : List ℕ) : ℕ := digits.foldl (fun n d => n * base + d) n

theorem numberAfter_cons (b n i : ℕ) (l : List ℕ) : numberAfter b n (i :: l) = numberAfter b (n * b + i) l := rfl

/-! ### Characters -/

theorem not_whitespace_of_index {c : Char} {i : ℕ} (h : base64Table.findIdx? (· = c) = some i) :
    isAsciiWhitespace c = false ∧ c ≠ '=' ∧ i < 64 ∧ base64Table.getD i '=' = c := by
  have ht : ∀ i < 64, isAsciiWhitespace (base64Table.getD i '=') = false ∧ base64Table.getD i '=' ≠ '=' := by decide +kernel
  obtain ⟨hi, hc, -⟩ := findIdx?_eq_some_iff_getElem.mp h
  have hg : base64Table.getD i '=' = c := (getD_eq_getElem _ _ hi).trans (of_decide_eq_true hc)
  obtain ⟨hw, he⟩ := ht i hi
  rw [hg] at hw he
  exact ⟨hw, he, hi, hg⟩

theorem index_eq_none {c : Char} (h : isAsciiWhitespace c = true ∨ c = '=') : base64Table.findIdx? (· = c) = none := by
  refine Option.eq_none_iff_forall_ne_some.mpr fun i hi => ?_
  obtain ⟨hw, he, -⟩ := not_whitespace_of_index hi
  rw [hw] at h
  simp [he] at h

theorem sextets_lt (t : Text) : ∀ i ∈ sextets t, i < 64 := by
  intro i hi
  obtain ⟨c, -, hc⟩ := mem_filterMap.mp hi
  exact (not_whitespace_of_index hc).2.2.1

theorem sextets_stripWhitespace (text : Text) : sextets (stripWhitespace text) = sextets text := by
  rw [sextets, stripWhitespace, filterMap_filter]
  refine filterMap_congr fun c _ => ?_
  cases hw : isAsciiWhitespace c with
  | false => rfl
  | true => exact (index_eq_none (.inl hw)).symm

theorem count_stripWhitespace (t : Text) : (stripWhitespace t).count '=' = t.count '=' := count_filter rfl

/-! ### The loop -/

/-- One character: its six bits follow those that are left, and the next octet takes eight of them. -/
theorem numberAfter_sextet (n acc : ℕ) {b i : ℕ} (hb : b % 2 = 0 ∧ b < 8) (hi : i < 64) :
    let acc' := (acc * 64 + i) % 2 ^ 32
    (8 ≤ b + 6 → (n * 256 + acc' / 2 ^ (b + 6 - 8) % 256) * 2 ^ (b + 6 - 8) + acc' % 2 ^ (b + 6 - 8) =
      (n * 2 ^ b + acc % 2 ^ b) * 64 + i) ∧
    n * 2 ^ (b + 6) + acc' % 2 ^ (b + 6) = (n * 2 ^ b + acc % 2 ^ b) * 64 + i := by
  obtain rfl | rfl | rfl | rfl : b = 0 ∨ b = 2 ∨ b = 4 ∨ b = 6 := by omega
  all_goals omega

theorem decodeBase64From_eq_some {acc b : ℕ} {out r : List UInt8} {t : Text} (hb : b % 2 = 0 ∧ b < 8)
    (h : decodeBase64From acc b out t = some r) :
    stripWhitespace t = (sextets t).map (base64Table.getD · '=') ++ replicate (t.count '=') '=' ∧
      ∃ left low, left < 8 ∧ low < 2 ^ left ∧ 8 * r.length + left = 8 * out.length + b + 6 * (sextets t).length ∧
        numberAfter 256 0 (r.map UInt8.toNat) * 2 ^ left + low =
          numberAfter 64 (numberAfter 256 0 (out.map UInt8.toNat) * 2 ^ b + acc % 2 ^ b) (sextets t) := by
  induction t generalizing acc b out with
  | nil =>
    cases h
    exact ⟨rfl, b, _, hb.2, Nat.mod_lt _ (by positivity), rfl, rfl⟩
  | cons c rest ih =>
    rw [decodeBase64From] at h
    split_ifs at h with hw he ha
    · have hc : sextets (c :: rest) = sextets rest := filterMap_cons_none (index_eq_none (.inl hw))
      have hne : c ≠ '=' := by
        rintro rfl
        cases hw
      rw [hc, count_cons_of_ne hne, stripWhitespace, filter_cons_of_neg (by simp [hw])]
      exact ih hb h
    · cases h
      have hall : ∀ d ∈ c :: rest, isAsciiWhitespace d = true ∨ d = '=' := by simpa [he, or_comm] using ha
      have hc : sextets (c :: rest) = [] := filterMap_eq_nil_iff.mpr fun d hd => index_eq_none (hall d hd)
      have hs : stripWhitespace (c :: rest) = (c :: rest).filter (· == '=') := by
        refine filter_congr fun d hd => ?_
        rcases hall d hd with hd | rfl
        · have hne : d ≠ '=' := by
            rintro rfl
            cases hd
          simp [hd, hne]
        · rfl
      rw [hc, hs, filter_beq]
      exact ⟨rfl, b, _, hb.2, Nat.mod_lt _ (by positivity), rfl, rfl⟩
    · cases hi : base64Table.findIdx? (· = c) with
      | none => simp [hi] at h
      | some i =>
        obtain ⟨hw, he, hlt, hg⟩ := not_whitespace_of_index hi
        obtain ⟨hp, hk⟩ := numberAfter_sextet (numberAfter 256 0 (out.map UInt8.toNat)) acc hb hlt
        have hc : sextets (c :: rest) = i :: sextets rest := filterMap_cons_some hi
        have hst : stripWhitespace (c :: rest) = c :: stripWhitespace rest := filter_cons_of_pos (by simp [hw])
        rw [hst, hc, count_cons_of_ne he, map_cons, hg, cons_append, length_cons, numberAfter_cons]
        simp only [hi] at h
        split_ifs at h with h8
        · obtain ⟨hsp, left, low, hl, hlo, hlen, hn⟩ := ih (by omega) h
          refine ⟨congrArg _ hsp, left, low, hl, hlo, ?_, ?_⟩
          · rw [length_append, length_singleton] at hlen
            omega
          · rw [hn, ← hp h8]
            simp [numberAfter]
        · obtain ⟨hsp, left, low, hl, hlo, hlen, hn⟩ := ih (by omega) h
          refine ⟨congrArg _ hsp, left, low, hl, hlo, by omega, ?_⟩
          rw [hn, hk]

/-! ### Two spellings -/

theorem numberAfter_inj {l l' : List ℕ} (hl : l.length = l'.length) (h : ∀ i ∈ l, i < 64) (h' : ∀ i ∈ l', i < 64) {n n' : ℕ}
    (heq : numberAfter 64 n l = numberAfter 64 n' l') : n = n' ∧ l = l' := by
  induction l generalizing l' n n' with
  | nil =>
    cases length_eq_zero_iff.mp hl.symm
    exact ⟨heq, rfl⟩
  | cons i l ih =>
    obtain ⟨i', l', rfl⟩ := exists_cons_of_length_eq_add_one hl.symm
    rw [forall_mem_cons] at h h'
    rw [numberAfter_cons, numberAfter_cons] at heq
    obtain ⟨hn, rfl⟩ := ih (by simpa using hl) h.2 h'.2 heq
    obtain ⟨rfl, rfl⟩ : n = n' ∧ i = i' := by omega
    exact ⟨rfl, rfl⟩

theorem numberAfter_mod (l : List ℕ) (h : ∀ i ∈ l, i < 64) : numberAfter 64 0 l % 64 = l.getLastD 0 := by
  induction l using reverseRecOn with
  | nil => rfl
  | append_singleton l i _ =>
    have hi := h i (by simp)
    simp only [numberAfter, foldl_append, foldl_cons, foldl_nil, getLastD_concat]
    omega

/-- The number that a text spells: the octets, and after them the spare bits. -/
theorem decodeBase64_eq_some {text : Text} {r : List UInt8} (h : decodeBase64 text = some r) :
    stripWhitespace text = (sextets text).map (base64Table.getD · '=') ++ replicate (text.count '=') '=' ∧
      numberAfter 64 0 (sextets text) =
        numberAfter 256 0 (r.map UInt8.toNat) * 2 ^ (6 * (sextets text).length % 8) + spareBits text := by
  obtain ⟨hs, left, low, hl, hlo, he, hn⟩ := decodeBase64From_eq_some (by decide) h
  obtain rfl : left = 6 * (sextets text).length % 8 := by
    omega
  have hlast : low = spareBits text := by
    have hm := congrArg (· % 2 ^ (6 * (sextets text).length % 8)) hn
    have hd : 2 ^ (6 * (sextets text).length % 8) ∣ 64 := pow_dvd_pow 2 (show _ ≤ 6 by omega)
    rw [spareBits, ← numberAfter_mod _ (sextets_lt text), Nat.mod_mod_of_dvd _ hd]
    simpa [Nat.mod_eq_of_lt hlo, numberAfter] using hm
  refine ⟨hs, ?_⟩
  rw [← hlast, hn]
  rfl

/-- **Two spellings of a value are the same exactly if they end alike.** -/
theorem sameSpelling_iff {text other : Text} {octets : List UInt8} (h : decodeBase64 text = some octets)
    (hother : decodeBase64 other = some octets) :
    stripWhitespace text = stripWhitespace other ↔ EndAlike text other := by
  obtain ⟨hs, hn⟩ := decodeBase64_eq_some h
  obtain ⟨hs', hn'⟩ := decodeBase64_eq_some hother
  constructor
  · intro heq
    have hx : sextets text = sextets other := by rw [← sextets_stripWhitespace, heq, sextets_stripWhitespace]
    refine ⟨by rw [hx], ?_, by rw [spareBits, spareBits, hx]⟩
    rw [← count_stripWhitespace, heq, count_stripWhitespace]
  · rintro ⟨hl, hp, hsp⟩
    rw [hsp, hl, ← hn'] at hn
    rw [hs, hs', hp, (numberAfter_inj hl (sextets_lt text) (sextets_lt other) hn).2]

/-- The padding may be left out. -/
theorem unpadded_decodes :
    decodeBase64 "QQ==".toList = some [0x41] ∧ decodeBase64 "QQ".toList = some [0x41] ∧
      stripWhitespace "QQ==".toList ≠ stripWhitespace "QQ".toList := by
  decide +kernel

/-- A line break within a value changes nothing. -/
theorem brokenLine_sameSpelling : stripWhitespace "QUJ\nD".toList = stripWhitespace "QUJD".toList :=
  (sameSpelling_iff (show _ = some [0x41, 0x42, 0x43] by decide +kernel) (by decide +kernel)).mpr
    ⟨by decide +kernel, by decide +kernel, by decide +kernel⟩

end IronAuth.Saml
