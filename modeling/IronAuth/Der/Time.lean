import IronAuth.Der.Tlv
import IronAuth.Saml.Conditions

/-!
# The times of certificates

`parse_time` reads a `UTCTime` or a `GeneralizedTime`, and `x509_time` writes whichever of the two is
asked for. Both compute the days of a date in closed form. `parse_utc` of `ironauth-saml`, which
reads the instants of an assertion, counts the years from 1970 and looks the months up in a table.

The reader takes any day up to 31 in every month, and a second 60: a date that does not exist is
another spelling of one that does.
-/

namespace IronAuth.Der

open Lib.Fallible List Saml

/-! ## The reader -/

/-- `parse_2`. -/
def parse2 (s : Text) : Except DerError ℤ := do
  refuseIf (¬(s.length = 2 ∧ s.all Char.isDigit)) .badValue
  return numeral 10 s

/-- `civil_to_unix`. -/
def civilToUnix (year month day hour minute second : ℤ) : ℤ :=
  let y := if month ≤ 2 then year - 1 else year
  let era := (if 0 ≤ y then y else y - 399).tdiv 400
  let yoe := y - era * 400
  let doy := (153 * (if 2 < month then month - 3 else month + 9) + 2) / 5 + day - 1
  let doe := yoe * 365 + yoe / 4 - yoe / 100 + doy
  let days := era * 146097 + doe - 719468
  days * 86400 + hour * 3600 + minute * 60 + second

/-- The year of `parse_time` and the text after it, by the tags `UTC_TIME` and `GENERALIZED_TIME`. -/
def readYear (tagByte : UInt8) (text : Text) : Except DerError (ℤ × Text) :=
  if tagByte = 0x17 then do
    refuseIf (text.length ≠ 12) .badValue
    let yy ← parse2 (text.take 2)
    return (if yy < 50 then 2000 + yy else 1900 + yy, text.drop 2)
  else if tagByte = 0x18 then do
    refuseIf (text.length ≠ 14) .badValue
    refuseIf (¬(text.take 4).all Char.isDigit) .badValue
    return (numeral 10 (text.take 4), text.drop 4)
  else .error .badValue

/-- `parse_time`. The text is ASCII where its parts are cut. -/
def parseTime (tagByte : UInt8) (contents : ByteArray) : Except DerError ℤ := do
  let string ← okOr (String.fromUTF8? contents) .badValue
  refuseIf (string.toList.getLast? ≠ some 'Z') .badValue
  let text := string.toList.dropLast
  refuseIf (¬text.all (·.toNat < 128)) .badValue
  let (year, rest) ← readYear tagByte text
  let month ← parse2 (rest.take 2)
  let day ← parse2 ((rest.drop 2).take 2)
  let hour ← parse2 ((rest.drop 4).take 2)
  let minute ← parse2 ((rest.drop 6).take 2)
  let second ← parse2 ((rest.drop 8).take 2)
  refuseIf (¬(1 ≤ month ∧ month ≤ 12) ∨ ¬(1 ≤ day ∧ day ≤ 31) ∨ 23 < hour ∨ 59 < minute ∨ 60 < second) .badValue
  return civilToUnix year month day hour minute second

/-- `take_any`, and `parse_time` of what it took. -/
def takeTime (input : List UInt8) : Except DerError ℤ := do
  let (tagByte, contents, _) ← readTlv input
  parseTime tagByte ⟨contents.toArray⟩

/-! ## The writer -/

/-- `{value:0width}`. -/
def padded (width : ℕ) (value : ℤ) : Text :=
  let digits := Nat.toDigits 10 value.natAbs
  if value < 0 then '-' :: (replicate (width - 1 - digits.length) '0' ++ digits)
  else replicate (width - digits.length) '0' ++ digits

/-- A date and a time of the day. -/
structure Civil where
  year : ℤ
  month : ℤ
  day : ℤ
  hour : ℤ
  minute : ℤ
  second : ℤ

/-- `civil_from_unix`. -/
def civilFromUnix (unix : ℤ) : Civil :=
  let days := unix / 86400
  let seconds := unix % 86400
  let z := days + 719468
  let era := (if 0 ≤ z then z else z - 146096).tdiv 146097
  let doe := z - era * 146097
  let yoe := (doe - doe / 1460 + doe / 36524 - doe / 146096) / 365
  let yearOfEra := yoe + era * 400
  let doy := doe - (365 * yoe + yoe / 4 - yoe / 100)
  let mp := (5 * doy + 2) / 153
  let day := doy - (153 * mp + 2) / 5 + 1
  let month := if mp < 10 then mp + 3 else mp - 9
  let year := if month ≤ 2 then yearOfEra + 1 else yearOfEra
  ⟨year, month, day, seconds / 3600, seconds % 3600 / 60, seconds % 60⟩

/-- The octets of a date under the digits of its year. -/
def Civil.octets (civil : Civil) (year : Text) : List UInt8 :=
  (Saml.octets (year ++ (padded 2 civil.month ++ (padded 2 civil.day ++ (padded 2 civil.hour ++ (padded 2 civil.minute ++
    padded 2 civil.second)))) ++ ['Z'])).data.toList

/-- `generalized_time`. -/
def generalizedTime (unix : ℤ) : List UInt8 :=
  let civil := civilFromUnix unix
  tlv 0x18 (civil.octets (padded 4 civil.year))

/-- `x509_time`. -/
def x509Time (unix : ℤ) : List UInt8 :=
  let civil := civilFromUnix unix
  if 1950 ≤ civil.year ∧ civil.year ≤ 2049 then tlv 0x17 (civil.octets (padded 2 (civil.year % 100)))
  else generalizedTime unix

/-! ## The days of a date -/

/-- The days before a year, in closed form. -/
def daysBefore (year : ℤ) : ℤ := 365 * year + (year - 1) / 4 - (year - 1) / 100 + (year - 1) / 400

theorem daysBefore_succ (y : ℤ) : daysBefore (y + 1) = daysBefore y + daysInYear y := by
  unfold daysBefore daysInYear isLeap
  simp only [decide_eq_true_eq]
  split_ifs <;> omega

variable {y : ℤ} {raw : Text}

theorem daysBefore_add_le {z : ℤ} (h : y < z) : daysBefore y + daysInYear y ≤ daysBefore z := by
  rw [← daysBefore_succ]
  unfold daysBefore
  omega

/-- The loop of `days_to_year`. -/
theorem sum_daysInYear (y : ℤ) (n : ℕ) :
    ((List.range n).map fun i => daysInYear (y + i)).sum = daysBefore (y + n) - daysBefore y := by
  induction n with
  | zero => simp
  | succ n ih =>
    have hs := daysBefore_succ (y + n)
    simp [range_succ, ← add_assoc, hs] at ih ⊢
    omega

theorem daysToYear_eq (y : ℤ) : daysToYear y = daysBefore y - daysBefore 1970 := by
  unfold daysToYear
  split_ifs with h
  · rw [sum_daysInYear, show (1970 : ℤ) + ((y - 1970).toNat : ℤ) = y by omega]
  · rw [sum_daysInYear, show y + ((1970 - y).toNat : ℤ) = 1970 by omega, neg_sub]

/-- The days of the months before a month, counted from March of the year before. -/
def daysBeforeMonth (year month : ℤ) : ℤ :=
  if 2 < month then daysInYear year + (153 * (month - 3) + 2) / 5 else (153 * (month + 9) + 2) / 5

/-- Eras are counted downwards. -/
theorem tdiv_era (z : ℤ) {n : ℤ} (hn : 0 < n) : (if 0 ≤ z then z else z - (n - 1)).tdiv n = z / n := by
  split_ifs with h
  · exact Int.tdiv_eq_ediv_of_nonneg h
  · have h1 := Int.mul_ediv_add_emod z n
    have h2 := Int.emod_nonneg z hn.ne'
    have h3 := Int.emod_lt_of_pos z hn
    rw [← neg_neg (z - _), Int.neg_tdiv, Int.tdiv_eq_ediv_of_nonneg (by omega), neg_eq_iff_eq_neg, Int.ediv_eq_iff_of_pos hn]
    constructor <;> linarith

theorem civilToUnix_eq (y m d h i s : ℤ) :
    civilToUnix y m d h i s =
      (daysBefore y + daysBeforeMonth y m + d - 719834) * 86400 + h * 3600 + i * 60 + s := by
  have hs := daysBefore_succ y
  have he := fun z => tdiv_era z (show (0 : ℤ) < 400 by decide)
  norm_num at he
  unfold daysBefore at *
  simp only [civilToUnix, daysBeforeMonth, he]
  split_ifs <;> omega

theorem daysBeforeMonth_add_le {m d : ℤ} (h1 : 1 ≤ m) (h12 : m ≤ 12) (hd : d ≤ daysInMonth y m) :
    daysBeforeMonth y m + d ≤ daysBeforeMonth y (m + 1) := by
  unfold daysBeforeMonth daysInYear
  interval_cases m
  all_goals
    simp [daysInMonth] at hd ⊢
    try split_ifs at *
    all_goals omega

/-- The table of the months is the closed form too. -/
theorem civilToUnix_eq_table {m st : ℤ} (hm : 1 ≤ m ∧ m ≤ 12)
    (hst : monthStart[(m - 1).toNat]? = some st) (d h i s : ℤ) :
    civilToUnix y m d h i s =
      (daysToYear y + st + (d - 1) + if 2 < m ∧ isLeap y then 1 else 0) * 86400 + h * 3600 + i * 60 + s := by
  rw [civilToUnix_eq, daysToYear_eq, show daysBefore 1970 = 719527 by decide]
  unfold daysBeforeMonth daysInYear
  obtain ⟨h1, h12⟩ := hm
  interval_cases m
  all_goals
    cases hst
    cases isLeap y <;> norm_num <;> omega


/-- The year of an era that a day falls in, and how far into it. -/
theorem yoe_bounds {n : ℤ} (h0 : 0 ≤ n) (h1 : n < 146097) :
    let y := (n - n / 1460 + n / 36524 - n / 146096) / 365
    0 ≤ y ∧ y < 400 ∧ 365 * y + y / 4 - y / 100 ≤ n ∧ n ≤ 365 * y + y / 4 - y / 100 + 365 := by
  intro y
  obtain hn | rfl : n < 146096 ∨ n = 146096 := by omega
  · have h3 : n / 146096 = 0 := by omega
    have hc : n / 36524 = 0 ∨ n / 36524 = 1 ∨ n / 36524 = 2 ∨ n / 36524 = 3 := by omega
    have hy : y = (n - n / 1460 + n / 36524) / 365 := by simp [y, h3]
    clear_value y
    have h100 : y / 100 = n / 36524 := by
      obtain hc | hc | hc | hc := hc <;> omega
    obtain hc | hc | hc | hc := hc <;> omega
  · decide

/-- The date that is written is one that the reader takes, and it is the date of the second. -/
theorem civilFromUnix_spec (u : ℤ) :
    let c := civilFromUnix u
    (1 ≤ c.month ∧ c.month ≤ 12) ∧ (1 ≤ c.day ∧ c.day ≤ 31) ∧ (0 ≤ c.hour ∧ c.hour ≤ 23) ∧ (0 ≤ c.minute ∧ c.minute ≤ 59) ∧
      (0 ≤ c.second ∧ c.second ≤ 59) ∧ civilToUnix c.year c.month c.day c.hour c.minute c.second = u := by
  obtain ⟨h0, h400, hle, hlt⟩ := yoe_bounds (n := (u / 86400 + 719468) % 146097) (by omega) (by omega)
  have he := fun z => tdiv_era z (show (0 : ℤ) < 146097 by decide)
  have he400 := fun z => tdiv_era z (show (0 : ℤ) < 400 by decide)
  have hz : ∀ z : ℤ, z - z / 146097 * 146097 = z % 146097 := by omega
  norm_num at he he400
  intro c
  simp only [c, civilFromUnix, civilToUnix, he, he400, hz]
  generalize hk : (_ : ℤ) / 365 = k at *
  generalize hmp : (_ : ℤ) / 153 = mp
  have hera : ∀ era, (k + era * 400) / 400 = era := by omega
  obtain hm | hm : mp < 10 ∨ 10 ≤ mp := by omega
  · simp only [hm, show ¬mp + 3 ≤ 2 by omega, show 2 < mp + 3 by omega, if_true, if_false, hera, add_sub_cancel_right]
    omega
  · simp only [hm.not_gt, show mp - 9 ≤ 2 by omega, show ¬2 < mp - 9 by omega, if_true, if_false, hera, add_sub_cancel_right,
      sub_add_cancel]
    omega

/-! ## The digits of a date-time -/

/-- So many decimal digits. -/
abbrev Digits (n : ℕ) := { text : Text // text.length = n ∧ text.all Char.isDigit }

variable {n : ℕ}

/-- The number they write. -/
def Digits.value (digits : Digits n) : ℤ := numeral 10 digits.1

@[simp]
theorem Digits.length_eq (f : Digits n) : f.1.length = n := f.2.1

theorem Digits.isDigit {f : Digits n} : ∀ c ∈ f.1, c.isDigit := all_eq_true.mp f.2.2

theorem digit_bounds {c : Char} (h : c.isDigit) : c.toNat = digitValue c + 48 ∧ digitValue c < 10 := by
  have hd : 48 ≤ c.toNat ∧ c.toNat ≤ 57 := by simpa [Char.isDigit, UInt32.le_iff_toNat_le] using h
  simp only [digitValue, h, if_true, show '0'.toNat = 48 from rfl]
  omega

/-- Texts that begin with numerals of one length are in the order of the numbers. -/
theorem foldl_lt_iff {a b r s : Text} (hl : a.length = b.length) (ha : a.all Char.isDigit) (hb : b.all Char.isDigit) (n m : ℕ) :
    let number := foldl fun n c => n * 10 + digitValue c
    number n a < number m b ∨ number n a = number m b ∧ r < s ↔ n < m ∨ n = m ∧ a ++ r < b ++ s := by
  induction a generalizing b n m with
  | nil =>
    cases length_eq_zero_iff.mp hl.symm
    rfl
  | cons c a ih =>
    obtain ⟨d, b, rfl⟩ := exists_cons_of_length_eq_add_one hl.symm
    rw [all_cons, Bool.and_eq_true] at ha hb
    obtain ⟨hc, hc'⟩ := digit_bounds ha.1
    obtain ⟨hd, hd'⟩ := digit_bounds hb.1
    have hlt : c < d ↔ c.toNat < d.toNat := Iff.rfl
    rw [cons_append, cons_append, cons_lt_cons_iff, hlt, ← Char.toNat_inj]
    refine (ih (Nat.succ.inj hl) ha.2 hb.2 _ _).trans ?_
    by_cases hab : a ++ r < b ++ s
    all_goals
      simp only [hab, and_true, and_false, or_false]
      omega

theorem append_lt_append_iff (f g : Digits n) (r s : Text) :
    f.1 ++ r < g.1 ++ s ↔ f.value < g.value ∨ f.value = g.value ∧ r < s := by
  have hf := foldl_lt_iff (r := r) (s := s) (f.2.1.trans g.2.1.symm) f.2.2 g.2.2 0 0
  simpa [Digits.value, numeral] using hf.symm

theorem Digits.value_injective : Function.Injective (Digits.value (n := n)) := by
  intro f g h
  have hfg := append_lt_append_iff f g [] []
  have hgf := append_lt_append_iff g f [] []
  simp [h] at hfg hgf
  exact le_antisymm hgf hfg

/-! ## What is read -/

/-- The fields of a date-time, as they are written. -/
structure DateTime (yearLength : ℕ) where
  year : Digits yearLength
  month : Digits 2
  day : Digits 2
  hour : Digits 2
  minute : Digits 2
  second : Digits 2

variable {tag : UInt8}

/-- The digits of a certificate's time. -/
def DateTime.digits (d : DateTime n) : Text :=
  d.year.1 ++ (d.month.1 ++ (d.day.1 ++ (d.hour.1 ++ (d.minute.1 ++ d.second.1))))

/-- `civil_to_unix` of the fields in a year. -/
def DateTime.unix (d : DateTime n) (year : ℤ) : ℤ :=
  civilToUnix year d.month.value d.day.value d.hour.value d.minute.value d.second.value

/-- The ranges that `parse_time` asks for. -/
def DateTime.InRange (d : DateTime n) : Prop :=
  (1 ≤ d.month.value ∧ d.month.value ≤ 12) ∧ (1 ≤ d.day.value ∧ d.day.value ≤ 31) ∧ d.hour.value ≤ 23 ∧ d.minute.value ≤ 59 ∧
    d.second.value ≤ 60

/-- The digits of a year under a tag. -/
def YearLength (tag : UInt8) (n : ℕ) : Prop := tag = 0x17 ∧ n = 2 ∨ tag = 0x18 ∧ n = 4

/-- The year they write. -/
def yearOf (tag : UInt8) (written : ℤ) : ℤ :=
  if tag = 0x18 then written else if written < 50 then 2000 + written else 1900 + written

theorem parse2_eq_ok_iff {s : Text} {v : ℤ} : parse2 s = .ok v ↔ ∃ f : Digits 2, f.1 = s ∧ f.value = v := by
  simp [parse2, Digits.value, pure, Except.pure, and_assoc]

theorem readYear_eq_ok_iff {text : Text} {p : ℤ × Text} :
    readYear tag text = .ok p ↔ ∃ n, YearLength tag n ∧ text.length = n + 10 ∧
      ∃ f : Digits n, f.1 = text.take n ∧ (yearOf tag f.value, text.drop n) = p := by
  unfold readYear YearLength
  by_cases h7 : tag = 0x17
  · simp [h7, yearOf, bind_eq_ok_iff, exists_unit_iff, parse2_eq_ok_iff, pure, Except.pure]
  by_cases h8 : tag = 0x18
  · simp [h8, yearOf, Digits.value, pure, Except.pure]
    grind
  · simp [h7, h8]

theorem fromUTF8?_eq_some_iff {contents : ByteArray} {s : String} : String.fromUTF8? contents = some s ↔ contents = octets s.toList := by
  rw [octets, String.ofList_toList, String.fromUTF8?]
  split_ifs with h
  · simp [← String.toByteArray_inj, String.fromUTF8]
  · simp
    rintro rfl
    exact h s.isValidUTF8

/-- What `parse_time` reads, and as which second. -/
theorem parseTime_eq_ok_iff {contents : ByteArray} {t : ℤ} :
    parseTime tag contents = .ok t ↔ ∃ n, ∃ d : DateTime n, YearLength tag n ∧ d.InRange ∧ contents = octets (d.digits ++ ['Z']) ∧
      t = d.unix (yearOf tag d.year.value) := by
  simp only [parseTime, bind_eq_ok_iff, exists_unit_iff, refuseIf_eq_ok_iff, okOr_eq_ok_iff, readYear_eq_ok_iff,
    parse2_eq_ok_iff, fromUTF8?_eq_some_iff, not_not, pure, Except.pure, Except.ok.injEq]
  constructor
  · rintro ⟨string, rfl, hz, -, _, ⟨n, hn, hl, y, hy, rfl⟩, _, ⟨m, hm, rfl⟩, _, ⟨d, hd, rfl⟩, _, ⟨h, hh, rfl⟩, _, ⟨i, hi, rfl⟩,
      _, ⟨s, hs, rfl⟩, hr, rfl⟩
    have hcut : ∀ k, drop k (drop n string.toList.dropLast) =
        take 2 (drop k (drop n string.toList.dropLast)) ++ drop (k + 2) (drop n string.toList.dropLast) := by
      intro k
      rw [← drop_drop, take_append_drop]
    refine ⟨n, ⟨y, m, d, h, i, s⟩, hn, by simpa [DateTime.InRange, and_assoc] using hr, ?_, rfl⟩
    have hend : drop 10 (drop n string.toList.dropLast) = [] := by simp [hl]
    have h0 := hcut 0
    rw [hcut 2, hcut 4, hcut 6, hcut 8, hend, append_nil, drop_zero] at h0
    rw [DateTime.digits, hy, hm, hd, hh, hi, hs, ← h0, take_append_drop, dropLast_append_getLast? _ hz]
  · rintro ⟨n, d, hn, ⟨hm, hd, hh, hi, hs⟩, rfl, rfl⟩
    have ha : ∀ {n} (f : Digits n), ∀ c ∈ f.1, c.toNat < 128 := by
      intro n f c hc
      have := digit_bounds (f.isDigit c hc)
      omega
    refine ⟨String.ofList (d.digits ++ ['Z']), by simp, by simp, ?_, _, ⟨n, hn, ?_, d.year, ?_, rfl⟩, _, ⟨d.month, ?_, rfl⟩, _,
      ⟨d.day, ?_, rfl⟩, _, ⟨d.hour, ?_, rfl⟩, _, ⟨d.minute, ?_, rfl⟩, _, ⟨d.second, ?_, rfl⟩, by omega, rfl⟩
    all_goals
      simp [DateTime.digits, drop_append, take_of_length_le, drop_of_length_le]
    grind

theorem Digits.value_bounds (f : Digits 2) : 0 ≤ f.value ∧ f.value < 100 := by
  obtain ⟨text, hl, hd⟩ := f
  obtain ⟨a, b, rfl⟩ := length_eq_two.mp hl
  simp [Digits.value, numeral] at hd ⊢
  have ha := digit_bounds hd.1
  have hb := digit_bounds hd.2
  omega

theorem YearLength.injective (hn : YearLength tag n) {f g : Digits n} (h : yearOf tag f.value = yearOf tag g.value) : f = g := by
  apply Digits.value_injective
  obtain ⟨rfl, rfl⟩ | ⟨rfl, rfl⟩ := hn
  · have hf := f.value_bounds
    have hg := g.value_bounds
    simp [yearOf] at h
    split_ifs at h <;> omega
  · exact h

theorem le_daysInYear (y : ℤ) : 365 ≤ daysInYear y := by
  unfold daysInYear
  split_ifs <;> omega

/-- In one month, the days of different years are far apart. -/
theorem daysBefore_add_lt {z : ℤ} (h : y < z) (m : ℤ) :
    daysBefore y + daysBeforeMonth y m + 31 < daysBefore z + daysBeforeMonth z m := by
  have hb := daysBefore_add_le h
  have hy := le_daysInYear y
  have hz := le_daysInYear z
  unfold daysBeforeMonth
  split_ifs <;> omega

/-- Two characters of a text, read from its end. -/
def fieldFromEnd (k : ℕ) (contents : ByteArray) : Option Text :=
  (String.fromUTF8? contents).map fun string => (string.toList.reverse.drop k).take 2

theorem fieldFromEnd_octets (d : DateTime n) :
    fieldFromEnd 9 (octets (d.digits ++ ['Z'])) = some d.month.1.reverse ∧
      fieldFromEnd 1 (octets (d.digits ++ ['Z'])) = some d.second.1.reverse := by
  have h8 : ∀ text, String.fromUTF8? (octets text) = some (String.ofList text) := by simp [fromUTF8?_eq_some_iff]
  simp [fieldFromEnd, h8, DateTime.digits, drop_append, drop_of_length_le]

/-- **A second has one spelling for a month and a second of the minute.** -/
theorem spelling_eq_iff {a b : ByteArray} {t : ℤ} (ha : parseTime tag a = .ok t) (hb : parseTime tag b = .ok t) :
    a = b ↔ fieldFromEnd 9 a = fieldFromEnd 9 b ∧ fieldFromEnd 1 a = fieldFromEnd 1 b := by
  refine ⟨by rintro rfl; exact ⟨rfl, rfl⟩, ?_⟩
  obtain ⟨n, d, hn, ⟨hm, hd, hh, hi, hs⟩, rfl, rfl⟩ := parseTime_eq_ok_iff.mp ha
  obtain ⟨k, e, hk, ⟨hme, hde, hhe, hie, hse⟩, rfl, h⟩ := parseTime_eq_ok_iff.mp hb
  obtain rfl : n = k := by
    unfold YearLength at hn hk
    grind
  simp only [fieldFromEnd_octets, Option.some.injEq, reverse_inj, Subtype.val_inj]
  rintro ⟨hmonth, hsecond⟩
  have hbd := fun f : Digits 2 => f.value_bounds
  have := hbd d.hour
  have := hbd d.minute
  have := hbd e.hour
  have := hbd e.minute
  rw [DateTime.unix, DateTime.unix, civilToUnix_eq, civilToUnix_eq, hmonth, hsecond] at h
  have hyear : yearOf tag d.year.value = yearOf tag e.year.value := by
    obtain hlt | heq | hlt := lt_trichotomy (yearOf tag d.year.value) (yearOf tag e.year.value)
    · have := daysBefore_add_lt hlt e.month.value
      omega
    · exact heq
    · have := daysBefore_add_lt hlt e.month.value
      omega
  rw [hyear] at h
  have hday : d.day = e.day := Digits.value_injective (by omega)
  have hhour : d.hour = e.hour := Digits.value_injective (by omega)
  have hminute : d.minute = e.minute := Digits.value_injective (by omega)
  rw [DateTime.digits, DateTime.digits, hn.injective hyear, hmonth, hday, hhour, hminute, hsecond]

/-- The last day of February 2023 was the 28th. -/
theorem march_spelled_twice :
    ¬∀ t, parseTime 0x18 (octets "20230229000000Z".toList) = .ok t → parseTime 0x18 (octets "20230301000000Z".toList) = .ok t →
      octets "20230229000000Z".toList = octets "20230301000000Z".toList := by
  intro h
  have ha := h 1677628800 (by decide +kernel) (by decide +kernel)
  revert ha
  decide +kernel

theorem march_spelling_eq_iff :
    octets "20230229000000Z".toList = octets "20230301000000Z".toList ↔
      fieldFromEnd 9 (octets "20230229000000Z".toList) = fieldFromEnd 9 (octets "20230301000000Z".toList) ∧
        fieldFromEnd 1 (octets "20230229000000Z".toList) = fieldFromEnd 1 (octets "20230301000000Z".toList) :=
  @spelling_eq_iff 0x18 _ _ 1677628800 (by decide +kernel) (by decide +kernel)

/-! ## What is written -/

theorem padded_digits {v : ℤ} (hn : 0 < n) (h0 : 0 ≤ v) (h : v < 10 ^ n) : ∃ f : Digits n, f.1 = padded n v ∧ f.value = v := by
  lift v to ℕ using h0
  have hlen := (Nat.length_toDigits_le_iff (b := 10) (by decide) hn).mpr (by exact_mod_cast h)
  have hdigit : ∀ c ∈ Nat.toDigits 10 v, c.isDigit := fun c => Nat.isDigit_of_mem_toDigits (by decide) (by decide)
  have hv : (Nat.toDigits 10 v).foldl (fun n c => n * 10 + digitValue c) 0 = v := by
    refine Eq.trans ?_ Nat.ofDigitChars_ten_toDigits
    refine foldl_ext _ _ _ fun n c hc => ?_
    rw [digitValue, if_pos (hdigit c hc), mul_comm]
  have hz : ∀ k, (replicate k '0').foldl (fun n c => n * 10 + digitValue c) 0 = 0 := by
    intro k
    induction k with
    | zero => rfl
    | succ k ih => exact ih
  have hp : padded n v = replicate (n - (Nat.toDigits 10 v).length) '0' ++ Nat.toDigits 10 v := by simp [padded]
  refine ⟨⟨padded n v, ?_, ?_⟩, rfl, ?_⟩
  · simp [hp, hlen]
  · simpa [hp, or_imp, forall_and] using hdigit
  · simp [Digits.value, numeral, hp, foldl_append, hz, hv]

theorem length_octets_le (text : Text) : (octets text).data.toList.length ≤ text.length * 4 := by
  have h4 := sum_le_card_nsmul (text.map fun c => c.utf8Size) 4 (by simpa using fun c _ => c.utf8Size_le_four)
  simpa [octets, utf8Encode, length_flatMap] using h4

/-- A date comes back, under a year that is read as its own. -/
theorem takeTime_civil (u : ℤ) (hn : YearLength tag n) (y : Digits n) (hy : yearOf tag y.value = (civilFromUnix u).year) :
    takeTime (tlv tag ((civilFromUnix u).octets y.1)) = .ok u := by
  obtain ⟨hm, hd, hh, hi, hs, hu⟩ := civilFromUnix_spec u
  have hp := fun (v : ℤ) (h0 : 0 ≤ v) (h : v < 100) => padded_digits (n := 2) (by decide) h0 h
  obtain ⟨m, em, vm⟩ := hp (civilFromUnix u).month (by omega) (by omega)
  obtain ⟨d, ed, vd⟩ := hp (civilFromUnix u).day (by omega) (by omega)
  obtain ⟨h, eh, vh⟩ := hp (civilFromUnix u).hour (by omega) (by omega)
  obtain ⟨i, ei, vi⟩ := hp (civilFromUnix u).minute (by omega) (by omega)
  obtain ⟨s, es, vs⟩ := hp (civilFromUnix u).second (by omega) (by omega)
  have hr : readTlv (tlv tag ((civilFromUnix u).octets y.1)) = .ok (tag, (civilFromUnix u).octets y.1, []) := by
    refine readTlv_eq_ok_iff.mpr ⟨?_, ?_, (append_nil _).symm⟩
    · obtain ⟨rfl, -⟩ | ⟨rfl, -⟩ := hn <;> decide
    · refine (length_octets_le _).trans_lt ?_
      simp [← em, ← ed, ← eh, ← ei, ← es]
      obtain ⟨-, rfl⟩ | ⟨-, rfl⟩ := hn <;> decide
  rw [takeTime, hr, ok_bind]
  refine parseTime_eq_ok_iff.mpr ⟨n, ⟨y, m, d, h, i, s⟩, hn, ?_, ?_, ?_⟩
  · simp only [DateTime.InRange]
    omega
  · simp [Civil.octets, DateTime.digits, em, ed, eh, ei, es]
  · rw [DateTime.unix, hy, vm, vd, vh, vi, vs, hu]

/-- The year of the date is the year of the second, counted year by year. -/
theorem year_bounds {u : ℤ} {a b : ℤ} (h : daysToYear a * 86400 ≤ u) (h' : u < daysToYear b * 86400) :
    a ≤ (civilFromUnix u).year ∧ (civilFromUnix u).year < b := by
  obtain ⟨hm, hd, hh, hi, hs, hu⟩ := civilFromUnix_spec u
  have hl := le_daysInYear (civilFromUnix u).year
  rw [civilToUnix_eq] at hu
  rw [daysToYear_eq, show daysBefore 1970 = 719527 by decide] at h h'
  constructor
  · by_contra hlt
    have hb := daysBefore_add_le (not_le.mp hlt)
    unfold daysBeforeMonth at hu
    split_ifs at hu <;> omega
  · by_contra hge
    have hb : daysBefore b ≤ daysBefore (civilFromUnix u).year := by
      unfold daysBefore
      omega
    unfold daysBeforeMonth at hu
    split_ifs at hu <;> omega

/-- **A time comes back as it was written,** in the years that four digits write. -/
theorem takeTime_written {u : ℤ} (h : daysToYear 0 * 86400 ≤ u) (h' : u < daysToYear 10000 * 86400) :
    takeTime (generalizedTime u) = .ok u ∧ takeTime (x509Time u) = .ok u := by
  obtain ⟨h0, hlt⟩ := year_bounds h h'
  have hg : takeTime (generalizedTime u) = .ok u := by
    obtain ⟨y, ey, vy⟩ := padded_digits (n := 4) (by decide) h0 hlt
    simpa only [generalizedTime, ey] using takeTime_civil u (Or.inr ⟨rfl, rfl⟩) y vy
  refine ⟨hg, ?_⟩
  simp only [x509Time]
  split_ifs with hc
  · obtain ⟨y, ey, vy⟩ := padded_digits (n := 2) (v := (civilFromUnix u).year % 100) (by decide) (by omega) (by omega)
    rw [← ey]
    refine takeTime_civil u (Or.inl ⟨rfl, rfl⟩) y ?_
    simp only [yearOf, vy, if_neg (show ¬(0x17 : UInt8) = 0x18 by decide)]
    split_ifs <;> omega
  · exact hg

/-- The last second of the year 2049. -/
theorem lastUtcTime_written :
    takeTime (generalizedTime 2524607999) = .ok 2524607999 ∧ takeTime (x509Time 2524607999) = .ok 2524607999 :=
  takeTime_written (by rw [daysToYear_eq]; decide) (by rw [daysToYear_eq]; decide)

/-! ## The two calendars -/

theorem digitsAt_eq_some {start len : ℕ} {v : ℤ} (h : digitsAt raw start len = some v) :
    ∃ f : Digits len, f.value = v ∧ raw.drop start = f.1 ++ raw.drop (start + len) := by
  simp only [digitsAt] at h
  split_ifs at h with hd
  refine ⟨⟨_, hd⟩, Option.some.inj h, ?_⟩
  rw [← drop_drop, take_append_drop]

theorem literalAt_eq_some {i : ℕ} {c : Char} (h : literalAt raw i c = some ()) :
    raw.drop i = c :: raw.drop (i + 1) := by
  unfold literalAt at h
  split_ifs at h with hc
  obtain ⟨hi, rfl⟩ := List.getElem?_eq_some_iff.mp hc
  exact drop_eq_getElem_cons hi

/-- The text of `xsd:dateTime` without a fraction. -/
def DateTime.utc (d : DateTime 4) : Text :=
  d.year.1 ++ '-' :: (d.month.1 ++ '-' :: (d.day.1 ++ 'T' :: (d.hour.1 ++ ':' :: (d.minute.1 ++ ':' :: (d.second.1 ++ ['Z'])))))

/-- The ranges that `parse_utc` asks for. -/
def DateTime.Valid (d : DateTime 4) : Prop :=
  (1900 ≤ d.year.value ∧ d.year.value ≤ 2200) ∧
    (1 ≤ d.month.value ∧ d.month.value ≤ 12 ∧ 1 ≤ d.day.value ∧ d.day.value ≤ daysInMonth d.year.value d.month.value) ∧
    d.hour.value ≤ 23 ∧ d.minute.value ≤ 59 ∧ d.second.value ≤ 59

theorem parseUtc_eq_some {t : ℤ} (h : parseUtc raw = some t) (hz : raw.drop 19 = ['Z']) :
    ∃ d : DateTime 4, raw = d.utc ∧ d.Valid ∧ t = d.unix d.year.value := by
  simp only [parseUtc, Option.bind_eq_bind, Option.bind_eq_some_iff, Option.guard_eq_some', exists_unit_iff] at h
  obtain ⟨-, y, hy, l4, m, hm, l7, d, hd, l10, hh, hhh, l13, i, hi, l16, s, hs, -, hr, hr', hr'', st, hst, ht⟩ := h
  obtain ⟨y, rfl, ey⟩ := digitsAt_eq_some hy
  obtain ⟨m, rfl, em⟩ := digitsAt_eq_some hm
  obtain ⟨d, rfl, ed⟩ := digitsAt_eq_some hd
  obtain ⟨hh, rfl, eh⟩ := digitsAt_eq_some hhh
  obtain ⟨i, rfl, ei⟩ := digitsAt_eq_some hi
  obtain ⟨s, rfl, es⟩ := digitsAt_eq_some hs
  refine ⟨⟨y, m, d, hh, i, s⟩, ?_, ⟨hr, hr', hr''⟩, ?_⟩
  · rw [drop_zero, literalAt_eq_some l4, em, literalAt_eq_some l7, ed, literalAt_eq_some l10, eh, literalAt_eq_some l13, ei,
      literalAt_eq_some l16, es, hz] at ey
    exact ey
  · rw [DateTime.unix, civilToUnix_eq_table ⟨hr'.1, hr'.2.1⟩ hst]
    exact (Option.some.inj ht).symm

/-- The later text is the later instant: a year is over before the next, and a month before the next. -/
theorem unix_lt {d e : DateTime 4} (hd : d.Valid) (he : e.Valid) (h : d.utc < e.utc) : d.unix d.year.value < e.unix e.year.value := by
  obtain ⟨⟨hy, -⟩, ⟨hm, hm', -, hday⟩, hh, hi, hs⟩ := hd
  obtain ⟨⟨hye, -⟩, ⟨hme, hme', hdaye, -⟩, -⟩ := he
  have hnn : 0 ≤ e.hour.value ∧ 0 ≤ e.minute.value ∧ 0 ≤ e.second.value := by simp [Digits.value]
  have hend := daysBeforeMonth_add_le hm hm' hday
  simp only [DateTime.utc, append_lt_append_iff, cons_lt_cons_iff, lt_irrefl, false_or, true_and, and_false, or_false] at h
  rw [DateTime.unix, DateTime.unix, civilToUnix_eq, civilToUnix_eq]
  unfold daysBeforeMonth at *
  have hld := le_daysInYear d.year.value
  have hle := le_daysInYear e.year.value
  obtain hlt | ⟨heq, h⟩ := h
  · have hb := daysBefore_add_le hlt
    split_ifs at * <;> omega
  · rw [← heq] at *
    split_ifs at * <;> omega

/-- The `GeneralizedTime` that corresponds to a date-time. -/
def generalizedOf (raw : Text) : ByteArray := octets (raw.filter Char.isDigit ++ ['Z'])

theorem parseTime_utc {d : DateTime 4} (hd : d.Valid) : parseTime 0x18 (generalizedOf d.utc) = .ok (d.unix d.year.value) := by
  obtain ⟨-, ⟨hm, hm', hday, hday'⟩, hh, hi, hs⟩ := hd
  have h31 : daysInMonth d.year.value d.month.value ≤ 31 := by
    unfold daysInMonth
    split_ifs <;> omega
  refine parseTime_eq_ok_iff.mpr ⟨4, d, Or.inr ⟨rfl, rfl⟩, ?_, ?_, rfl⟩
  · unfold DateTime.InRange
    omega
  · simp [generalizedOf, DateTime.utc, DateTime.digits, filter_append, filter_eq_self.mpr Digits.isDigit]

/-- Date-times without a fraction are ordered as their texts are, and read as the same second off a certificate. -/
theorem calendars_agree {raw other : Text} {t u : ℤ} (h : parseUtc raw = some t) (h' : parseUtc other = some u)
    (hz : raw.drop 19 = ['Z']) (hz' : other.drop 19 = ['Z']) :
    (t < u ↔ raw < other) ∧ (t = u ↔ raw = other) ∧ parseTime 0x18 (generalizedOf raw) = .ok t := by
  obtain ⟨d, rfl, hd, rfl⟩ := parseUtc_eq_some h hz
  obtain ⟨e, rfl, he, rfl⟩ := parseUtc_eq_some h' hz'
  rw [← and_assoc]
  refine ⟨?_, parseTime_utc hd⟩
  obtain hlt | heq | hgt := lt_trichotomy d.utc e.utc
  · have hu := unix_lt hd he hlt
    exact ⟨iff_of_true hu hlt, iff_of_false hu.ne hlt.ne⟩
  · have hu : d.unix d.year.value = e.unix e.year.value := Option.some.inj (h.symm.trans (heq ▸ h'))
    exact ⟨iff_of_false hu.not_lt heq.not_lt, iff_of_true hu heq⟩
  · have hu := unix_lt he hd hgt
    exact ⟨iff_of_false hu.not_gt hgt.not_gt, iff_of_false hu.ne' hgt.ne'⟩

/-- Noon of a leap day, and the midnight after it. -/
theorem leapDay_calendars_agree :
    ((1709208000 : ℤ) < 1709251200 ↔ "2024-02-29T12:00:00Z".toList < "2024-03-01T00:00:00Z".toList) ∧
      ((1709208000 : ℤ) = 1709251200 ↔ "2024-02-29T12:00:00Z".toList = "2024-03-01T00:00:00Z".toList) ∧
      parseTime 0x18 (generalizedOf "2024-02-29T12:00:00Z".toList) = .ok 1709208000 :=
  calendars_agree (by decide +kernel) (by decide +kernel) (by decide +kernel) (by decide +kernel)

end IronAuth.Der
