import IronAuth.Saml.Reading

/-!
# The conditions of an assertion

`conditions::check`: whether a verified assertion is one for this service provider, at this
time, in answer to this request. It reads the assertion through its accessors only.

Times are seconds in `i64` with saturating sums. The years that an instant may have keep the
length of a window far from overflow, so that the plain difference of the source is exact.
-/

namespace IronAuth.Saml

open Lib.Fallible

/-! ### Instants -/

/-- `is_leap`. -/
def isLeap (year : ℤ) : Bool := year % 4 = 0 ∧ year % 100 ≠ 0 ∨ year % 400 = 0

/-- `days_in_month`. -/
def daysInMonth (year month : ℤ) : ℤ :=
  if month ∈ [1, 3, 5, 7, 8, 10, 12] then 31
  else if month ∈ [4, 6, 9, 11] then 30
  else if month = 2 then if isLeap year then 29 else 28
  else 0

/-- The days of a year. -/
def daysInYear (year : ℤ) : ℤ := if isLeap year then 366 else 365

/-- `days_to_year`: counted from 1970 in both directions. -/
def daysToYear (year : ℤ) : ℤ :=
  if 1970 ≤ year then ((List.range (year - 1970).toNat).map fun i => daysInYear (1970 + i)).sum
  else -((List.range (1970 - year).toNat).map fun i => daysInYear (year + i)).sum

/-- `MONTH_START`. -/
def monthStart : List ℤ := [0, 31, 59, 90, 120, 151, 181, 212, 243, 273, 304, 334]

/-- The closure `digits` of `parse_utc`. -/
def digitsAt (raw : Text) (start len : ℕ) : Option ℤ :=
  let slice := (raw.drop start).take len
  if slice.length = len ∧ slice.all Char.isDigit then some (numeral 10 slice) else none

/-- The closure `literal` of `parse_utc`. -/
def literalAt (raw : Text) (at_ : ℕ) (expected : Char) : Option Unit := if raw[at_]? = some expected then some () else none

/-- The end of an instant: `Z`, or a fraction and `Z`. -/
def utcTail (tail : Text) : Bool :=
  match tail with
  | ['Z'] => true
  | '.' :: rest => rest.getLast? = some 'Z' && rest.dropLast ≠ [] && rest.dropLast.all Char.isDigit
  | _ => false

/-- `parse_utc`. What is before the tail is ASCII, so that characters count as bytes do. -/
def parseUtc (raw : Text) : Option ℤ := do
  guard (20 ≤ Text.len raw)
  let year ← digitsAt raw 0 4
  literalAt raw 4 '-'
  let month ← digitsAt raw 5 2
  literalAt raw 7 '-'
  let day ← digitsAt raw 8 2
  literalAt raw 10 'T'
  let hour ← digitsAt raw 11 2
  literalAt raw 13 ':'
  let minute ← digitsAt raw 14 2
  literalAt raw 16 ':'
  let second ← digitsAt raw 17 2
  guard (utcTail (raw.drop 19))
  guard (1900 ≤ year ∧ year ≤ 2200)
  guard (1 ≤ month ∧ month ≤ 12 ∧ 1 ≤ day ∧ day ≤ daysInMonth year month)
  guard (hour ≤ 23 ∧ minute ≤ 59 ∧ second ≤ 59)
  let start ← monthStart[(month - 1).toNat]?
  let leapDay := if 2 < month ∧ isLeap year then 1 else 0
  return (daysToYear year + start + (day - 1) + leapDay) * 86400 + hour * 3600 + minute * 60 + second

/-! ### The check -/

/-- `ASSERTION_NS`. -/
def assertionNs : Text := "urn:oasis:names:tc:SAML:2.0:assertion".toList

/-- `BEARER`. -/
def bearer : Text := "urn:oasis:names:tc:SAML:2.0:cm:bearer".toList

/-- `Expectations`. -/
structure Expectations where
  issuer : Text
  audience : Text
  recipient : Text
  inResponseTo : Option Text
  clockSkewSecs : ℤ
  maxAgeSecs : ℤ

/-- `ConditionError`. -/
inductive ConditionError where
  | wrongIssuer (found : Option Text)
  | unsupportedCondition (name : Text)
  | wrongAudience (found : Option Text)
  | expired
  | missingBound (field : String)
  | unreadableBound (field : String) (found : Text)
  | tooLongLived
  | unknownRequest
  | wrongRecipient (found : Option Text)
  | malformed
  deriving DecidableEq

/-- `Accepted`. -/
structure Accepted where
  nameId : Text
  nameIdFormat : Option Text
  assertionId : Text
  inResponseTo : Option Text
  expiresAtUnixSecs : ℤ
  deriving DecidableEq

/-- A sum clamped to `i64`. -/
def saturate (value : ℤ) : ℤ := max (-2 ^ 63) (min (2 ^ 63 - 1) value)

/-- `trim_matches`. -/
def Text.trimMatches (p : Char → Bool) (text : Text) : Text := ((text.dropWhile p).reverse.dropWhile p).reverse

/-- The only element of a list, or an error for none and one for several. -/
def exactlyOne {α : Type} (ifNone ifSeveral : ConditionError) : List α → Except ConditionError α
  | [] => .error ifNone
  | [single] => .ok single
  | _ => .error ifSeveral

/-- `bearer_confirmation_data`. -/
def bearerConfirmationData (subject : Scoped) : Except ConditionError Scoped := do
  let confirmation ← exactlyOne .malformed .malformed
    ((subject.children assertionNs "SubjectConfirmation".toList).filter fun confirmation =>
      confirmation.ordinaryAttribute "Method".toList = some bearer)
  exactlyOne .malformed .malformed (confirmation.children assertionNs "SubjectConfirmationData".toList)

/-- `read_instant`. -/
def readInstant (raw : Option Text) (field : String) : Except ConditionError ℤ := do
  let raw ← okOr raw (.missingBound field)
  okOr (parseUtc (Text.trimMatches isXmlSpace raw)) (.unreadableBound field raw)

/-- The audience is named in each restriction. -/
def checkAudiences (audience : Text) : List (List (Option Text)) → Except ConditionError Unit
  | [] => .ok ()
  | named :: rest =>
    if some audience ∈ named then checkAudiences audience rest else .error (.wrongAudience (named.head?.join))

/-- The conditions that this server understands. -/
def understoodConditions : List Text :=
  ["AudienceRestriction".toList, "OneTimeUse".toList, "ProxyRestriction".toList]

/-- Every condition is one that this server understands. -/
def checkUnderstood : List (Text × Text) → Except ConditionError Unit
  | [] => .ok ()
  | (ns, loc) :: rest =>
    if ns = assertionNs ∧ loc ∈ understoodConditions then checkUnderstood rest else .error (.unsupportedCondition loc)

/-- `read_conditions`. -/
def readConditions (conditions : Scoped) (expectations : Expectations) (now skew : ℤ) :
    Except ConditionError (ℤ × ℤ) := do
  let restrictions := conditions.children assertionNs "AudienceRestriction".toList
  refuseIf (restrictions.length = 0) (.wrongAudience none)
  checkAudiences expectations.audience
    (restrictions.map fun restriction => restriction.childTexts assertionNs "Audience".toList)
  checkUnderstood conditions.elementChildren
  let notBefore ← readInstant (conditions.ordinaryAttribute "NotBefore".toList) "Conditions/@NotBefore"
  let notOnOrAfter ← readInstant (conditions.ordinaryAttribute "NotOnOrAfter".toList) "Conditions/@NotOnOrAfter"
  refuseIf (notOnOrAfter ≤ notBefore) .malformed
  refuseIf (saturate (now + skew) < notBefore ∨ notOnOrAfter ≤ saturate (now - skew)) .expired
  refuseIf (expectations.maxAgeSecs < notOnOrAfter - notBefore) .tooLongLived
  return (notBefore, notOnOrAfter)

/-- What `read_subject` checks of the confirmation data: its expiry, and what it answers. -/
def readConfirmation (data : Scoped) (expectations : Expectations) (now skew : ℤ) :
    Except ConditionError (ℤ × Option Text) := do
  let carried := data.ordinaryAttribute "InResponseTo".toList
  refuseIf (carried ≠ expectations.inResponseTo) .unknownRequest
  let recipient := data.ordinaryAttribute "Recipient".toList
  refuseIf (recipient ≠ some expectations.recipient) (.wrongRecipient recipient)
  match data.ordinaryAttribute "NotBefore".toList with
  | some found => .error (.unsupportedCondition ("SubjectConfirmationData/@NotBefore=".toList ++ found))
  | none => .ok ()
  let expiry ← readInstant (data.ordinaryAttribute "NotOnOrAfter".toList) "SubjectConfirmationData/@NotOnOrAfter"
  refuseIf (expiry ≤ saturate (now - skew)) .expired
  return (expiry, carried)

/-- `read_subject`. -/
def readSubject (assertion : VerifiedAssertion) (expectations : Expectations) (now skew : ℤ) :
    Except ConditionError (Scoped × ℤ × Option Text) := do
  let subject ← exactlyOne .malformed .malformed (assertion.children assertionNs "Subject".toList)
  let data ← bearerConfirmationData subject
  let confirmation ← readConfirmation data expectations now skew
  let nameIdElement ← exactlyOne .malformed .malformed (subject.children assertionNs "NameID".toList)
  return (nameIdElement, confirmation)

/-- `conditions::check`. -/
def check (assertion : VerifiedAssertion) (expectations : Expectations) (now : ℤ) : Except ConditionError Accepted := do
  refuseIf (¬ assertion.is assertionNs "Assertion".toList) .malformed
  let assertionId ← okOr (assertion.attributeOf "ID".toList) .malformed
  let issuer := (only? (assertion.children assertionNs "Issuer".toList)).bind Scoped.textCollapsed
  refuseIf (issuer ≠ some expectations.issuer) (.wrongIssuer issuer)
  let conditions ← exactlyOne (.missingBound "Conditions element") .malformed
    (assertion.children assertionNs "Conditions".toList)
  let skew := max expectations.clockSkewSecs 0
  let window ← readConditions conditions expectations now skew
  let subject ← readSubject assertion expectations now skew
  let nameId ← okOr subject.1.textSimple .malformed
  refuseIf (nameId = [] ∨ Text.trimMatches isWhitespace nameId ≠ nameId) .malformed
  return {
    nameId := nameId
    nameIdFormat := subject.1.ordinaryAttribute "Format".toList
    assertionId := assertionId
    inResponseTo := subject.2.2
    expiresAtUnixSecs :=
      saturate (min (min window.2 (saturate (window.1 + expectations.maxAgeSecs))) subject.2.1 + skew) }

/-! ### Assertions of one view -/

theorem map_exactlyOne {α β : Type} (f : α → β) (iN i : ConditionError) (as : List α) :
    f <$> exactlyOne iN i as = exactlyOne iN i (as.map f) := by
  rcases as with _ | ⟨a, _ | ⟨a2, as⟩⟩ <;> rfl

section views

variable {e e2 : Scoped} {assertion assertion2 : VerifiedAssertion} (expectations : Expectations) (now skew : ℤ)

theorem exactlyOne_congr {es es2 : List Scoped} (iN i : ConditionError)
    (h : es.map Scoped.view = es2.map Scoped.view) :
    Scoped.view <$> exactlyOne iN i es = Scoped.view <$> exactlyOne iN i es2 := by
  rw [map_exactlyOne, map_exactlyOne, h]

theorem bearerConfirmationData_congr (h : e.view = e2.view) :
    Scoped.view <$> bearerConfirmationData e = Scoped.view <$> bearerConfirmationData e2 := by
  have hf : ∀ es : List Scoped,
      (es.filter fun c => c.ordinaryAttribute "Method".toList = some bearer).map Scoped.view =
        (es.map Scoped.view).filter fun view => view.attributeOf "Method".toList = some bearer := by
    intro es
    rw [List.filter_map]
    rfl
  unfold bearerConfirmationData
  rw [map_bind, map_bind]
  refine bind_eq_bind_of_view Scoped.view (exactlyOne_congr _ _ ?_) ?_
  · rw [hf, hf, Scoped.map_view_children_congr h]
  · intro c c2 hc
    exact exactlyOne_congr _ _ (Scoped.map_view_children_congr hc _ _)

theorem readConditions_congr (h : e.view = e2.view) :
    readConditions e expectations now skew = readConditions e2 expectations now skew := by
  have hr := Scoped.map_view_children_congr h assertionNs "AudienceRestriction".toList
  have hl := congrArg List.length hr
  rw [List.length_map, List.length_map] at hl
  have ht := map_eq_map_of_view (fun _ _ h => Scoped.childTexts_congr h assertionNs "Audience".toList) hr
  unfold readConditions
  simp only [hl, ht, Scoped.elementChildren_congr h, Scoped.ordinaryAttribute_congr h]

theorem readConfirmation_congr (h : e.view = e2.view) :
    readConfirmation e expectations now skew = readConfirmation e2 expectations now skew := by
  unfold readConfirmation
  simp only [Scoped.ordinaryAttribute_congr h]

variable (h : assertion.apex.view = assertion2.apex.view)

include h

theorem readSubject_congr :
    (fun subject => (subject.1.view, subject.2)) <$> readSubject assertion expectations now skew =
      (fun subject => (subject.1.view, subject.2)) <$> readSubject assertion2 expectations now skew := by
  unfold readSubject
  rw [map_bind, map_bind]
  refine bind_eq_bind_of_view Scoped.view (exactlyOne_congr _ _ (Scoped.map_view_children_congr h _ _)) ?_
  intro subject s2 hs
  rw [map_bind, map_bind]
  refine bind_eq_bind_of_view Scoped.view (bearerConfirmationData_congr hs) ?_
  intro d d2 hd
  rw [map_bind, map_bind, readConfirmation_congr expectations now skew hd]
  congr 1
  funext confirmation
  rw [map_bind, map_bind]
  refine bind_eq_bind_of_view Scoped.view (exactlyOne_congr _ _ (Scoped.map_view_children_congr hs _ _)) ?_
  intro name n2 hn
  simp [hn]

theorem issuer_congr (ns loc : Text) :
    (only? (assertion.children ns loc)).bind Scoped.textCollapsed =
      (only? (assertion2.children ns loc)).bind Scoped.textCollapsed := by
  have ht := map_eq_map_of_view (fun _ _ => Scoped.textCollapsed_congr) (Scoped.map_view_children_congr h ns loc)
  have hj : ∀ es : List Scoped, (only? es).bind Scoped.textCollapsed = (only? (es.map Scoped.textCollapsed)).join := by
    intro es
    rw [only?_map, ← Option.bind_id_eq_join, Option.bind_map]
    rfl
  rw [hj, hj]
  exact congrArg (fun texts => (only? texts).join) ht

/-- **Assertions with one view are accepted or refused alike.** -/
theorem check_eq_of_view :
    check assertion expectations now = check assertion2 expectations now := by
  have his : ∀ ns loc, assertion.is ns loc = assertion2.is ns loc :=
    fun ns loc => congrArg (fun view => View.is view ns loc) h
  have ha : ∀ name, assertion.attributeOf name = assertion2.attributeOf name :=
    fun name => Scoped.ordinaryAttribute_congr h name
  unfold check
  simp only [his, ha, issuer_congr h]
  congr 1; funext _
  congr 1; funext assertionId
  congr 1; funext _
  refine bind_eq_bind_of_view Scoped.view (exactlyOne_congr _ _ (Scoped.map_view_children_congr h _ _)) ?_
  intro c c2 hc
  rw [readConditions_congr expectations now _ hc]
  congr 1; funext window
  refine bind_eq_bind_of_view _ (readSubject_congr expectations now _ h) ?_
  intro subject s2 hs
  obtain ⟨hv, hr⟩ := Prod.mk.inj hs
  rw [Scoped.textSimple_congr hv, Scoped.ordinaryAttribute_congr hv, hr]

end views

/-! ### When an assertion is accepted -/

/-- **The bounds of an assertion that was accepted once decide when it is accepted.** -/
theorem check_of_accepted {assertion : VerifiedAssertion} {expectations : Expectations} {first : ℤ} {a : Accepted}
    (hs : 0 ≤ expectations.clockSkewSecs) (h : check assertion expectations first = .ok a) :
    ∃ start stop ex : ℤ, stop - start ≤ expectations.maxAgeSecs ∧
      a.expiresAtUnixSecs =
        saturate (min (min stop (saturate (start + expectations.maxAgeSecs))) ex + expectations.clockSkewSecs) ∧
      ∀ now b, check assertion expectations now = .ok b ↔ start ≤ saturate (now + expectations.clockSkewSecs) ∧
        saturate (now - expectations.clockSkewSecs) < min stop ex ∧ a = b := by
  simp only [check, readConditions, readSubject, readConfirmation, bind_eq_ok_iff, exists_unit_iff, refuseIf_eq_ok_iff,
    not_not, not_or, not_lt, not_le, max_eq_left hs] at h ⊢
  obtain ⟨hass, id, hid, hiss, c, hc, w, ⟨har, haud, hu, start, ht, stop, hsto, hi, -, hm, hw⟩, s,
    ⟨subj, hsubj, data, hdata, conf, ⟨hcarr, hrec, hconf⟩, nm, hnm, hs⟩, name, hname, hempty, ha⟩ := h
  cases hw
  cases hs
  cases hbef : data.ordinaryAttribute "NotBefore".toList with
  | some found =>
    rw [hbef] at hconf
    cases hconf
  | none =>
    simp only [hbef, ok_bind, bind_eq_ok_iff, exists_unit_iff, refuseIf_eq_ok_iff, not_le] at hconf
    obtain ⟨ex, hx, -, hp⟩ := hconf
    cases hp
    cases ha
    refine ⟨start, stop, ex, hm, rfl, fun now b => ?_⟩
    -- what does not depend on the instant has passed, and passes again
    simp only [hass, hid, hiss, hc, har, haud, hu, ht, hsto, hi, hsubj, hdata, hcarr, hrec, hbef, hx, hnm, hm, pure,
      Except.pure, Except.ok.injEq, exists_eq_left', true_and, not_false_eq_true, ok_bind, bind_eq_ok_iff, exists_unit_iff,
      refuseIf_eq_ok_iff, not_le, lt_min_iff]
    constructor
    · rintro ⟨_, ⟨⟨hn, ho⟩, rfl⟩, _, ⟨_, ⟨he, rfl⟩, rfl⟩, _, hnm, -, rfl⟩
      cases hname.symm.trans hnm
      exact ⟨hn, ⟨ho, he⟩, rfl⟩
    · rintro ⟨hn, ⟨ho, he⟩, rfl⟩
      exact ⟨_, ⟨⟨hn, ho⟩, rfl⟩, _, ⟨_, ⟨he, rfl⟩, rfl⟩, name, hname, hempty, rfl⟩

/-- Neither `now + skew` nor `now - skew` leaves `i64`. -/
def Unsaturated (expectations : Expectations) (now : ℤ) : Prop :=
  -2 ^ 63 ≤ now - expectations.clockSkewSecs ∧ now + expectations.clockSkewSecs < 2 ^ 63

/-- **An assertion is accepted during one interval, always with the same expiry, and never at or after it.** -/
theorem accepted_interval (assertion : VerifiedAssertion) (expectations : Expectations)
    (hskew : 0 ≤ expectations.clockSkewSecs) :
    { now | Unsaturated expectations now ∧ ∃ accepted, check assertion expectations now = .ok accepted }.OrdConnected ∧
    ∀ now accepted, check assertion expectations now = .ok accepted →
      ∀ later other, check assertion expectations later = .ok other →
        other.expiresAtUnixSecs = accepted.expiresAtUnixSecs ∧
          -- the sum that is the expiry has not saturated
          (accepted.expiresAtUnixSecs < 2 ^ 63 - 1 → Unsaturated expectations later →
            later < accepted.expiresAtUnixSecs) := by
  constructor
  · refine ⟨?_⟩
    rintro first ⟨hf, accepted, h⟩ last ⟨hl, other, ho⟩ now ⟨hfi, hla⟩
    obtain ⟨start, stop, exp, -, -, hch⟩ := check_of_accepted hskew h
    obtain ⟨hta, -⟩ := (hch first accepted).mp h
    obtain ⟨-, hst, -⟩ := (hch last other).mp ho
    unfold Unsaturated at hf hl
    refine ⟨⟨by omega, by omega⟩, accepted, (hch now accepted).mpr ⟨?_, ?_, rfl⟩⟩
    all_goals
      simp only [saturate] at hta hst ⊢
      omega
  · intro now accepted h later other ho
    obtain ⟨start, stop, exp, hmax, hxp, hch⟩ := check_of_accepted hskew h
    obtain ⟨-, hst, rfl⟩ := (hch later other).mp ho
    refine ⟨rfl, fun hfit hl => ?_⟩
    simp only [Unsaturated, saturate] at hl hst hxp
    omega

/-- An element of the assertion namespace with attributes, and what is in it. -/
def plainNode (name : String) (attributes : List (String × Text)) (children : List RichNode) : RichNode :=
  .element name.toList (attributes.map fun entry => ⟨entry.1.toList, entry.2⟩) children

/-- An assertion for the first five minutes of 1970, presented within two. -/
def sampleAssertion : VerifiedAssertion where
  signed := ⟨"Assertion".toList, [⟨"ID".toList, ['a']⟩], [
    plainNode "Issuer" [] [.text ['i']],
    plainNode "Conditions" [("NotBefore", "1970-01-01T00:00:00Z".toList), ("NotOnOrAfter", "1970-01-01T00:05:00Z".toList)]
      [plainNode "AudienceRestriction" [] [plainNode "Audience" [] [.text ['s']]]],
    plainNode "Subject" [] [plainNode "NameID" [] [.text ['n']],
      plainNode "SubjectConfirmation" [("Method", bearer)] [plainNode "SubjectConfirmationData"
        [("Recipient", ['r']), ("NotOnOrAfter", "1970-01-01T00:02:00Z".toList)] []]]]⟩
  inherited := [⟨[], assertionNs⟩]

/-- What the service provider of the sample expects. -/
def sampleExpectations : Expectations := ⟨['i'], ['s'], ['r'], none, 60, 600⟩

/-- The sample is accepted up to its skew past the two minutes. -/
theorem sampleAssertion_interval :
    check sampleAssertion sampleExpectations 0 = .ok ⟨['n'], none, ['a'], none, 180⟩ ∧
      ∀ later other, Unsaturated sampleExpectations later → check sampleAssertion sampleExpectations later = .ok other →
        later < 180 := by
  have h : check sampleAssertion sampleExpectations 0 = .ok ⟨['n'], none, ['a'], none, 180⟩ := by decide +kernel
  refine ⟨h, fun later other hl ho => ?_⟩
  exact ((accepted_interval sampleAssertion sampleExpectations (by decide)).2 0 _ h later other ho).2 (by decide) hl

end IronAuth.Saml
