import IronAuth.Scim.Groups
import IronAuth.Store.Identifier

/-!
# Users, and the filter on their names

`collect_matches` answers `userName eq "v"` from the index of login identifiers where it can, and
walks the members of the organization where it cannot. The index is asked for the accounts that
hold `v` in its canonical form, and an account may hold several identifiers besides its own
handle; the walk compares handles in lower case. A `userName` is the handle, and two of them are
the same when their canonical forms are.

The blind index of an identifier is taken to tell two canonical identifiers apart, and reads of
the store succeed.

## What is proved

* `mem_scanMembers_iff`: what the walk returns.
* `answered_iff`: when the answer is one to the filter.
-/

namespace IronAuth.Scim

open Lib.Fallible Store List

/-! ### The tables -/

/-- A row of `user_identifiers`, with the identifier that its blind index is of. -/
structure UserIdentifier (U : Type) where
  user : U
  canonical : CanonicalIdentifier

/-- What the requests of one connection see: the memberships, the handles of the accounts that are
not deleted, the login identifiers, and what this connection and this organization hold of a
person. -/
structure Environment (F U M O : Type) extends Context U M O where
  handle : U → Option Text
  identifiers : List (UserIdentifier U)
  displayId : U → Text
  displayId_injective : Function.Injective displayId
  externalIdOf : U → Option Text
  resolveExternalId : Text → Option U
  isActive : U → Bool
  enterpriseOf : U → List (Text × Json F)

/-- `identifier_kind`. -/
def identifierKind (handle : Text) : IdentifierType := if '@' ∈ handle then .email else .username

section users

variable {F U M O : Type} (env : Environment F U M O)

/-! ### Resources -/

/-- `user_resource`. -/
def userResource (user : U) (handle : Text) : Json F :=
  let enterprise := env.enterpriseOf user
  let schemas := "urn:ietf:params:scim:schemas:core:2.0:User".toList ::
    if enterprise = [] then [] else ["urn:ietf:params:scim:schemas:extension:enterprise:2.0:User".toList]
  .object (
    [("active".toList, Json.bool (env.isActive user))] ++
    (env.externalIdOf user).toList.map (fun externalId => ("externalId".toList, Json.string externalId)) ++
    [("id".toList, Json.string (env.displayId user)),
      ("meta".toList, Json.object [("location".toList, Json.string ("/scim/v2/Users/".toList ++ env.displayId user)),
        ("resourceType".toList, Json.string "User".toList)]),
      ("schemas".toList, Json.array (schemas.map Json.string))] ++
    (if enterprise = [] then []
      else [("urn:ietf:params:scim:schemas:extension:enterprise:2.0:User".toList, Json.object enterprise)]) ++
    [("userName".toList, Json.string handle)])

/-- `rendered_user`. -/
def renderedUser (user : U) : Except Refusal (Json F) := do
  let handle ← okOr (env.handle user) notFound
  return userResource env user handle

theorem Json.member_of_last {fr : List (Text × Json F)} {key n : Text} {value : Json F}
    (hf : ∀ f ∈ fr, Text.eqIgnoreAsciiCase f.1 n = false) (hk : Text.eqIgnoreAsciiCase key n = true) :
    (Json.object (fr ++ [(key, value)])).member n = some value := by
  have hn : (fr.find? fun f => Text.eqIgnoreAsciiCase f.1 n) = none := by
    rw [List.find?_eq_none]
    intro f hfi
    rw [hf f hfi]
    exact Bool.false_ne_true
  simp [Json.member, Json.asObject, List.find?_append, hn, hk]

/-- The other attributes of a resource. -/
def otherAttributes : List Text :=
  ["active".toList, "externalId".toList, "id".toList, "meta".toList, "schemas".toList,
    "urn:ietf:params:scim:schemas:extension:enterprise:2.0:User".toList]

theorem userResource_eq (u : U) (ha : Text) : ∃ f : List (Text × Json F),
    (∀ fi ∈ f, fi.1 ∈ otherAttributes) ∧
      userResource env u ha = .object (f ++ [("userName".toList, .string ha)]) := by
  refine ⟨_, ?_, rfl⟩
  intro fi hf
  simp only [mem_append, mem_cons, mem_map, Option.mem_toList, not_mem_nil, or_false] at hf
  rcases hf with ((rfl | ⟨e, -, rfl⟩) | rfl | rfl | rfl) | he
  · simp [otherAttributes]
  · simp [otherAttributes]
  · simp [otherAttributes]
  · simp [otherAttributes]
  · simp [otherAttributes]
  · split_ifs at he
    · simp at he
    · rw [mem_singleton] at he
      simp [otherAttributes, he]

/-- **A resource has its handle for `userName`.** -/
theorem attributeValues_userResource {path : AttributePath} (hn : Text.eqIgnoreAsciiCase path.name "userName".toList)
    (hs : path.sub = none) (u : U) (ha : Text) :
    attributeValues (userResource env u ha) path = [.string ha] := by
  obtain ⟨fr, hf, heq⟩ := userResource_eq env u ha
  have hl : path.name.toAsciiLowercase = Text.toAsciiLowercase "userName".toList := of_decide_eq_true hn
  have ho : ∀ key ∈ otherAttributes, ¬ Text.toAsciiLowercase key = Text.toAsciiLowercase "userName".toList := by decide
  have hmb : (userResource env u ha).member path.name = some (.string ha) := by
    rw [heq]
    refine Json.member_of_last (fun f hfi => ?_) ?_
    · rw [Text.eqIgnoreAsciiCase, hl, decide_eq_false_iff_not]
      exact ho f.1 (hf f hfi)
    · rw [Text.eqIgnoreAsciiCase, hl, decide_eq_true_eq]
  rw [attributeValues, hmb, hs]
  rfl

/-- A resource tells whose it is. -/
theorem eq_of_userResource_eq {u user2 : U} {ha h2 : Text}
    (h : userResource env u ha = userResource env user2 h2) : u = user2 := by
  have hid : ∀ (u : U) (ha : Text), (userResource env u ha).member "id".toList = some (.string (env.displayId u)) := by
    intro u ha
    unfold userResource
    cases env.externalIdOf u with
    | none | some => rfl
  have hmb := congrArg (Json.member · "id".toList) h
  simp only [hid, Option.some.injEq, Json.string.injEq] at hmb
  exact env.displayId_injective hmb

/-! ### Answering a filter -/

variable (unicode : Unicode) (floats : Floats F)

/-- `resolve` of the login identifiers: the account of each row. -/
def Environment.resolve (kind : IdentifierType) (raw : Text) : List U :=
  let canonical := canonicalizeIdentifier unicode kind raw
  if canonical.value = [] then []
  else (env.identifiers.filter fun row => row.canonical = canonical).map UserIdentifier.user

/-- `indexed_candidate`. -/
def indexedCandidate : Filter F → Option U
  | .compare path op (.string wanted) =>
    if op ≠ .equal ∨ path.sub ≠ none then none
    else if Text.eqIgnoreAsciiCase path.name "userName".toList then
      match env.resolve unicode (identifierKind wanted) wanted with
      | [single] => some single
      | _ => none
    else if Text.eqIgnoreAsciiCase path.name "externalId".toList then env.resolveExternalId wanted
    else none
  | _ => none

variable [DecidableEq O]

/-- The members of the organization, in the order of `list_for_org`. -/
def Environment.members : List U :=
  (env.directory.memberships.filter fun membership => membership.organization = env.organization).map Membership.user

/-- The refusal of a scan. -/
def tooManyMembers : Refusal :=
  badRequest "tooMany"
    "this organization has more members than one request may examine; narrow the request with a userName or externalId filter"

/-- One turn of the loop of `scan_members`. -/
def scanMember (filter : Option (Filter F)) (user : U) : Option (Json F) := do
  let handle ← env.handle user
  let resource := userResource env user handle
  if filter.all fun filter => filterMatches floats unicode.lowercase filter resource then some resource else none

/-- `scan_members`: one row more than the bound is asked for. -/
def scanMembers (filter : Option (Filter F)) : Except Refusal (List (Json F)) := do
  let memberships := env.members.take (min (env.scanBound + 1) (managementListHardCap + 1))
  refuseIf (env.scanBound < memberships.length) tooManyMembers
  return memberships.filterMap (scanMember env unicode floats filter)

/-- `collect_matches`. -/
def collectMatches [DecidableEq U] (filter : Option (Filter F)) : Except Refusal (List (Json F)) :=
  match filter.bind (indexedCandidate env unicode) with
  | some candidate =>
    if candidate ∈ env.members then do
      let resource ← renderedUser env candidate
      return [resource]
    else .ok []
  | none => scanMembers env unicode floats filter

/-- The canonical form of a handle. -/
def canonicalHandle (handle : Text) : CanonicalIdentifier := canonicalizeIdentifier unicode (identifierKind handle) handle

/-! ### The walk -/

variable {env unicode floats} {path : AttributePath} {wanted : Text}

/-- **The walk returns the members whose handle is the wanted one in lower case**, unless there are
more of them than the bound. -/
theorem scanMembers_eq (f : Option (Filter F)) : scanMembers env unicode floats f =
    if env.scanBound < env.members.length then .error tooManyMembers
    else .ok (env.members.filterMap (scanMember env unicode floats f)) :=
  scan_eq env.toContext env.members tooManyMembers fun rows => .ok (rows.filterMap (scanMember env unicode floats f))

/-! ### An answer to the filter -/

variable (env unicode)

/-- The members whose own handle has the wanted canonical form. -/
def Wanted (wanted : Text) (user : U) (handle : Text) : Prop :=
  user ∈ env.members ∧ env.handle user = some handle ∧ canonicalHandle unicode handle = canonicalHandle unicode wanted

/-- The resources are those of the members that the filter asks for. -/
structure Answers (wanted : Text) (resources : List (Json F)) : Prop where
  sound : ∀ resource ∈ resources, ∃ user handle, Wanted env unicode wanted user handle ∧ resource = userResource env user handle
  complete : ∀ user handle, Wanted env unicode wanted user handle → userResource env user handle ∈ resources

/-- The filter is answered, or there are more members than the scan bound. -/
def Answered [DecidableEq U] (floats : Floats F) (path : AttributePath) (wanted : Text) : Prop :=
  (∃ resources, collectMatches env unicode floats (some (.compare path .equal (.string wanted))) = .ok resources ∧
      Answers env unicode wanted resources) ∨
    collectMatches env unicode floats (some (.compare path .equal (.string wanted))) = .error tooManyMembers ∧
      env.scanBound < env.members.length

/-- The one account that holds the identifier is the one that the filter asks for: if it is a
member, its own handle has the wanted form, and no other member's does. -/
def HolderIsWanted (wanted : Text) (holder : U) : Prop :=
  (holder ∈ env.members → ∃ handle, Wanted env unicode wanted holder handle) ∧
    ∀ user handle, Wanted env unicode wanted user handle → user = holder

/-- The walk compares as the canonical forms do. -/
def ScanAgrees (wanted : Text) : Prop :=
  ∀ user ∈ env.members, ∀ handle, env.handle user = some handle →
    (unicode.lowercase handle = unicode.lowercase wanted ↔ canonicalHandle unicode handle = canonicalHandle unicode wanted)

variable {env unicode}

omit [DecidableEq O] in
theorem indexedCandidate_eq_some_iff (hn : Text.eqIgnoreAsciiCase path.name "userName".toList) (hs : path.sub = none)
    {hl : U} : indexedCandidate env unicode (.compare path .equal (.string wanted)) = some hl ↔
      env.resolve unicode (identifierKind wanted) wanted = [hl] := by
  simp only [indexedCandidate, hs, hn, ne_eq, not_true_eq_false, or_self, if_false, if_true]
  split
  · rename_i single hsg
    rw [hsg]
    simp
  · rename_i ho
    constructor
    · intro h
      cases h
    · intro h
      exact absurd h (ho hl)

variable {holder : U}

/-- One resource is the answer when it is that of the holder, and the holder is wanted. -/
theorem answers_singleton_iff {ha : Text} (hmb : holder ∈ env.members)
    (hh : env.handle holder = some ha) :
    Answers env unicode wanted [userResource env holder ha] ↔ HolderIsWanted env unicode wanted holder := by
  constructor
  · intro h
    constructor
    · intro _
      obtain ⟨user, own, hw, heq⟩ := h.sound _ (mem_singleton_self _)
      obtain rfl := eq_of_userResource_eq env heq
      exact ⟨own, hw⟩
    · intro user own hw
      exact eq_of_userResource_eq env (mem_singleton.mp (h.complete user own hw))
  · rintro ⟨hho, hs⟩
    obtain ⟨own, hw⟩ := hho hmb
    cases hh.symm.trans hw.2.1
    constructor
    · intro r hr
      exact ⟨holder, ha, hw, mem_singleton.mp hr⟩
    · intro user own ho
      obtain rfl := hs user own ho
      cases hh.symm.trans ho.2.1
      exact mem_singleton_self _

/-- No resource is the answer when the holder is not a member, and no member is wanted. -/
theorem answers_nil_iff (hmb : holder ∉ env.members) :
    Answers env unicode wanted [] ↔ HolderIsWanted env unicode wanted holder := by
  constructor
  · intro h
    refine ⟨fun hin => absurd hin hmb, fun user own hw => ?_⟩
    exact absurd (h.complete user own hw) (not_mem_nil)
  · rintro ⟨-, hs⟩
    constructor
    · intro r hr
      exact absurd hr not_mem_nil
    · intro user own hw
      exact absurd (hs user own hw ▸ hw.1) hmb

/-- What the walk returns is the answer when its comparison agrees with that of the canonical
forms. -/
theorem answers_scan_iff (hn : Text.eqIgnoreAsciiCase path.name "userName".toList) (hs : path.sub = none) :
    Answers env unicode wanted
        (env.members.filterMap (scanMember env unicode floats (some (.compare path .equal (.string wanted))))) ↔
      ScanAgrees env unicode wanted := by
  have hm : ∀ resource, resource ∈ env.members.filterMap (scanMember env unicode floats (some (.compare path .equal (.string wanted)))) ↔
      ∃ user ∈ env.members, ∃ handle, env.handle user = some handle ∧ unicode.lowercase handle = unicode.lowercase wanted ∧
        userResource env user handle = resource := by
    intro resource
    refine mem_filterMap.trans (exists_congr fun user => and_congr_right fun _ => ?_)
    unfold scanMember
    cases hh : env.handle user with
    | none => simp
    | some handle =>
      have hm : filterMatches floats unicode.lowercase (.compare path .equal (.string wanted)) (userResource env user handle) ↔
          unicode.lowercase handle = unicode.lowercase wanted := by
        simp [filterMatches, attributeValues_userResource env hn hs user handle, compareValue, foldedCompare]
      simp [Option.bind_eq_bind, Option.all_some, hm, Option.ite_none_right_eq_some]
  constructor
  · intro h user hmb handle hh
    constructor
    · intro hl
      obtain ⟨u2, h2, hw, heq⟩ := h.sound _ ((hm _).mpr ⟨user, hmb, handle, hh, hl, rfl⟩)
      obtain rfl := eq_of_userResource_eq env heq
      cases hh.symm.trans hw.2.1
      exact hw.2.2
    · intro hc
      obtain ⟨u2, -, h2, hh2, hl, heq⟩ := (hm _).mp (h.complete user handle ⟨hmb, hh, hc⟩)
      obtain rfl := eq_of_userResource_eq env heq
      cases hh.symm.trans hh2
      exact hl
  · intro h
    constructor
    · intro resource hr
      obtain ⟨user, hmb, handle, hh, hl, rfl⟩ := (hm resource).mp hr
      exact ⟨user, handle, ⟨hmb, hh, (h user hmb handle hh).mp hl⟩, rfl⟩
    · rintro user handle ⟨hmb, hh, hc⟩
      exact (hm _).mpr ⟨user, hmb, handle, hh, (h user hmb handle hh).mpr hc, rfl⟩

variable [DecidableEq U]

theorem answered_of_ok {resources : List (Json F)}
    (h : collectMatches env unicode floats (some (.compare path .equal (.string wanted))) = .ok resources) :
    Answered env unicode floats path wanted ↔ Answers env unicode wanted resources := by
  rw [Answered, h]
  simp

/-- The answer from the index. -/
theorem answered_indexed_iff (hn : Text.eqIgnoreAsciiCase path.name "userName".toList) (hs : path.sub = none)
    (hh : env.resolve unicode (identifierKind wanted) wanted = [holder]) :
    Answered env unicode floats path wanted ↔ HolderIsWanted env unicode wanted holder := by
  have hc : (some (Filter.compare path .equal (.string wanted)) : Option (Filter F)).bind (indexedCandidate env unicode) =
      some holder := (indexedCandidate_eq_some_iff hn hs).mpr hh
  by_cases hmb : holder ∈ env.members
  · cases hha : env.handle holder with
    | none =>
      have hr : collectMatches env unicode floats (some (.compare path .equal (.string wanted))) = .error notFound := by
        simp only [collectMatches, hc, if_pos hmb, renderedUser, hha]
        rfl
      constructor
      · rintro (⟨resources, hok, -⟩ | ⟨he, -⟩)
        · rw [hr] at hok
          cases hok
        · rw [hr] at he
          exact absurd (Except.error.inj he) (by decide)
      · rintro ⟨hw, -⟩
        obtain ⟨handle, -, ho, -⟩ := hw hmb
        rw [hha] at ho
        cases ho
    | some handle =>
      rw [← answers_singleton_iff hmb hha]
      refine answered_of_ok ?_
      simp only [collectMatches, hc, if_pos hmb, renderedUser, hha]
      rfl
  · rw [← answers_nil_iff hmb]
    refine answered_of_ok ?_
    simp [collectMatches, hc, if_neg hmb]

/-- The answer from the walk. -/
theorem answered_scan_iff (hn : Text.eqIgnoreAsciiCase path.name "userName".toList) (hsu : path.sub = none)
    (hno : ∀ holder, env.resolve unicode (identifierKind wanted) wanted ≠ [holder]) :
    Answered env unicode floats path wanted ↔ (env.members.length ≤ env.scanBound → ScanAgrees env unicode wanted) := by
  have hc : (some (Filter.compare path .equal (.string wanted)) : Option (Filter F)).bind (indexedCandidate env unicode) =
      none := by
    rw [Option.eq_none_iff_forall_ne_some]
    intro holder h
    exact hno holder ((indexedCandidate_eq_some_iff hn hsu).mp h)
  have hs : collectMatches env unicode floats (some (.compare path .equal (.string wanted))) =
      scanMembers env unicode floats (some (.compare path .equal (.string wanted))) := by
    simp [collectMatches, hc]
  by_cases hbd : env.scanBound < env.members.length
  · rw [scanMembers_eq, if_pos hbd] at hs
    exact ⟨fun _ hle => absurd hbd (not_lt.mpr hle), fun _ => .inr ⟨hs, hbd⟩⟩
  · rw [scanMembers_eq, if_neg hbd] at hs
    rw [answered_of_ok hs, answers_scan_iff hn hsu]
    exact ⟨fun h _ => h, fun h => h (not_lt.mp hbd)⟩

/-- **When `userName eq` is answered**: where one account holds the identifier, when that account
is the one that is asked for; where none or several do, when the handles of the members that are
walked are the same in lower case as in canonical form. -/
theorem answered_iff (hname : Text.eqIgnoreAsciiCase path.name "userName".toList) (hsub : path.sub = none) :
    Answered env unicode floats path wanted ↔
      (∀ holder, env.resolve unicode (identifierKind wanted) wanted = [holder] → HolderIsWanted env unicode wanted holder) ∧
        ((∀ holder, env.resolve unicode (identifierKind wanted) wanted ≠ [holder]) →
          env.members.length ≤ env.scanBound → ScanAgrees env unicode wanted) := by
  by_cases h : ∃ holder, env.resolve unicode (identifierKind wanted) wanted = [holder]
  · obtain ⟨holder, hho⟩ := h
    rw [answered_indexed_iff hname hsub hho]
    constructor
    · intro hwa
      refine ⟨fun hol2 hho2 => ?_, fun hno => absurd hho (hno holder)⟩
      cases hho.symm.trans hho2
      exact hwa
    · rintro ⟨hwa, -⟩
      exact hwa holder hho
  · have hno : ∀ holder, env.resolve unicode (identifierKind wanted) wanted ≠ [holder] := not_exists.mp h
    rw [answered_scan_iff hname hsub hno]
    exact ⟨fun hsc => ⟨fun holder hho => absurd hho (hno holder), fun _ => hsc⟩, fun hsc => hsc.2 hno⟩

end users

/-! ### Somebody else's answer -/

/-- Unicode, on ASCII. -/
def asciiUnicode : Unicode where
  isControl := fun c => c.toNat < 32 || c.toNat = 127
  nfkc := id
  defaultCaseFold := Text.toAsciiLowercase
  isWhitespace := Char.isWhitespace
  lowercase := Text.toAsciiLowercase

/-- Bob is the only member, and holds Alice's handle as an identifier besides the own one. -/
def bobHoldsAlice : Environment Unit ℕ ℕ Unit where
  directory := { parseUserId := fun _ => none, memberships := [⟨10, (), 0⟩], nodup := by decide }
  organization := ()
  maxScan := 5
  handle := fun user => if user = 0 then some "bob".toList else none
  identifiers := [⟨0, canonicalizeIdentifier asciiUnicode .username "alice".toList⟩]
  displayId := fun user => List.replicate user 'u'
  displayId_injective := fun user user2 h => by simpa using congrArg List.length h
  externalIdOf := fun _ => none
  resolveExternalId := fun _ => none
  isActive := fun _ => true
  enterpriseOf := fun _ => []

/-- `userName`. -/
def userNamePath : AttributePath := ⟨none, "userName".toList, none⟩

/-- Who asks for Alice gets Bob. -/
theorem bob_for_alice :
    collectMatches bobHoldsAlice asciiUnicode noFloats (some (.compare userNamePath .equal (.string "alice".toList))) =
        .ok [userResource bobHoldsAlice 0 "bob".toList] ∧
      canonicalHandle asciiUnicode "bob".toList ≠ canonicalHandle asciiUnicode "alice".toList := by
  exact ⟨rfl, by decide⟩

/-- Who asks for Bob gets Bob. -/
theorem bob_for_bob : Answered bobHoldsAlice asciiUnicode noFloats userNamePath "BOB".toList := by
  have hre : bobHoldsAlice.resolve asciiUnicode (identifierKind "BOB".toList) "BOB".toList = [] := rfl
  refine (answered_iff (by decide) rfl).mpr ⟨fun holder h => ?_, fun _ _ user hme handle hha => ?_⟩
  · rw [hre] at h
    cases h
  · obtain rfl : user = 0 := mem_singleton.mp hme
    obtain rfl : "bob".toList = handle := Option.some.inj hha
    decide

end IronAuth.Scim
