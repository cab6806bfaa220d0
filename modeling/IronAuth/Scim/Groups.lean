import IronAuth.Scim.Patch
import IronAuth.Scim.Resource

/-!
# Groups

The PATCH of a group. Every operation of the request is planned first, and every member that it
names is looked up in the organization of the credential; then the changes are applied, one after
the other, each with writes of its own.

The group is its label and its live bindings, one for each membership: the unique index on live
bindings lets no second one in, so that a binding is named by its membership here. Writes do not
fail. The events that ride on them are left out.
-/

namespace IronAuth.Scim

open Lib.Fallible List

/-- An error response: the status, the `scimType` and the detail. -/
structure Refusal where
  status : ℕ
  scimType : Option String
  detail : String
  deriving DecidableEq

/-- `not_found`. -/
def notFound : Refusal := ⟨404, none, "no such user is visible to this credential"⟩

/-- A refusal with status 400. -/
def badRequest (scimType detail : String) : Refusal := ⟨400, some scimType, detail⟩

/-- `MANAGEMENT_LIST_HARD_CAP`. -/
def managementListHardCap : ℕ := 1000

/-! ### The directory -/

/-- A live membership of a user. -/
structure Membership (U M O : Type) where
  id : M
  organization : O
  user : U

/-- What a credential sees of the directory: how an id is read, and the memberships in the order
of their creation. An id names one membership. -/
structure Directory (U M O : Type) where
  parseUserId : Text → Option U
  memberships : List (Membership U M O)
  nodup : (memberships.map Membership.id).Nodup

/-- A request's context: the directory, the organization of the credential and `max_scan`. -/
structure Context (U M O : Type) where
  directory : Directory U M O
  organization : O
  maxScan : ℕ

/-- `ResolvedMember`. -/
structure ResolvedMember (U M : Type) where
  user : U
  membership : M
  deriving DecidableEq

section resolve

variable {U M O : Type} [DecidableEq U] [DecidableEq M] [DecidableEq O] (ctx : Context U M O)

/-- `scan_bound`. -/
def Context.scanBound : ℕ := min ctx.maxScan managementListHardCap

/-- `addressed_user`. -/
def addressedUser (rawId : Text) : Except Refusal U := do
  let user ← okOr (ctx.directory.parseUserId rawId) notFound
  refuseIf (¬ ∃ membership ∈ ctx.directory.memberships, membership.organization = ctx.organization ∧ membership.user = user)
    notFound
  return user

/-- `membership_of`, from the memberships that `list_for_user` returns. -/
def membershipOf (user : U) : Except Refusal M :=
  let memberships := (ctx.directory.memberships.filter fun membership => membership.user = user).take managementListHardCap
  okOr ((memberships.find? fun membership => membership.organization = ctx.organization).map Membership.id) notFound

/-- One turn of the loop of `resolve_members`. -/
def resolveMember (rawId : Text) : Except Refusal (ResolvedMember U M) := do
  let user ← addressedUser ctx rawId
  let membership ← membershipOf ctx user
  return ⟨user, membership⟩

/-- `resolve_members`, from the values of the `ScimMember`s. -/
def resolveMembers (wanted : List Text) : Except Refusal (List (ResolvedMember U M)) := do
  refuseIf (ctx.scanBound < wanted.length)
    (badRequest "tooMany" "this request names more members than one request may examine")
  wanted.foldlM (fun resolved rawId => do
    let resolution ← resolveMember ctx rawId
    return if resolution ∈ resolved then resolved else resolved ++ [resolution]) []

end resolve

/-! ### Planning -/

/-- `GroupChange`. -/
inductive GroupChange (U M : Type) where
  | rename (label : Text)
  | members (wanted : List (ResolvedMember U M)) (replace : Bool)
  | drop (unwanted : List (ResolvedMember U M))

/-- `GroupPatchOperation`. -/
structure GroupPatchOperation (F : Type) where
  op : Text
  path : Option Text
  value : Option (Json F)

section plan

variable {F : Type}

/-- `ScimMember`, as `serde` reads it: an object whose `value` is a string if it is there, or the
same as a sequence. -/
def scimMember : Json F → Option Text
  | .object fields =>
    match fields.lookup "value".toList with
    | none => some []
    | some (.string value) => some value
    | some _ => none
  | .array [] => some []
  | .array [.string value] => some value
  | _ => none

/-- `members_of`. -/
def membersOf : Option (Json F) → Except Refusal (List Text)
  | none => .ok []
  | some (.array entries) =>
    okOr (entries.mapM scimMember) (badRequest "invalidValue" "each member must be an object carrying a value")
  | some _ => .error (badRequest "invalidValue" "members must be an array")

/-- `selected_member`. -/
def selectedMember : Filter F → Option Text
  | .compare path op (.string id) =>
    if op ≠ .equal ∨ ¬ Text.eqIgnoreAsciiCase path.name "value".toList then none else some id
  | _ => none

variable {U M O : Type} [DecidableEq U] [DecidableEq M] [DecidableEq O]
variable (floats : Floats F) (ctx : Context U M O)

/-- The members that a value names. -/
def resolveValue (value : Option (Json F)) : Except Refusal (List (ResolvedMember U M)) := do
  let named ← membersOf value
  resolveMembers ctx named

/-- `remove` on `members`. -/
def planRemove (selector : Option (Filter F)) (value : Option (Json F)) : Except Refusal (List (GroupChange U M)) :=
  match selector with
  | some selector => do
    let named ← okOr (selectedMember selector)
      (badRequest "invalidPath" "a members selector must compare value to a single member id")
    let members ← resolveMembers ctx [named]
    return [.drop members]
  | none => do
    let named ← membersOf value
    if named = [] then return [.members [] true]
    else
      let members ← resolveMembers ctx named
      return [.drop members]

/-- One field of `plan_whole_object`. -/
def planField (replace : Bool) (field : Text × Json F) : Except Refusal (List (GroupChange U M)) :=
  let name := Text.toAsciiLowercase field.1
  match field.2 with
  | .string label => .ok (if name = "displayname".toList then [.rename label] else [])
  | .array entries =>
    if name = "members".toList then do
      let members ← resolveValue ctx (some (.array entries))
      return [.members members replace]
    else .ok []
  | _ => .ok []

/-- `plan_whole_object`. -/
def planWholeObject (value : Option (Json F)) (replace : Bool) : Except Refusal (List (GroupChange U M)) :=
  match value with
  | some (.object fields) => List.flatten <$> fields.mapM (planField ctx replace)
  | _ => .error (badRequest "invalidValue" "an operation with no path must carry an object value")

/-- The arms of `plan_group_operation` with a path. -/
def planAttribute (op : Text) (path : PatchPath F) (value : Option (Json F)) : Except Refusal (List (GroupChange U M)) :=
  let name := path.attributeName.toAsciiLowercase
  let unserved := badRequest "invalidPath" ("this surface does not serve the group attribute " ++ String.ofList name)
  if name = "members".toList then
    if op = "add".toList then (fun members => [.members members false]) <$> resolveValue ctx value
    else if op = "replace".toList then (fun members => [.members members true]) <$> resolveValue ctx value
    else if op = "remove".toList then planRemove ctx path.selector value
    else .error unserved
  else if op = "replace".toList ∧ name = "displayname".toList then
    match value with
    | some (.string label) => .ok [.rename label]
    | _ => .error (badRequest "invalidValue" "displayName must be a string")
  else .error unserved

/-- `plan_group_operation`. -/
def planGroupOperation (operation : GroupPatchOperation F) : Except Refusal (List (GroupChange U M)) :=
  let op := operation.op.toAsciiLowercase
  match operation.path with
  | some raw =>
    match parsePatchPath floats raw with
    | .ok path => planAttribute ctx op path operation.value
    | .error _ => .error (badRequest "invalidPath" "the operation path is not a SCIM attribute path")
  | none =>
    if op = "add".toList ∨ op = "replace".toList then planWholeObject ctx operation.value (op = "replace".toList)
    else if op = "remove".toList then
      .error (badRequest "noTarget" "a remove operation must name the attribute it removes")
    else .error (badRequest "invalidSyntax" "op must be add, remove or replace")

/-- The first loop of `apply_group_operations`. -/
def planOperations (operations : List (GroupPatchOperation F)) : Except Refusal (List (GroupChange U M)) :=
  List.flatten <$> operations.mapM (planGroupOperation floats ctx)

end plan

/-! ### The group -/

/-- A group, with one live binding for each membership in it. -/
structure Group (M : Type) where
  displayName : Text
  members : List M
  nodup : members.Nodup

section group

variable {M : Type} [DecidableEq M]

/-- A new binding. The unique index lets no second one in. -/
def Group.bind (group : Group M) (membership : M) : Group M where
  displayName := group.displayName
  members := if membership ∈ group.members then group.members else group.members ++ [membership]
  nodup := by
    split_ifs with h
    · exact group.nodup
    · exact concat_eq_append ▸ group.nodup.concat h

/-- The binding is removed. -/
def Group.unbind (group : Group M) (membership : M) : Group M where
  displayName := group.displayName
  members := group.members.erase membership
  nodup := group.nodup.erase membership

variable {U O : Type} (ctx : Context U M O)

/-- `member_bindings`: one row more than the bound is asked for. -/
def memberBindings (group : Group M) : Except Refusal (List M) := do
  let bindings := group.members.take (min (ctx.scanBound + 1) (managementListHardCap + 1))
  refuseIf (ctx.scanBound < bindings.length)
    (badRequest "tooMany" "this group has more members than one request may examine")
  return bindings

/-- `plan_members`, the members to bind. -/
def addingOf (existing : List M) (wanted : List (ResolvedMember U M)) : List M :=
  (wanted.map ResolvedMember.membership).filter fun membership => membership ∉ existing

/-- `plan_members`, the bindings to remove. -/
def removingOf (existing : List M) (wanted : List (ResolvedMember U M)) (replace : Bool) : List M :=
  if replace then existing.filter fun membership => membership ∉ wanted.map ResolvedMember.membership else []

/-- `set_members`. -/
def setMembers (group : Group M) (wanted : List (ResolvedMember U M)) (replace : Bool) : Except Refusal (Group M) := do
  let existing ← memberBindings ctx group
  let resulting := if replace then wanted.length else existing.length + (addingOf existing wanted).length
  refuseIf (ctx.scanBound < resulting)
    (badRequest "tooMany" "this change would leave the group with more members than one request may examine")
  return (removingOf existing wanted replace).foldl Group.unbind ((addingOf existing wanted).foldl Group.bind group)

/-- `drop_members`. -/
def dropMembers (group : Group M) (unwanted : List (ResolvedMember U M)) : Except Refusal (Group M) := do
  let existing ← memberBindings ctx group
  let removing := (unwanted.map ResolvedMember.membership).filter fun membership => membership ∈ existing
  return removing.foldl Group.unbind group

/-- One change: `rename`, `set_members` or `drop_members`. -/
def applyChange (group : Group M) : GroupChange U M → Except Refusal (Group M)
  | .rename label => .ok { group with displayName := label }
  | .members wanted replace => setMembers ctx group wanted replace
  | .drop unwanted => dropMembers ctx group unwanted

/-- The second loop of `apply_group_operations`: what was applied before a refusal stays. -/
def applyChanges (group : Group M) : List (GroupChange U M) → Group M × Except Refusal Unit
  | [] => (group, .ok ())
  | change :: rest =>
    match applyChange ctx group change with
    | .error refusal => (group, .error refusal)
    | .ok next => applyChanges next rest

/-- `apply_group_operations`: the group afterwards, and the answer. -/
def applyGroupOperations {F : Type} [DecidableEq U] [DecidableEq O] (floats : Floats F) (group : Group M)
    (operations : List (GroupPatchOperation F)) : Group M × Except Refusal Unit :=
  match planOperations floats ctx operations with
  | .error refusal => (group, .error refusal)
  | .ok planned => applyChanges ctx group planned

end group

/-! ### What a name stands for -/

section resolved

variable {U M O : Type} [DecidableEq U] [DecidableEq M] [DecidableEq O] {ctx : Context U M O}

variable {res : ResolvedMember U M}

omit [DecidableEq M] in
theorem membership_of_resolveMember {r : Text} (h : resolveMember ctx r = .ok res) :
    ∃ membership ∈ ctx.directory.memberships, membership.id = res.membership ∧ membership.user = res.user := by
  simp only [resolveMember, bind_eq_ok_iff] at h
  obtain ⟨user, -, id, hid, h⟩ := h
  cases h
  rw [membershipOf, okOr_eq_ok_iff, Option.map_eq_some_iff] at hid
  obtain ⟨membership, hfd, rfl⟩ := hid
  have hm := mem_filter.mp (mem_of_mem_take (mem_of_find?_eq_some hfd))
  exact ⟨membership, hm.1, rfl, of_decide_eq_true hm.2⟩

/-- The members that were resolved: as many at most as were named, no membership twice, and each
named. -/
structure Resolution (ctx : Context U M O) (wanted : List Text) (resolved : List (ResolvedMember U M)) : Prop where
  length_le : resolved.length ≤ wanted.length
  nodup : (resolved.map ResolvedMember.membership).Nodup
  named : ∀ member, member ∈ resolved ↔ ∃ rawId ∈ wanted, resolveMember ctx rawId = .ok member

/-- One turn of the loop. -/
theorem Resolution.push {pre : List Text} {s : List (ResolvedMember U M)} (h : Resolution ctx pre s)
    {ri : Text} {r : ResolvedMember U M} (hr : resolveMember ctx ri = .ok r) :
    Resolution ctx (pre ++ [ri]) (if r ∈ s then s else s ++ [r]) := by
  have hnm : ∀ member, (∃ raw ∈ pre ++ [ri], resolveMember ctx raw = .ok member) ↔
      member ∈ s ∨ r = member := by
    intro member
    simp [or_and_right, exists_or, ← h.named, hr]
  have hl := h.length_le
  by_cases hm : r ∈ s
  · rw [if_pos hm]
    refine ⟨by simp only [length_append]; omega, h.nodup, ?_⟩
    intro member
    rw [hnm]
    constructor
    · exact .inl
    · rintro (hmb | rfl)
      · exact hmb
      · exact hm
  · rw [if_neg hm]
    refine ⟨by simp only [length_append, length_singleton]; omega, ?_, ?_⟩
    · rw [map_append, map_singleton, ← concat_eq_append]
      refine h.nodup.concat ?_
      intro hma
      obtain ⟨member, hmb, heq⟩ := mem_map.mp hma
      obtain ⟨raw, -, hra⟩ := (h.named member).mp hmb
      obtain ⟨m1, hm1, hid, hu⟩ := membership_of_resolveMember hra
      obtain ⟨m2, hm2, hid2, hu2⟩ := membership_of_resolveMember hr
      obtain rfl := inj_on_of_nodup_map ctx.directory.nodup hm1 hm2 (hid.trans (heq.trans hid2.symm))
      cases member
      cases r
      simp_all
    · intro member
      rw [hnm, mem_append, mem_singleton, eq_comm (a := r)]

theorem resolution_of_resolveMembers {w : List Text} {resolved : List (ResolvedMember U M)}
    (h : resolveMembers ctx w = .ok resolved) : w.length ≤ ctx.scanBound ∧ Resolution ctx w resolved := by
  simp only [resolveMembers, bind_eq_ok_iff] at h
  obtain ⟨_, hbd, h⟩ := h
  rw [refuseIf_eq_ok_iff, not_lt] at hbd
  refine ⟨hbd, ?_⟩
  -- the loop, from any members that were resolved before
  have hl : ∀ (re pre : List Text) (s : List (ResolvedMember U M)), Resolution ctx pre s →
      re.foldlM (fun resolved r => do
        let resolution ← resolveMember ctx r
        return if resolution ∈ resolved then resolved else resolved ++ [resolution]) s = .ok resolved →
      Resolution ctx (pre ++ re) resolved := by
    intro re
    induction re with
    | nil =>
      intro pre s hst hr
      cases hr
      rwa [append_nil]
    | cons r re ih =>
      intro pre s hst hr
      rw [foldlM_cons, bind_eq_ok_iff] at hr
      obtain ⟨next, hn, hr⟩ := hr
      obtain ⟨resolution, hre, hp⟩ := bind_eq_ok_iff.mp hn
      cases hp
      rw [append_cons]
      exact ih _ _ (hst.push hre) hr
  exact hl w [] [] ⟨le_rfl, by simp, by simp⟩ h

end resolved

/-! ### What a change does -/

/-- What a group is for: its label and the set of its members. -/
@[ext]
structure Roster (M : Type) where
  displayName : Text
  members : Finset M

/-- The memberships of members that were resolved. -/
def memberships {U M : Type} [DecidableEq M] (wanted : List (ResolvedMember U M)) : Finset M :=
  (wanted.map ResolvedMember.membership).toFinset

/-- What a change says. -/
def GroupChange.effect {U M : Type} [DecidableEq M] (roster : Roster M) : GroupChange U M → Roster M
  | .rename label => { roster with displayName := label }
  | .members wanted true => { roster with members := memberships wanted }
  | .members wanted false => { roster with members := roster.members ∪ memberships wanted }
  | .drop unwanted => { roster with members := roster.members \ memberships unwanted }

/-- The members stay within the bound, before and after. -/
def GroupChange.Fits {U M : Type} [DecidableEq M] (bound : ℕ) (roster : Roster M) : GroupChange U M → Prop
  | .rename _ => True
  | change => roster.members.card ≤ bound ∧ (change.effect roster).members.card ≤ bound

/-- The members of a change were resolved. -/
def GroupChange.Resolved {U M : Type} (bound : ℕ) : GroupChange U M → Prop
  | .rename _ => True
  | .members wanted _ => wanted.length ≤ bound ∧ (wanted.map ResolvedMember.membership).Nodup
  | .drop _ => True

section group

variable {M : Type} [DecidableEq M]

/-- The label and the members of a group. -/
def Group.roster (group : Group M) : Roster M := ⟨group.displayName, group.members.toFinset⟩

theorem Group.card_roster (g : Group M) : g.roster.members.card = g.members.length :=
  toFinset_card_of_nodup g.nodup

theorem roster_foldl_bind (g : Group M) (a : List M) :
    (a.foldl Group.bind g).roster = { g.roster with members := g.roster.members ∪ a.toFinset } := by
  induction a generalizing g with
  | nil => simp
  | cons membership a ih =>
    have hb : (g.bind membership).roster = { g.roster with members := insert membership g.roster.members } := by
      by_cases h : membership ∈ g.members
      · simp [Group.roster, Group.bind, h]
      · ext
        · rfl
        · simp [Group.roster, Group.bind, h]
    rw [foldl_cons, ih, hb]
    simp [Finset.insert_union, Finset.union_insert]

theorem roster_foldl_unbind (g : Group M) (r : List M) :
    (r.foldl Group.unbind g).roster = { g.roster with members := g.roster.members \ r.toFinset } := by
  induction r generalizing g with
  | nil => simp
  | cons membership r ih =>
    have hu : (g.unbind membership).roster = { g.roster with members := g.roster.members.erase membership } := by
      ext
      · rfl
      · simp [Group.roster, Group.unbind, g.nodup.mem_erase_iff]
    rw [foldl_cons, ih, hu]
    ext m
    · rfl
    · simp only [Finset.mem_sdiff, Finset.mem_erase, toFinset_cons, Finset.mem_insert, not_or]
      tauto

variable {U O : Type} {ctx : Context U M O}

variable {g : Group M} {chg : GroupChange U M}

omit [DecidableEq M] in
/-- All of the rows are read, unless there are more of them than the bound. -/
theorem scan_eq {α β : Type} (ctx : Context U M O) (rows : List α) (r : Refusal) (f : List α → Except Refusal β) :
    (refuseIf (ctx.scanBound < (rows.take (min (ctx.scanBound + 1) (managementListHardCap + 1))).length) r >>= fun _ =>
      f (rows.take (min (ctx.scanBound + 1) (managementListHardCap + 1)))) =
      if ctx.scanBound < rows.length then .error r else f rows := by
  have hc : ctx.scanBound ≤ managementListHardCap := min_le_right _ _
  rw [min_eq_left (by omega), length_take]
  split_ifs with h
  · rw [refuseIf_pos (by omega), error_bind]
  · rw [refuseIf_neg (by omega), ok_bind, take_of_length_le (by omega)]

omit [DecidableEq M] in
theorem memberBindings_eq_ok_iff {old : List M} :
    memberBindings ctx g = .ok old ↔ g.members.length ≤ ctx.scanBound ∧ old = g.members := by
  rw [memberBindings, scan_eq]
  split_ifs with h
  · simp [h]
  · simp [not_lt.mp h, pure, Except.pure, eq_comm]

/-- The size that `set_members` foresees is the one that comes out. -/
theorem card_effect_members (g : Group M) {w : List (ResolvedMember U M)}
    (hnd : (w.map ResolvedMember.membership).Nodup) (r : Bool) :
    ((GroupChange.members w r).effect g.roster).members.card =
      if r then w.length else g.members.length + (addingOf g.members w).length := by
  cases r with
  | true =>
    show (memberships w).card = _
    rw [memberships, toFinset_card_of_nodup hnd, length_map, if_pos rfl]
  | false =>
    have ha : (addingOf g.members w).Nodup := hnd.filter _
    have hu : g.roster.members ∪ memberships w = (g.members ++ addingOf g.members w).toFinset := by
      ext m
      simp [Group.roster, memberships, addingOf]
      tauto
    have hd : (g.members ++ addingOf g.members w).Nodup := by
      refine g.nodup.append ha ?_
      intro m hm had
      exact absurd hm (by simpa [addingOf] using (mem_filter.mp had).2)
    show (g.roster.members ∪ memberships w).card = _
    rw [hu, toFinset_card_of_nodup hd, length_append, if_neg (by simp)]

/-- **A change is applied when it fits into the scan bound**, and does to the label and the set
of members what it says. -/
theorem applyChange_eq_ok_iff (hr : chg.Resolved ctx.scanBound) :
    (∃ next, applyChange ctx g chg = .ok next) ↔ chg.Fits ctx.scanBound g.roster := by
  cases chg with
  | rename l => exact ⟨fun _ => trivial, fun _ => ⟨_, rfl⟩⟩
  | members wanted replace =>
    simp only [applyChange, setMembers, bind_eq_ok_iff, memberBindings_eq_ok_iff, GroupChange.Fits, Group.card_roster,
      card_effect_members g hr.2]
    constructor
    · rintro ⟨next, old, ⟨hle, rfl⟩, _, hbd, -⟩
      rw [refuseIf_eq_ok_iff, not_lt] at hbd
      exact ⟨hle, hbd⟩
    · rintro ⟨hle, hbd⟩
      exact ⟨_, _, ⟨hle, rfl⟩, (), refuseIf_neg (by omega), rfl⟩
  | drop u =>
    simp only [applyChange, dropMembers, bind_eq_ok_iff, memberBindings_eq_ok_iff, GroupChange.Fits, Group.card_roster]
    constructor
    · rintro ⟨next, old, ⟨hle, rfl⟩, -⟩
      exact ⟨hle, (Finset.card_le_card Finset.sdiff_subset).trans (g.card_roster.trans_le hle)⟩
    · rintro ⟨hle, -⟩
      exact ⟨_, _, ⟨hle, rfl⟩, rfl⟩

theorem roster_applyChange {next : Group M} (h : applyChange ctx g chg = .ok next) :
    next.roster = chg.effect g.roster := by
  cases chg with
  | rename l =>
    cases h
    rfl
  | members wanted replace =>
    simp only [applyChange, setMembers, bind_eq_ok_iff, memberBindings_eq_ok_iff] at h
    obtain ⟨old, ⟨-, rfl⟩, _, -, h⟩ := h
    cases h
    rw [roster_foldl_unbind, roster_foldl_bind]
    cases replace with
    | false | true =>
      ext m
      · rfl
      · simp [GroupChange.effect, Group.roster, addingOf, removingOf, memberships]
        tauto
  | drop u =>
    simp only [applyChange, dropMembers, bind_eq_ok_iff, memberBindings_eq_ok_iff] at h
    obtain ⟨old, ⟨-, rfl⟩, h⟩ := h
    cases h
    rw [roster_foldl_unbind]
    ext m
    · rfl
    · simp [GroupChange.effect, Group.roster, memberships]
      tauto

end group

end IronAuth.Scim
