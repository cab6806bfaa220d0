import IronAuth.Scim.GroupAtomicity

/-!
# Member selectors

A path can name one member, `members[value eq "x"]`, or a part of each, `members.display`. The
plan of an operation looks at the selector for `remove` only, and at the sub-attribute not at all.
A `replace` with either takes out of the group whoever its value does not name, and a `remove` of
a sub-attribute that carries no value takes out everybody.
-/

namespace IronAuth.Scim

open Lib.Fallible List

section names

variable {F U M O : Type} [DecidableEq U] [DecidableEq M] [DecidableEq O] (ctx : Context U M O)

/-- The id stands for this member. -/
def NamedBy (rawId : Text) (membership : M) : Prop :=
  ∃ resolved : ResolvedMember U M, resolveMember ctx rawId = .ok resolved ∧ resolved.membership = membership

/-- The value of an operation names this member. -/
def NamedIn (value : Option (Json F)) (membership : M) : Prop :=
  ∃ ids, membersOf value = .ok ids ∧ ∃ rawId ∈ ids, NamedBy ctx rawId membership

/-- The value of an operation names members only, and not too many. -/
def Resolvable (value : Option (Json F)) : Prop :=
  ∃ ids, membersOf value = .ok ids ∧ ids.length ≤ ctx.scanBound ∧ ∀ rawId ∈ ids, ∃ membership, NamedBy ctx rawId membership

/-- The member id that the selector of a path names. -/
def PatchPath.selected (path : PatchPath F) : Option Text := path.selector.bind selectedMember

/-- The path of an operation, if it is one on `members`. -/
def GroupPatchOperation.membersPath (floats : Floats F) (operation : GroupPatchOperation F) : Option (PatchPath F) :=
  match operation.path.map (parsePatchPath floats) with
  | some (.ok path) => if path.attributeName.toAsciiLowercase = "members".toList then some path else none
  | _ => none

/-- Who is taken out of the group by an operation. -/
def removedBy (floats : Floats F) (group : Group M) (operation : GroupPatchOperation F) : Finset M :=
  group.roster.members \ (applyGroupOperations ctx floats group [operation]).1.roster.members

variable {ctx}

variable {w : List Text} {res : List (ResolvedMember U M)} {v : Option (Json F)} {chg : GroupChange U M}
   {p : PatchPath F}

theorem mem_memberships_of_resolveMembers (h : resolveMembers ctx w = .ok res) (membership : M) :
    membership ∈ memberships res ↔ ∃ r ∈ w, NamedBy ctx r membership := by
  have hnm := (resolution_of_resolveMembers h).2.named
  simp only [memberships, mem_toFinset, mem_map, hnm, NamedBy, ← exists_and_right, ← exists_and_left, and_assoc]
  exact exists_comm

theorem exists_resolveMembers_iff : (∃ res, resolveMembers ctx w = .ok res) ↔
    w.length ≤ ctx.scanBound ∧ ∀ r ∈ w, ∃ membership, NamedBy ctx r membership := by
  have hl : (∃ res, w.foldlM (fun res r => do
        let resolution ← resolveMember ctx r
        return if resolution ∈ res then res else res ++ [resolution]) [] = .ok res) ↔
      ∀ r ∈ w, ∃ membership, NamedBy ctx r membership := by
    refine exists_foldlM_eq_ok_iff (fun res r => ?_) [] w
    simp only [bind_eq_ok_iff, NamedBy]
    constructor
    · rintro ⟨next, resolution, hr, -⟩
      exact ⟨_, resolution, hr, rfl⟩
    · rintro ⟨membership, resolution, hr, -⟩
      exact ⟨_, resolution, hr, rfl⟩
  rw [← hl]
  simp [resolveMembers, exists_and_left]

theorem exists_resolveValue_iff {value : Option (Json F)} :
    (∃ res, resolveValue ctx value = .ok res) ↔ Resolvable ctx value := by
  simp only [resolveValue, bind_eq_ok_iff, Resolvable]
  constructor
  · rintro ⟨res, ids, hi, hrs⟩
    exact ⟨ids, hi, exists_resolveMembers_iff.mp ⟨res, hrs⟩⟩
  · rintro ⟨ids, hi, hnm⟩
    obtain ⟨res, hrs⟩ := exists_resolveMembers_iff.mpr hnm
    exact ⟨res, ids, hi, hrs⟩

theorem mem_memberships_of_resolveValue (h : resolveValue ctx v = .ok res) (membership : M) :
    membership ∈ memberships res ↔ NamedIn ctx v membership := by
  simp only [resolveValue, bind_eq_ok_iff] at h
  obtain ⟨ids, hi, hrs⟩ := h
  rw [mem_memberships_of_resolveMembers hrs]
  simp [NamedIn, hi]

/-! ### Who is taken out -/

variable {floats : Floats F} {group : Group M} {operation : GroupPatchOperation F}

theorem planOperations_single (operation : GroupPatchOperation F) :
    planOperations floats ctx [operation] = planGroupOperation floats ctx operation := by
  simp only [planOperations, mapM_cons, mapM_nil]
  cases planGroupOperation floats ctx operation with
  | error r => rfl
  | ok c => exact congrArg Except.ok (append_nil c)

theorem removedBy_of_error {r : Refusal} (h : planGroupOperation floats ctx operation = .error r) :
    removedBy ctx floats group operation = ∅ := by
  rw [removedBy, applyGroupOperations, planOperations_single, h]
  exact Finset.sdiff_self _

theorem resolved_of_planGroupOperation
    (h : planGroupOperation floats ctx operation = .ok [chg]) : chg.Resolved ctx.scanBound := by
  have hp : planOperations floats ctx [operation] = .ok [chg] := by rw [planOperations_single, h]
  exact resolved_of_planOperations hp chg (mem_singleton_self chg)

/-- One change takes out those who are not in what it says, if it fits into the scan bound. -/
theorem removedBy_of_change (h : planGroupOperation floats ctx operation = .ok [chg])
    (m : M) : m ∈ removedBy ctx floats group operation ↔
      m ∈ group.members ∧ chg.Fits ctx.scanBound group.roster ∧
        m ∉ (chg.effect group.roster).members := by
  have hf : (∃ next, applyChange ctx group chg = .ok next) ↔ chg.Fits ctx.scanBound group.roster :=
    applyChange_eq_ok_iff (resolved_of_planGroupOperation h)
  have hm : m ∈ group.roster.members ↔ m ∈ group.members := mem_toFinset
  rw [removedBy, applyGroupOperations, planOperations_single, h, Finset.mem_sdiff, hm]
  simp only [applyChanges]
  cases hc : applyChange ctx group chg with
  | error r =>
    have hno : ¬ chg.Fits ctx.scanBound group.roster := by
      rw [← hf]
      rintro ⟨next, hn⟩
      rw [hc] at hn
      cases hn
    simp [hno, hm]
  | ok next =>
    have hfi := hf.mp ⟨next, hc⟩
    simp [hfi, roster_applyChange hc]

/-- **A replacement takes out whoever is not in it**, if the group can be read. -/
theorem removedBy_members {wanted : List (ResolvedMember U M)}
    (h : planGroupOperation floats ctx operation = .ok [.members wanted true]) (m : M) :
    m ∈ removedBy ctx floats group operation ↔
      m ∈ group.members ∧ group.members.length ≤ ctx.scanBound ∧ m ∉ memberships wanted := by
  have hc : (memberships wanted).card ≤ ctx.scanBound :=
    (toFinset_card_le _).trans ((length_map _).trans_le (resolved_of_planGroupOperation h).1)
  rw [removedBy_of_change h]
  simp [GroupChange.Fits, GroupChange.effect, Group.card_roster, hc]

/-- **A removal takes out whom it names**, if the group can be read. -/
theorem removedBy_drop {unwanted : List (ResolvedMember U M)}
    (h : planGroupOperation floats ctx operation = .ok [.drop unwanted]) (m : M) :
    m ∈ removedBy ctx floats group operation ↔
      m ∈ group.members ∧ group.members.length ≤ ctx.scanBound ∧ m ∈ memberships unwanted := by
  have hle : (group.roster.members \ memberships unwanted).card ≤ group.members.length :=
    (Finset.card_le_card Finset.sdiff_subset).trans_eq group.card_roster
  have hm : m ∈ group.roster.members ↔ m ∈ group.members := mem_toFinset
  rw [removedBy_of_change h]
  simp only [GroupChange.Fits, GroupChange.effect, Finset.mem_sdiff, hm, Group.card_roster, not_and, not_not]
  constructor
  · rintro ⟨hin, ⟨hbd, -⟩, hd⟩
    exact ⟨hin, hbd, hd hin⟩
  · rintro ⟨hin, hbd, hd⟩
    exact ⟨hin, ⟨hbd, hle.trans hbd⟩, fun _ => hd⟩

/-! ### Who is taken out by an operation on `members` -/

theorem planGroupOperation_of_membersPath (ctx : Context U M O)
    (h : operation.membersPath floats = some p) :
    planGroupOperation floats ctx operation = planAttribute ctx operation.op.toAsciiLowercase p operation.value ∧
      p.attributeName.toAsciiLowercase = "members".toList := by
  unfold GroupPatchOperation.membersPath at h
  split at h
  · rename_i parsed hp
    obtain ⟨raw, hr, hpr⟩ := Option.map_eq_some_iff.mp hp
    split_ifs at h with hn
    cases h
    refine ⟨?_, hn⟩
    simp [planGroupOperation, hr, hpr]
  · cases h

/-- A `remove` of anything but `members` is refused. -/
theorem planGroupOperation_remove_of_none (ctx : Context U M O) (h : operation.membersPath floats = none)
    (hop : operation.op.toAsciiLowercase = "remove".toList) :
    ∃ refusal, planGroupOperation floats ctx operation = .error refusal := by
  have hr : ¬ "remove".toList = "replace".toList := by decide
  unfold planGroupOperation
  simp only [hop]
  cases hp : operation.path with
  | none =>
    exact ⟨_, rfl⟩
  | some raw =>
    cases hpa : parsePatchPath floats raw with
    | error error =>
      simp only [hpa]
      exact ⟨_, rfl⟩
    | ok path =>
      have hn : ¬ path.attributeName.toAsciiLowercase = "members".toList := by
        intro hn
        simp [GroupPatchOperation.membersPath, hp, hpa, hn] at h
      simp only [hpa, planAttribute, hn, hr, if_false, false_and]
      exact ⟨_, rfl⟩

theorem mem_removedBy_replace
    (hp : planGroupOperation floats ctx operation = (fun members => [.members members true]) <$> resolveValue ctx v)
    (membership : M) : membership ∈ removedBy ctx floats group operation ↔
      membership ∈ group.members ∧ group.members.length ≤ ctx.scanBound ∧ Resolvable ctx v ∧
        ¬ NamedIn ctx v membership := by
  rw [← exists_resolveValue_iff]
  cases hrs : resolveValue ctx v with
  | error r =>
    rw [hrs] at hp
    simp [removedBy_of_error hp]
  | ok wanted =>
    rw [hrs] at hp
    rw [removedBy_members hp, mem_memberships_of_resolveValue hrs]
    simp

theorem mem_removedBy_remove
    (hp : planGroupOperation floats ctx operation = planRemove ctx p.selector operation.value) (m : M) :
    m ∈ removedBy ctx floats group operation ↔
      m ∈ group.members ∧ group.members.length ≤ ctx.scanBound ∧
        ((∃ r, p.selected = some r ∧ NamedBy ctx r m) ∨
          p.selector = none ∧ (membersOf operation.value = .ok [] ∨
            Resolvable ctx operation.value ∧ NamedIn ctx operation.value m)) := by
  rw [PatchPath.selected]
  cases hs : p.selector with
  | some selector =>
    simp only [hs, planRemove, Option.bind_some, reduceCtorEq, false_and, or_false] at hp ⊢
    cases hsl : selectedMember selector with
    | none =>
      rw [hsl] at hp
      simp [removedBy_of_error hp]
    | some r =>
      rw [hsl] at hp
      simp only [okOr, ok_bind] at hp
      cases hrs : resolveMembers ctx [r] with
      | error re =>
        rw [hrs] at hp
        -- a group that has a member and can be read leaves room for the one that is named
        have hn : ¬ (m ∈ group.members ∧ group.members.length ≤ ctx.scanBound ∧ NamedBy ctx r m) := by
          rintro ⟨hm, hbd, hnm⟩
          have hpo := length_pos_of_mem hm
          obtain ⟨res, hok⟩ := exists_resolveMembers_iff.mpr
            (show [r].length ≤ ctx.scanBound ∧ ∀ raw ∈ [r], ∃ m, NamedBy ctx raw m from
              ⟨by simp only [length_singleton]; omega, forall_mem_singleton.mpr ⟨m, hnm⟩⟩)
          rw [hrs] at hok
          cases hok
        simp [removedBy_of_error hp, hn]
      | ok members =>
        rw [hrs] at hp
        rw [removedBy_drop hp, mem_memberships_of_resolveMembers hrs]
        simp
  | none =>
    simp only [hs, planRemove] at hp
    cases hi : membersOf operation.value with
    | error re =>
      rw [hi] at hp
      simp [removedBy_of_error hp, Resolvable, hi]
    | ok ids =>
      rw [hi] at hp
      simp only [ok_bind] at hp
      split_ifs at hp with he
      · rw [removedBy_members hp]
        simp [memberships, he]
      · have hv : resolveValue ctx operation.value = resolveMembers ctx ids := by rw [resolveValue, hi]; rfl
        rw [← exists_resolveValue_iff, hv]
        cases hrs : resolveMembers ctx ids with
        | error re =>
          rw [hrs] at hp
          simp [removedBy_of_error hp, he]
        | ok members =>
          rw [hrs] at hp
          rw [removedBy_drop hp, mem_memberships_of_resolveValue (hv.trans hrs)]
          simp [he]

/-- **Who is taken out by an operation on `members`**: by `replace` whoever the value does not
name, whatever the path selects; by `remove` whom the selector names, or without one whom the value
names, or everybody if it names nobody. -/
theorem mem_removedBy_iff (ctx : Context U M O) (group : Group M) (h : operation.membersPath floats = some p) (m : M) :
    m ∈ removedBy ctx floats group operation ↔
      m ∈ group.members ∧ group.members.length ≤ ctx.scanBound ∧
        (operation.op.toAsciiLowercase = "replace".toList ∧ Resolvable ctx operation.value ∧
            ¬ NamedIn ctx operation.value m ∨
          operation.op.toAsciiLowercase = "remove".toList ∧
            ((∃ r, p.selected = some r ∧ NamedBy ctx r m) ∨
              p.selector = none ∧ (membersOf operation.value = .ok [] ∨
                Resolvable ctx operation.value ∧ NamedIn ctx operation.value m))) := by
  obtain ⟨hp, hn⟩ := planGroupOperation_of_membersPath ctx h
  simp only [planAttribute, hn, if_true] at hp
  split_ifs at hp with ha hr hre
  · have hno : removedBy ctx floats group operation = ∅ := by
      cases hrs : resolveValue ctx operation.value with
      | error re =>
        rw [hrs] at hp
        exact removedBy_of_error hp
      | ok wanted =>
        rw [hrs] at hp
        ext membership
        rw [removedBy_of_change hp]
        simp only [GroupChange.effect, Group.roster, Finset.mem_union, mem_toFinset, Finset.notMem_empty, iff_false]
        tauto
    have hr : ¬ "add".toList = "replace".toList := by decide
    have hre : ¬ "add".toList = "remove".toList := by decide
    simp only [hno, ha, hr, hre, Finset.notMem_empty, false_and, or_self, and_false]
  · have hre : ¬ "replace".toList = "remove".toList := by decide
    rw [mem_removedBy_replace hp]
    simp only [hr, hre, true_and, false_and, or_false]
  · have hr : ¬ "remove".toList = "replace".toList := by decide
    rw [mem_removedBy_remove hp]
    simp only [hre, hr, true_and, false_and, false_or]
  · simp only [removedBy_of_error hp, hr, hre, Finset.notMem_empty, false_and, or_self, and_false]

/-! ### Frames -/

variable (floats ctx group operation)

/-- An operation touches only the members that it names. -/
structure Framed : Prop where
  /-- `members[value eq "x"]` takes out nobody but `x`. -/
  selected : ∀ path rawId, operation.membersPath floats = some path → path.subAttribute = none →
    path.selected = some rawId → ∀ membership ∈ removedBy ctx floats group operation, NamedBy ctx rawId membership
  /-- A sub-attribute of `members` takes out nobody whom the value does not name. -/
  subAttribute : ∀ path, operation.membersPath floats = some path → path.subAttribute ≠ none →
    ∀ membership ∈ removedBy ctx floats group operation, NamedIn ctx operation.value membership
  /-- Members that are not named are removed by `members` without a value only. -/
  wholesale : operation.op.toAsciiLowercase = "remove".toList →
    ∀ membership ∈ removedBy ctx floats group operation, ¬ NamedIn ctx operation.value membership →
      (∀ path rawId, operation.membersPath floats = some path → path.selected = some rawId → ¬ NamedBy ctx rawId membership) →
        ∃ path, operation.membersPath floats = some path ∧ path.selector = none ∧ path.subAttribute = none ∧
          operation.value = none

/-- What an operation on `members` has to keep to, of a member whom its value does not name. -/
def Careful (path : PatchPath F) (membership : M) : Prop :=
  (operation.op.toAsciiLowercase = "replace".toList → Resolvable ctx operation.value →
    path.subAttribute = none ∧ ∀ rawId, path.selected = some rawId → NamedBy ctx rawId membership) ∧
  (operation.op.toAsciiLowercase = "remove".toList →
    (path.selector = none → membersOf operation.value = .ok [] → path.subAttribute = none ∧ operation.value = none) ∧
      ∀ rawId, path.selected = some rawId → NamedBy ctx rawId membership → path.subAttribute = none)

variable {floats ctx group operation}

theorem PatchPath.selected_of_selector (h : p.selector = none) : p.selected = none := by
  rw [PatchPath.selected, h]
  rfl

/-- **When an operation touches only the members that it names**: exactly when it keeps to that
for each member of a group that can be read and whom its value does not name. -/
theorem framed_iff : Framed ctx floats group operation ↔
    ∀ path, operation.membersPath floats = some path → group.members.length ≤ ctx.scanBound →
      ∀ membership ∈ group.members, ¬ NamedIn ctx operation.value membership → Careful ctx operation path membership := by
  constructor
  · intro h path hpa hbo membership hmem hna
    have hre := mem_removedBy_iff ctx group hpa membership
    refine ⟨fun hop hva => ?_, fun hop => ⟨fun hel hids => ?_, fun ra hse hby => ?_⟩⟩
    · have hout := hre.mpr ⟨hmem, hbo, .inl ⟨hop, hva, hna⟩⟩
      have hsub : path.subAttribute = none := by
        by_contra hsub
        exact hna (h.subAttribute path hpa hsub membership hout)
      exact ⟨hsub, fun ra hse => h.selected path ra hpa hsub hse membership hout⟩
    · have hout := hre.mpr ⟨hmem, hbo, .inr ⟨hop, .inr ⟨hel, .inl hids⟩⟩⟩
      obtain ⟨path2, hpa2, -, hsub, hva⟩ := h.wholesale hop membership hout hna (by
        intro path2 ra hpa2 hse
        cases hpa.symm.trans hpa2
        rw [path.selected_of_selector hel] at hse
        cases hse)
      cases hpa.symm.trans hpa2
      exact ⟨hsub, hva⟩
    · by_contra hsub
      have hout := hre.mpr ⟨hmem, hbo, .inr ⟨hop, .inl ⟨ra, hse, hby⟩⟩⟩
      exact hna (h.subAttribute path hpa hsub membership hout)
  · intro h
    refine ⟨?_, ?_, ?_⟩
    · intro path ra hpa hsub hse membership hout
      obtain ⟨hmem, hbo, ⟨hop, hva, hna⟩ | ⟨-, ⟨raw2, hse2, hby⟩ | ⟨hel, -⟩⟩⟩ :=
        (mem_removedBy_iff ctx group hpa membership).mp hout
      · exact ((h path hpa hbo membership hmem hna).1 hop hva).2 ra hse
      · cases hse.symm.trans hse2
        exact hby
      · rw [path.selected_of_selector hel] at hse
        cases hse
    · intro path hpa hsub membership hout
      by_contra hna
      obtain ⟨hmem, hbo, ⟨hop, hva, -⟩ | ⟨hop, ⟨ra, hse, hby⟩ | ⟨hel, hids | ⟨-, hin⟩⟩⟩⟩ :=
        (mem_removedBy_iff ctx group hpa membership).mp hout
      · exact hsub ((h path hpa hbo membership hmem hna).1 hop hva).1
      · exact hsub (((h path hpa hbo membership hmem hna).2 hop).2 ra hse hby)
      · exact hsub (((h path hpa hbo membership hmem hna).2 hop).1 hel hids).1
      · exact hna hin
    · intro hop membership hout hna hsel
      cases hpa : operation.membersPath floats with
      | none =>
        obtain ⟨r, hr⟩ := planGroupOperation_remove_of_none ctx hpa hop
        rw [removedBy_of_error hr] at hout
        exact absurd hout (Finset.notMem_empty membership)
      | some path =>
        obtain ⟨hmem, hbo, ⟨hep, -⟩ | ⟨-, ⟨ra, hse, hby⟩ | ⟨hel, hids | ⟨-, hin⟩⟩⟩⟩ :=
          (mem_removedBy_iff ctx group hpa membership).mp hout
        · exact absurd (hop.symm.trans hep) (by decide)
        · exact absurd hby (hsel path ra hpa hse)
        · have hpl := ((h path hpa hbo membership hmem hna).2 hop).1 hel hids
          exact ⟨path, rfl, hel, hpl⟩
        · exact absurd hin hna

end names

/-! ### A path that is not looked at -/

/-- `remove` of the displayed names. -/
def removeDisplay : GroupPatchOperation Unit := ⟨"remove".toList, some "members.display".toList, none⟩

/-- `replace` of one member by itself. -/
def replaceSelected : GroupPatchOperation Unit :=
  ⟨"replace".toList, some "members[value eq \"a\"]".toList, some (.array [.object [("value".toList, .string "a".toList)]])⟩

/-- Removing a sub-attribute of the members empties the group, and replacing the member that a
selector names takes out the other one. -/
theorem fullGroup_emptied :
    (removeDisplay.membersPath noFloats = some ⟨"members".toList, none, some "display".toList⟩ ∧
      (applyGroupOperations smallDirectory noFloats fullGroup [removeDisplay]).1.members = []) ∧
    (replaceSelected.membersPath noFloats).bind PatchPath.selected = some "a".toList ∧
      (applyGroupOperations smallDirectory noFloats fullGroup [replaceSelected]).1.members = [10] := by
  decide +kernel

end IronAuth.Scim
