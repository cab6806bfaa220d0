import IronAuth.Lib.Loops
import IronAuth.Scim.Groups

/-!
# A group PATCH, all or nothing

Everything that can be refused by looking at the request is refused by the plan, before the first
write. One refusal is left to the second pass: `set_members` and `drop_members` hold the group to
the scan bound, and what size the group has there depends on the changes before. A refusal of this
kind comes after those changes were written, and they stay.

So the group is as it was after a refusal exactly when the first change that does not fit into the
bound, if there is one, comes before anything has changed.
-/

namespace IronAuth.Scim

open Lib.Fallible Lib.Loops List

section plan

variable {F U M O : Type} [DecidableEq U] [DecidableEq M] [DecidableEq O] {floats : Floats F} {ctx : Context U M O}

theorem GroupChange.resolved_members {w : List Text} {res : List (ResolvedMember U M)}
    (h : resolveMembers ctx w = .ok res) (r : Bool) :
    (GroupChange.members res r).Resolved ctx.scanBound := by
  obtain ⟨hbd, hr⟩ := resolution_of_resolveMembers h
  exact ⟨hr.length_le.trans hbd, hr.nodup⟩

variable {v : Option (Json F)} {c : List (GroupChange U M)}

theorem resolved_of_planRemove {s : Option (Filter F)}
    (h : planRemove ctx s v = .ok c) : ∀ chg ∈ c, chg.Resolved ctx.scanBound := by
  cases s with
  | some s =>
    simp only [planRemove, bind_eq_ok_iff] at h
    obtain ⟨named, -, members, -, h⟩ := h
    cases h
    exact forall_mem_singleton.mpr trivial
  | none =>
    simp only [planRemove, bind_eq_ok_iff] at h
    obtain ⟨named, -, h⟩ := h
    split_ifs at h
    · cases h
      exact forall_mem_singleton.mpr ⟨Nat.zero_le _, nodup_nil⟩
    · obtain ⟨members, -, h⟩ := bind_eq_ok_iff.mp h
      cases h
      exact forall_mem_singleton.mpr trivial

theorem resolved_of_planField {r : Bool} {f : Text × Json F}
    (h : planField ctx r f = .ok c) : ∀ chg ∈ c, chg.Resolved ctx.scanBound := by
  obtain ⟨name, value⟩ := f
  cases value with
  | string l =>
    simp only [planField] at h
    split_ifs at h
    · cases h
      exact forall_mem_singleton.mpr trivial
    · cases h
      simp
  | array entries =>
    simp only [planField] at h
    split_ifs at h
    · simp only [resolveValue, bind_eq_ok_iff] at h
      obtain ⟨members, ⟨named, -, hm⟩, h⟩ := h
      cases h
      exact forall_mem_singleton.mpr (GroupChange.resolved_members hm r)
    · cases h
      simp
  | _ =>
    cases h
    simp

theorem resolved_of_planAttribute {op : Text} {p : PatchPath F}
    (h : planAttribute ctx op p v = .ok c) : ∀ chg ∈ c, chg.Resolved ctx.scanBound := by
  have hm : ∀ replace, (fun members => [GroupChange.members members replace]) <$> resolveValue ctx v = .ok c →
      ∀ chg ∈ c, chg.Resolved ctx.scanBound := by
    intro replace h
    simp only [resolveValue, map_eq_ok_iff, bind_eq_ok_iff] at h
    obtain ⟨members, ⟨named, -, hm⟩, rfl⟩ := h
    exact forall_mem_singleton.mpr (GroupChange.resolved_members hm replace)
  simp only [planAttribute] at h
  split_ifs at h
  · exact hm false h
  · exact hm true h
  · exact resolved_of_planRemove h
  · split at h
    · cases h
      exact forall_mem_singleton.mpr trivial
    · cases h

omit [DecidableEq U] [DecidableEq M] [DecidableEq O] in
/-- A loop over parts, each of which plans changes that were resolved. -/
theorem resolved_of_mapM {α : Type} {pl : α → Except Refusal (List (GroupChange U M))} {p : List α}
    (h : List.flatten <$> p.mapM pl = .ok c)
    (hp : ∀ pa planned, pl pa = .ok planned → ∀ chg ∈ planned, chg.Resolved ctx.scanBound) :
    ∀ chg ∈ c, chg.Resolved ctx.scanBound := by
  obtain ⟨planned, hpl, rfl⟩ := map_eq_ok_iff.mp h
  intro chg hc
  obtain ⟨pa, hpa, hm⟩ := mem_flatten.mp hc
  obtain ⟨source, -, hs⟩ := exists_of_forall₂_right (mapM_eq_ok_iff.mp hpl) hpa
  exact hp source pa hs chg hm

/-- **What is planned was resolved.** -/
theorem resolved_of_planOperations {ops : List (GroupPatchOperation F)}
    (h : planOperations floats ctx ops = .ok c) : ∀ chg ∈ c, chg.Resolved ctx.scanBound := by
  refine resolved_of_mapM h fun o planned hp => ?_
  simp only [planGroupOperation] at hp
  split at hp
  · split at hp
    · exact resolved_of_planAttribute hp
    · cases hp
  · split_ifs at hp
    · unfold planWholeObject at hp
      split at hp
      · exact resolved_of_mapM hp fun f planned => resolved_of_planField
      · cases hp

end plan

/-! ### One after another -/

section inTurn

variable {F U M O : Type} [DecidableEq U] [DecidableEq M] [DecidableEq O] (floats : Floats F) (ctx : Context U M O)

/-- Go on with the group, unless there was a refusal. -/
def unlessRefused (run : Group M × Except Refusal Unit) (next : Group M → Group M × Except Refusal Unit) :
    Group M × Except Refusal Unit :=
  match run with
  | (group, .ok _) => next group
  | (group, .error refusal) => (group, .error refusal)

/-- Each operation as a request of its own, until one is refused. -/
def applyInTurn (group : Group M) : List (GroupPatchOperation F) → Group M × Except Refusal Unit
  | [] => (group, .ok ())
  | operation :: rest => unlessRefused (applyGroupOperations ctx floats group [operation]) fun next => applyInTurn next rest

variable {floats ctx}

omit [DecidableEq U] [DecidableEq O] in
theorem applyChanges_append (g : Group M) (f back : List (GroupChange U M)) :
    applyChanges ctx g (f ++ back) =
      unlessRefused (applyChanges ctx g f) fun next => applyChanges ctx next back := by
  induction f generalizing g with
  | nil => rfl
  | cons change f ih =>
    rw [cons_append, applyChanges, applyChanges]
    cases applyChange ctx g change with
    | error r => rfl
    | ok next => exact ih next

/-- **A request that succeeds does what its operations do one after another.** -/
theorem applyInTurn_eq {g : Group M} {operations : List (GroupPatchOperation F)}
    (h : (applyGroupOperations ctx floats g operations).2 = .ok ()) :
    applyInTurn floats ctx g operations = applyGroupOperations ctx floats g operations := by
  induction operations generalizing g with
  | nil => rfl
  | cons o rest ih =>
    cases hp : planOperations floats ctx (o :: rest) with
    | error r =>
      rw [applyGroupOperations, hp] at h
      cases h
    | ok c =>
      obtain ⟨planned, hpl, hc⟩ := map_eq_ok_iff.mp hp
      obtain ⟨first, parts, hf, ho, rfl⟩ := forall₂_cons_left_iff.mp (mapM_eq_ok_iff.mp hpl)
      have hone : planOperations floats ctx [o] = .ok first :=
        map_eq_ok_iff.mpr ⟨[first], mapM_eq_ok_iff.mpr (.cons hf .nil), by simp⟩
      have hothers : planOperations floats ctx rest = .ok parts.flatten :=
        map_eq_ok_iff.mpr ⟨parts, mapM_eq_ok_iff.mpr ho, rfl⟩
      have hon : applyGroupOperations ctx floats g [o] = applyChanges ctx g first := by
        rw [applyGroupOperations, hone]
      have ha : applyGroupOperations ctx floats g (o :: rest) = applyChanges ctx g (first ++ parts.flatten) := by
        rw [applyGroupOperations, hp, ← hc, flatten_cons]
      rw [ha, applyChanges_append] at h ⊢
      rw [applyInTurn, hon]
      cases hru : applyChanges ctx g first with
      | mk next answer =>
        rw [hru] at h
        cases answer with
        | error r => rfl
        | ok _ =>
          have hr : applyGroupOperations ctx floats next rest = applyChanges ctx next parts.flatten := by
            rw [applyGroupOperations, hothers]
          show applyInTurn floats ctx next rest = applyChanges ctx next parts.flatten
          rw [← hr]
          exact ih (hr ▸ h)

end inTurn

/-! ### All or nothing -/

section atomicity

variable {F U M O : Type} [DecidableEq U] [DecidableEq M] [DecidableEq O] {floats : Floats F} {ctx : Context U M O}

/-- The first change that does not fit into the bound, if there is one, comes while the roster is
still the one that the request started from. -/
def Foreseen (bound : ℕ) (start : Roster M) : Roster M → List (GroupChange U M) → Prop
  | _, [] => True
  | roster, change :: rest =>
    (change.Fits bound roster → Foreseen bound start (change.effect roster) rest) ∧
      (¬ change.Fits bound roster → roster = start)

/-- After a refusal the label and the members are as they were, and a request that succeeds does
what its operations do one after another. -/
structure AllOrNothing (floats : Floats F) (ctx : Context U M O) (group : Group M)
    (operations : List (GroupPatchOperation F)) : Prop where
  unchanged : ∀ refusal, (applyGroupOperations ctx floats group operations).2 = .error refusal →
    (applyGroupOperations ctx floats group operations).1.roster = group.roster
  inTurn : (applyGroupOperations ctx floats group operations).2 = .ok () →
    applyInTurn floats ctx group operations = applyGroupOperations ctx floats group operations

omit [DecidableEq U] [DecidableEq O] in
/-- The second pass leaves the group as it was at a refusal, exactly when that was foreseen. -/
theorem applyChanges_unchanged_iff {s : Roster M} {g : Group M} {changes : List (GroupChange U M)}
    (hr : ∀ chg ∈ changes, chg.Resolved ctx.scanBound) :
    (∀ r, (applyChanges ctx g changes).2 = .error r → (applyChanges ctx g changes).1.roster = s) ↔
      Foreseen ctx.scanBound s g.roster changes := by
  induction changes generalizing g with
  | nil =>
    refine ⟨fun _ => trivial, fun _ r h => ?_⟩
    cases h
  | cons chg rest ih =>
    rw [forall_mem_cons] at hr
    have hf : (∃ next, applyChange ctx g chg = .ok next) ↔ chg.Fits ctx.scanBound g.roster :=
      applyChange_eq_ok_iff hr.1
    rw [applyChanges, Foreseen]
    cases hc : applyChange ctx g chg with
    | error r =>
      have hno : ¬ chg.Fits ctx.scanBound g.roster := by
        rw [← hf]
        rintro ⟨next, hn⟩
        rw [hc] at hn
        cases hn
      constructor
      · intro h
        exact ⟨fun hfi => absurd hfi hno, fun _ => h r rfl⟩
      · intro h _ _
        exact h.2 hno
    | ok next =>
      have hfi := hf.mp ⟨next, hc⟩
      rw [← roster_applyChange hc]
      rw [ih hr.2]
      exact ⟨fun h => ⟨fun _ => h, fun hno => absurd hfi hno⟩, fun h => h.1 hfi⟩

/-- **When a request is all or nothing**: exactly when the first of its changes that does not fit
into the scan bound, if there is one, comes before anything has changed. -/
theorem allOrNothing_iff (group : Group M) (operations : List (GroupPatchOperation F)) :
    AllOrNothing floats ctx group operations ↔
      ∀ planned, planOperations floats ctx operations = .ok planned →
        Foreseen ctx.scanBound group.roster group.roster planned := by
  constructor
  · intro h planned hpl
    have hrun : applyGroupOperations ctx floats group operations = applyChanges ctx group planned := by
      rw [applyGroupOperations, hpl]
    have hun := h.unchanged
    rw [hrun] at hun
    exact (applyChanges_unchanged_iff (resolved_of_planOperations hpl)).mp hun
  · intro h
    refine ⟨?_, applyInTurn_eq⟩
    rw [applyGroupOperations]
    cases hpl : planOperations floats ctx operations with
    | error ref => exact fun _ _ => rfl
    | ok planned =>
      exact (applyChanges_unchanged_iff (resolved_of_planOperations hpl)).mpr (h planned hpl)

end atomicity

/-! ### Half of a request -/

/-- Three people of one organization, and a bound of two. -/
def smallDirectory : Context ℕ ℕ Unit where
  directory :=
    { parseUserId := fun raw => ["a".toList, "b".toList, "c".toList].findIdx? (· = raw)
      memberships := [⟨10, (), 0⟩, ⟨11, (), 1⟩, ⟨12, (), 2⟩]
      nodup := by decide }
  organization := ()
  maxScan := 2

/-- A group that is full. -/
def fullGroup : Group ℕ := ⟨"old".toList, [10, 11], by decide⟩

/-- A new label. -/
def renameOperation : GroupPatchOperation Unit := ⟨"replace".toList, some "displayName".toList, some (.string "new".toList)⟩

/-- One more member. -/
def addOperation (id : String) : GroupPatchOperation Unit :=
  ⟨"add".toList, some "members".toList, some (.array [.object [("value".toList, .string id.toList)]])⟩

/-- The second operation is refused and the first one stays. -/
theorem fullGroup_renamed :
    applyGroupOperations smallDirectory noFloats fullGroup [renameOperation, addOperation "c"] =
      ({ fullGroup with displayName := "new".toList },
        .error (badRequest "tooMany" "this change would leave the group with more members than one request may examine")) := by
  rfl

end IronAuth.Scim
