import IronAuth.Lib.Text

/-!
# Organization policies

The policies of the levels are folded from the tenant inwards. Every field but the template is folded by a
commutative, associative and idempotent operation that narrows, so neither the order of the levels nor a
repeated one matters, and a further level only narrows. The template is the one field that the order decides.
-/

namespace IronAuth.Store.OrgPolicy

open List Function

/-- `SECOND_FACTOR_TOKENS`. -/
def secondFactorTokens : List Text :=
  ["totp", "recovery_code", "passkey_uv", "passkey_hw_uv", "attested_passkey_uv", "attested_passkey_hw_uv"].map String.toList

structure TemplateOverride where
  templateId : Text
  locked : Bool
  deriving DecidableEq

/-- What one level states; a field that it does not state is inherited. -/
structure AuthPolicy where
  mfaRequired : Option Bool := none
  allowedFactors : Option (Finset Text) := none
  allowedEmailDomains : Option (Finset Text) := none
  jitProvisioning : Option Bool := none
  invitationsEnabled : Option Bool := none
  sessionTtlSecs : Option ℕ := none
  sessionIdleTtlSecs : Option ℕ := none
  accessTokenTtlSecs : Option ℕ := none
  templateOverride : Option TemplateOverride := none

inductive Level where
  | tenant
  | environment
  | organization
  | client
  deriving DecidableEq

abbrev PolicyLevels := Level → Option AuthPolicy

/-- The order of `slots`: the weakest precedence first. -/
def slots : List Level := [.tenant, .environment, .organization, .client]

/-- `AllowedFactors`, and `AllowedDomains`, which has the same cases. -/
inductive Allowed where
  | unconstrained
  | restricted (permitted : Finset Text)
  | empty

structure ResolvedAuthPolicy where
  mfaRequired : Option Bool
  allowedFactors : Allowed
  allowedEmailDomains : Allowed
  jitProvisioning : Option Bool
  invitationsEnabled : Option Bool
  sessionTtlSecs : Option ℕ
  sessionIdleTtlSecs : Option ℕ
  accessTokenTtlSecs : Option ℕ
  templateOverride : Option TemplateOverride

/-- `fold_or`: what only one side states stays, as in `false || value`. The other folds join two values differently. -/
abbrev foldOr : Option Bool → Option Bool → Option Bool := .merge or

/-- `fold_and`. -/
abbrev foldAnd : Option Bool → Option Bool → Option Bool := .merge and

/-- `fold_min`. -/
abbrev foldMin : Option ℕ → Option ℕ → Option ℕ := .merge min

/-- `fold_intersect`. -/
abbrev foldIntersect : Option (Finset Text) → Option (Finset Text) → Option (Finset Text) := .merge (· ⊓ ·)

/-- `fold_template`. -/
def foldTemplate (acc next : Option TemplateOverride) : Option TemplateOverride :=
  if acc.any TemplateOverride.locked then acc else next.or acc

/-- The body of the loop of `resolve`, for a level that is there. -/
def AuthPolicy.fold (acc level : AuthPolicy) : AuthPolicy where
  mfaRequired := foldOr acc.mfaRequired level.mfaRequired
  jitProvisioning := foldAnd acc.jitProvisioning level.jitProvisioning
  invitationsEnabled := foldAnd acc.invitationsEnabled level.invitationsEnabled
  sessionTtlSecs := foldMin acc.sessionTtlSecs level.sessionTtlSecs
  sessionIdleTtlSecs := foldMin acc.sessionIdleTtlSecs level.sessionIdleTtlSecs
  accessTokenTtlSecs := foldMin acc.accessTokenTtlSecs level.accessTokenTtlSecs
  allowedFactors := foldIntersect acc.allowedFactors level.allowedFactors
  allowedEmailDomains := foldIntersect acc.allowedEmailDomains level.allowedEmailDomains
  templateOverride := foldTemplate acc.templateOverride level.templateOverride

def Allowed.of : Option (Finset Text) → Allowed
  | none => .unconstrained
  | some values => if values = ∅ then .empty else .restricted values

/-- What `resolve` returns after its loop. -/
def AuthPolicy.resolved (acc : AuthPolicy) : ResolvedAuthPolicy :=
  { acc with
    allowedFactors := .of acc.allowedFactors
    allowedEmailDomains := .of acc.allowedEmailDomains }

/-- The loop of `resolve`. -/
def folded (levels : PolicyLevels) : AuthPolicy := (slots.filterMap levels).foldl AuthPolicy.fold {}

def resolve (levels : PolicyLevels) : ResolvedAuthPolicy := (folded levels).resolved

inductive Satisfiability where
  | satisfiable
  | noFactorPermitted
  | mfaRequiredWithNoSecondFactor
  deriving DecidableEq

namespace ResolvedAuthPolicy

variable (policy : ResolvedAuthPolicy)

/-- The accessor `mfa_required`; the next two apply their defaults likewise. -/
def requiresMfa : Bool := policy.mfaRequired.getD false

def allowsJit : Bool := policy.jitProvisioning.getD false

def allowsInvitations : Bool := policy.invitationsEnabled.getD true

def satisfiability : Satisfiability :=
  match policy.allowedFactors with
  | .empty => .noFactorPermitted
  | .unconstrained => .satisfiable
  | .restricted permitted =>
    if policy.requiresMfa && !decide (∃ token ∈ permitted, token ∈ secondFactorTokens) then
      .mfaRequiredWithNoSecondFactor
    else .satisfiable

end ResolvedAuthPolicy

/-! ### A fold of the levels that are there -/

/-- The fields whose folding does not depend on the order. -/
def AuthPolicy.plain (policy : AuthPolicy) : AuthPolicy := { policy with templateOverride := none }

/-- What is resolved, apart from the template. -/
def ResolvedAuthPolicy.plain (policy : ResolvedAuthPolicy) : ResolvedAuthPolicy := { policy with templateOverride := none }

/-- A level narrows what is folded so far. -/
def meet (acc level : AuthPolicy) : AuthPolicy := (acc.fold level).plain

variable {z x y p q : AuthPolicy} {levels : PolicyLevels} {i j : Level}

theorem meet_right_comm : meet (meet z x) y = meet (meet z y) x := by
  simp only [meet, AuthPolicy.fold, AuthPolicy.plain]
  congr 1 <;> exact RightCommutative.right_comm _ _ _

theorem meet_absorb : meet (meet z x) x = meet z x := by
  simp only [meet, AuthPolicy.fold, AuthPolicy.plain]
  congr 1 <;> exact (Std.Associative.assoc _ _ _).trans (congrArg _ (Std.IdempotentOp.idempotent _))

theorem plain_folded : (folded levels).plain = (slots.filterMap levels).foldl meet {} :=
  (foldl_hom AuthPolicy.plain (by intros; rfl)).symm

theorem foldl_meet_perm {l l2 : List AuthPolicy} (h : l ~ l2) : l.foldl meet z = l2.foldl meet z :=
  h.foldl_eq' (fun _ _ _ _ _ => meet_right_comm) z

theorem mem_slots (i : Level) : i ∈ slots := by cases i <;> decide

/-- A level that is there has narrowed. -/
theorem exists_meet (h : levels i = some p) : ∃ acc, (folded levels).plain = meet acc p := by
  obtain ⟨s, t, hs⟩ := append_of_mem (mem_filterMap.mpr ⟨i, mem_slots i, h⟩)
  rw [plain_folded, hs, foldl_meet_perm (perm_middle.trans (perm_append_singleton p _).symm), foldl_concat]
  exact ⟨_, rfl⟩

/-- To fill a level is to narrow once more. -/
theorem plain_folded_update (h : levels i = none) :
    (folded (update levels i (some p))).plain = meet (folded levels).plain p := by
  obtain ⟨s, t, hs⟩ := append_of_mem (mem_slots i)
  have hn : (s ++ i :: t).Nodup := hs ▸ by decide
  have hu : ∀ l : List Level, i ∉ l → l.filterMap (update levels i (some p)) = l.filterMap levels :=
    fun l hl => filterMap_congr fun j hj => update_of_ne (ne_of_mem_of_not_mem hj hl) ..
  rw [plain_folded, plain_folded, hs, filterMap_append, filterMap_append, filterMap_cons_none h,
    filterMap_cons_some (update_self ..), hu s, hu t, foldl_meet_perm (perm_middle.trans (perm_append_singleton p _).symm),
    foldl_concat]
  · exact ((nodup_middle.mp hn).notMem <| mem_append.mpr <| .inr ·)
  · exact ((nodup_middle.mp hn).notMem <| mem_append.mpr <| .inl ·)

theorem plain_folded_comp (e : Equiv.Perm Level) : (folded (levels ∘ e)).plain = (folded levels).plain := by
  have hp : slots.map e ~ slots := by
    refine (perm_ext_iff_of_nodup (Nodup.map e.injective (by decide)) (by decide)).mpr fun j => ?_
    exact iff_of_true (mem_map.mpr ⟨e.symm j, mem_slots _, e.apply_symm_apply j⟩) (mem_slots j)
  rw [plain_folded, plain_folded, ← filterMap_map, foldl_meet_perm (hp.filterMap levels)]

/-! ### What a further level does -/

/-- The methods, or the domains, that are permitted. -/
def Allowed.permits : Allowed → Text → Prop
  | .unconstrained, _ => True
  | .restricted permitted, token => token ∈ permitted
  | .empty, _ => False

/-- No field is wider than it was. A lifetime that is not stated is the deployment's. -/
structure Narrows (before after : ResolvedAuthPolicy) : Prop where
  mfa : before.requiresMfa → after.requiresMfa
  factors : ∀ token, after.allowedFactors.permits token → before.allowedFactors.permits token
  domains : ∀ domain, after.allowedEmailDomains.permits domain → before.allowedEmailDomains.permits domain
  invitations : after.allowsInvitations → before.allowsInvitations
  session : ∀ secs ∈ before.sessionTtlSecs, ∃ shorter ∈ after.sessionTtlSecs, shorter ≤ secs
  idle : ∀ secs ∈ before.sessionIdleTtlSecs, ∃ shorter ∈ after.sessionIdleTtlSecs, shorter ≤ secs
  token : ∀ secs ∈ before.accessTokenTtlSecs, ∃ shorter ∈ after.accessTokenTtlSecs, shorter ≤ secs
  satisfiability : before.satisfiability ≠ .satisfiable → after.satisfiability ≠ .satisfiable

variable {o o2 : Option (Finset Text)}

theorem permits_of {token : Text} : (Allowed.of o).permits token ↔ ∀ values ∈ o, token ∈ values := by
  cases o with
  | none => simp [Allowed.of, Allowed.permits]
  | some values => by_cases hv : values = ∅ <;> simp [Allowed.of, Allowed.permits, hv]

/-- What is stated is stated still, and is no more than it was. -/
theorem mem_merge {α : Type} [Preorder α] {f : α → α → α} (hf : ∀ a b, f a b ≤ a) {o o2 : Option α} {a : α} (h : a ∈ o) :
    ∃ less ∈ o.merge f o2, less ≤ a := by
  cases h
  cases o2 with
  | none => exact ⟨a, rfl, le_rfl⟩
  | some b => exact ⟨f a b, rfl, hf a b⟩

theorem permits_foldIntersect {token : Text} (h : (Allowed.of (foldIntersect o o2)).permits token) :
    (Allowed.of o).permits token := by
  rw [permits_of] at h ⊢
  intro values hv
  obtain ⟨fewer, hf, hs⟩ := mem_merge (fun _ _ => Finset.inter_subset_left) hv
  exact hs (h fewer hf)

theorem getD_foldOr {o o2 : Option Bool} (h : o.getD false) : (foldOr o o2).getD false := by
  cases o <;> cases o2 <;> simp_all

theorem satisfiability_resolved : p.resolved.satisfiability = .satisfiable ↔ ∀ permitted ∈ p.allowedFactors,
    permitted ≠ ∅ ∧ (p.mfaRequired.getD false → ∃ token ∈ permitted, token ∈ secondFactorTokens) := by
  unfold ResolvedAuthPolicy.satisfiability AuthPolicy.resolved ResolvedAuthPolicy.requiresMfa
  cases hf : p.allowedFactors with
  | none => simp [Allowed.of]
  | some permitted =>
    by_cases hp : permitted = ∅ <;> simp [Allowed.of, hp]

theorem narrows_meet (acc level : AuthPolicy) : Narrows acc.resolved (meet acc level).resolved where
  mfa := getD_foldOr
  factors _ := permits_foldIntersect
  domains _ := permits_foldIntersect
  invitations h := by
    revert h
    show (foldAnd acc.invitationsEnabled level.invitationsEnabled).getD true = true → acc.invitationsEnabled.getD true = true
    cases acc.invitationsEnabled <;> cases level.invitationsEnabled <;> simp +contextual
  session _ := mem_merge min_le_left
  idle _ := mem_merge min_le_left
  token _ := mem_merge min_le_left
  satisfiability := by
    refine mt fun h => ?_
    rw [satisfiability_resolved] at h ⊢
    intro permitted hp
    obtain ⟨fewer, hf, hs⟩ := mem_merge (fun _ _ => Finset.inter_subset_left) hp
    obtain ⟨hne, hm⟩ := h fewer hf
    refine ⟨fun he => hne (Finset.subset_empty.mp (he ▸ hs)), fun hr => ?_⟩
    obtain ⟨token, ht, hsec⟩ := hm (getD_foldOr hr)
    exact ⟨token, hs ht, hsec⟩

/-- The templates that the levels state, the outermost first. -/
def stated (levels : PolicyLevels) : List TemplateOverride :=
  (slots.filterMap levels).filterMap AuthPolicy.templateOverride

theorem templateOverride_foldl (l : List AuthPolicy) : (l.foldl AuthPolicy.fold {}).templateOverride =
    ((l.filterMap AuthPolicy.templateOverride).find? TemplateOverride.locked).or
      (l.filterMap AuthPolicy.templateOverride).getLast? := by
  induction l using reverseRecOn with
  | nil => rfl
  | append_singleton l x ih =>
    rw [foldl_concat, filterMap_append]
    change foldTemplate _ x.templateOverride = _
    rw [ih]
    generalize l.filterMap AuthPolicy.templateOverride = s
    cases hf : s.find? TemplateOverride.locked with
    | some u => cases hx : x.templateOverride <;> simp [foldTemplate, hf, hx, find?_some hf]
    | none =>
      -- no template so far is locked, the last neither
      have hl : s.getLast?.any TemplateOverride.locked = false := by
        simp only [Option.any_eq_false, find?_eq_none] at hf ⊢
        exact fun t ht => Bool.eq_false_iff.mpr (hf t (mem_of_getLast? ht))
      cases hx : x.templateOverride with
      | none => simp [foldTemplate, hf, hx, hl]
      | some t => cases ht : t.locked <;> simp [foldTemplate, hf, hx, hl, ht]

theorem resolve_isMeet (levels : PolicyLevels) :
    (∀ e : Equiv.Perm Level, (resolve (levels ∘ e)).plain = (resolve levels).plain) ∧
    (∀ absent level p, levels absent = none → levels level = some p →
      (resolve (update levels absent (some p))).plain = (resolve levels).plain) ∧
    (∀ absent p, levels absent = none → Narrows (resolve levels) (resolve (update levels absent (some p))) ∧
      ∀ level q, levels level = some q → q.jitProvisioning = some false →
        (resolve (update levels absent (some p))).allowsJit = false) ∧
    (resolve levels).templateOverride = ((stated levels).find? TemplateOverride.locked).or (stated levels).getLast? := by
  refine ⟨fun e => congrArg AuthPolicy.resolved (plain_folded_comp e), ?_, ?_, templateOverride_foldl _⟩
  · intro absent level p ha hl
    obtain ⟨acc, hm⟩ := exists_meet hl
    have hp : (folded (update levels absent (some p))).plain = (folded levels).plain := by
      rw [plain_folded_update ha, hm, meet_absorb]
    exact congrArg AuthPolicy.resolved hp
  · intro absent p ha
    have hn := narrows_meet (folded levels).plain p
    rw [← plain_folded_update ha] at hn
    refine ⟨{ hn with }, fun level q hl hj => ?_⟩
    have hu : update levels absent (some p) level = some q := by
      rw [update_of_ne _ .., hl]
      rintro rfl
      cases ha.symm.trans hl
    obtain ⟨acc, hm⟩ := exists_meet hu
    have hf := congrArg AuthPolicy.jitProvisioning hm
    change _ = foldAnd acc.jitProvisioning q.jitProvisioning at hf
    change (folded _).plain.jitProvisioning.getD false = false
    rw [hf, hj]
    cases acc.jitProvisioning <;> simp

end IronAuth.Store.OrgPolicy
