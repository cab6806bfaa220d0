import IronAuth.Lib.Fallible
import IronAuth.Lib.Json

/-!
# The chain of actors

The `act` claim of a token names the party that acts, and within it, under the same key, the party
that delegated to it. A new actor is put around the chain that is there.
-/

namespace IronAuth.Oidc

open Lib Lib.Fallible

/-- `MAX_ACT_DEPTH`. -/
def maxActDepth : ℕ := 8

inductive ActChainError where
  | tooDeep
  | emptyActor
  | malformedChain
  deriving DecidableEq

variable {F : Type}

/-- The subject of a link. -/
def linkSubject (link : Json F) : Option Text := (link.get "sub".toList).bind Json.asStr

/-- The chain that a link is around. -/
def linkAct (link : Json F) : Option (Json F) := link.get "act".toList

/-- The loop of `chain_depth`, with the links that may still come. -/
def chainDepthFrom (depth : ℕ) : ℕ → Json F → Except ActChainError ℕ
  | 0, _ => .error .malformedChain
  | remaining + 1, current =>
    match linkSubject current with
    | none => .error .malformedChain
    | some subject =>
      if subject.isBlank then .error .malformedChain
      else
        match linkAct current with
        | none => .ok (depth + 1)
        | some nested => chainDepthFrom (depth + 1) remaining nested

def chainDepth (chain : Json F) : Except ActChainError ℕ := chainDepthFrom 0 maxActDepth chain

/-- The loop of `chain_actors`, which runs after `chain_depth` and so sees as many links at most. -/
def walkActors : ℕ → Json F → List Text
  | 0, _ => []
  | remaining + 1, current =>
    (linkSubject current).toList ++
      match linkAct current with
      | none => []
      | some nested => walkActors remaining nested

/-- Most recent first. -/
def chainActors (chain : Json F) : Except ActChainError (List Text) := do
  let _ ← chainDepth chain
  .ok (walkActors maxActDepth chain)

/-- The new actor, around the chain. -/
def actLink (existing : Option (Json F)) (actorSubject : Text) : Json F :=
  .object ((existing.map fun chain => ("act".toList, chain)).toList ++ [("sub".toList, .string actorSubject)])

def extendActChain (existing : Option (Json F)) (actorSubject : Text) : Except ActChainError (Json F) := do
  refuseIf (actorSubject.isBlank = true) .emptyActor
  let depth ← existing.elim (.ok 0) chainDepth
  refuseIf (depth + 1 > maxActDepth) .tooDeep
  .ok (actLink existing actorSubject)

/-- The actors that a token names. -/
def actorsOf : Option (Json F) → List Text
  | none => []
  | some chain => (chainActors chain).toOption.getD []

/-! ### The actors of a chain -/

/-- The chain names these actors, most recent first. -/
inductive Links : Json F → List Text → Prop
  | last {chain : Json F} {subject : Text} (hsubject : linkSubject chain = some subject) (hblank : subject.isBlank = false)
      (hact : linkAct chain = none) : Links chain [subject]
  | more {chain nested : Json F} {subject : Text} {actors : List Text} (hsubject : linkSubject chain = some subject)
      (hblank : subject.isBlank = false) (hact : linkAct chain = some nested) (hnested : Links nested actors) :
      Links chain (subject :: actors)

variable {r : ℕ} {c : Json F} {a actors : List Text}

theorem chainDepthFrom_eq_ok {d f : ℕ} (h : chainDepthFrom d r c = .ok f) :
    ∃ actors, Links c actors ∧ actors.length ≤ r ∧ f = d + actors.length := by
  induction r generalizing d c with
  | zero => cases h
  | succ r ih =>
    unfold chainDepthFrom at h
    cases hs : linkSubject c with
    | none =>
      rw [hs] at h
      cases h
    | some subject =>
      rw [hs] at h
      dsimp only at h
      split_ifs at h with hbl
      cases ha : linkAct c with
      | none =>
        rw [ha] at h
        cases h
        exact ⟨[subject], .last hs (Bool.eq_false_iff.mpr hbl) ha, Nat.succ_le_succ (Nat.zero_le _), rfl⟩
      | some nested =>
        rw [ha] at h
        obtain ⟨actors, hl, hle, rfl⟩ := ih h
        refine ⟨subject :: actors, .more hs (Bool.eq_false_iff.mpr hbl) ha hl, Nat.succ_le_succ hle, ?_⟩
        rw [List.length_cons]
        omega

theorem Links.chainDepthFrom_eq (h : Links c a) {d : ℕ}
    (hl : a.length ≤ r) : chainDepthFrom d r c = .ok (d + a.length) := by
  induction h generalizing d r with
  | last hs hbl ha =>
    cases r with
    | zero => cases hl
    | succ r => simp [chainDepthFrom, hs, hbl, ha]
  | @more c nested subject a hs hbl ha _ ih =>
    cases r with
    | zero => cases hl
    | succ r =>
      have hn : chainDepthFrom (d + 1) r nested = .ok (d + 1 + a.length) :=
        ih (Nat.le_of_succ_le_succ hl)
      rw [chainDepthFrom, hs]
      simp only [hbl, Bool.false_eq_true, if_false, ha, hn, List.length_cons]
      congr 1
      omega

theorem Links.walkActors_eq (h : Links c actors)
    (hl : actors.length ≤ r) : walkActors r c = actors := by
  induction h generalizing r with
  | last hs _ ha =>
    cases r with
    | zero => cases hl
    | succ r => simp [walkActors, hs, ha]
  | more hs _ ha _ ih =>
    cases r with
    | zero => cases hl
    | succ r => simp [walkActors, hs, ha, ih (Nat.le_of_succ_le_succ hl)]

/-- **The actors of a chain.** -/
theorem chainActors_eq_ok_iff :
    chainActors c = .ok a ↔ Links c a ∧ a.length ≤ maxActDepth := by
  rw [chainActors, bind_eq_ok_iff]
  constructor
  · rintro ⟨depth, hd, hw⟩
    obtain ⟨found, hl, hle, -⟩ := chainDepthFrom_eq_ok hd
    cases hw
    rw [hl.walkActors_eq hle]
    exact ⟨hl, hle⟩
  · rintro ⟨hl, hle⟩
    exact ⟨_, hl.chainDepthFrom_eq hle, congrArg Except.ok (hl.walkActors_eq hle)⟩

theorem actorsOf_of_links (h : Links c actors) (hl : actors.length ≤ maxActDepth) :
    actorsOf (some c) = actors := by
  rw [actorsOf, chainActors_eq_ok_iff.mpr ⟨h, hl⟩]
  rfl

/-! ### Extension -/

theorem linkSubject_actLink (old : Option (Json F)) (actor : Text) : linkSubject (actLink old actor) = some actor := by
  cases old <;> rfl

theorem linkAct_actLink (existing : Option (Json F)) (a : Text) : linkAct (actLink existing a) = existing := by
  cases existing <;> rfl

/-- **An extended chain names the new actor, and then those before.** -/
theorem actorsOf_extendActChain {existing : Option (Json F)} {a : Text}
    (h : extendActChain existing a = .ok c) : actorsOf (some c) = a :: actorsOf existing := by
  rw [extendActChain, check_bind_eq_ok_iff, refuseIf_eq_ok_iff, Bool.not_eq_true] at h
  obtain ⟨hbl, h⟩ := h
  obtain ⟨depth, hd, h⟩ := bind_eq_ok_iff.mp h
  rw [check_bind_eq_ok_iff, refuseIf_eq_ok_iff, gt_iff_lt, not_lt] at h
  obtain ⟨hr, hl⟩ := h
  cases hl
  cases existing with
  | none =>
    exact actorsOf_of_links (.last (linkSubject_actLink none a) hbl (linkAct_actLink none a))
      (by simp [actorsOf, maxActDepth])
  | some nested =>
    obtain ⟨actors, hli, hle, rfl⟩ := chainDepthFrom_eq_ok hd
    rw [actorsOf_of_links hli hle]
    refine actorsOf_of_links (.more (linkSubject_actLink _ a) hbl (linkAct_actLink _ a) hli) ?_
    rw [List.length_cons]
    omega

end IronAuth.Oidc
