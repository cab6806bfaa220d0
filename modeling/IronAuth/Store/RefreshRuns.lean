import IronAuth.Store.RefreshStatements

/-!
# Runs of issues, redemptions and revocations

What is asserted of an open transaction survives whatever the others commit: it still holds what
it has written, and a token that it found rotated stays so. From this, the properties of a family
over every interleaving.
-/

namespace IronAuth.Store

open Lib.ReadCommitted Lib

variable {I : Type}

/-! ### What survives the commits of others -/

section stable

variable {committed after writes : Rows (Row I)}

/-- The rows that were written are committed as they were. -/
def Same (committed after writes : Rows (Row I)) : Prop := ∀ k, (writes k).isSome → after k = committed k

theorem Same.row (h : Same committed after writes) {k : Key I} {row : Row I k} {old : Option (Row I k)}
    (hr : writes k = some row) (ho : committed k = old) : after k = old :=
  (h k (Option.isSome_iff_exists.mpr ⟨row, hr⟩)).trans ho

variable {row old new : FamilyRow} {leaf : TokenRow I} {redeem : RefreshRedeem I} {m : List I}
   {a : List AuditAction} {answer ans : Answer I} {tx : Tx I}

section

variable (hs : Same committed after writes)

include hs

theorem Revoked.stable (h : Revoked committed writes old new) : Revoked after writes old new :=
  { h with before := hs.row h.family h.before }

theorem Opening.stable (h : Opening committed writes row) : Opening after writes row :=
  { h with before := hs.row h.family h.before }

theorem Opened.stable {dig : I}
    (h : Opened committed writes row dig leaf) : Opened after writes row dig leaf :=
  { h with
    before := hs.row h.family h.before
    fresh := hs.row h.token h.fresh
    fresh_jti := hs.row h.jti h.fresh_jti }

theorem Rotating.stable {now : ℤ}
    (h : Rotating committed writes redeem now leaf) : Rotating after writes redeem now leaf :=
  { h with before := hs.row h.presented h.before }

theorem Succeeded.stable {now : ℤ}
    (h : Succeeded committed writes redeem now leaf) : Succeeded after writes redeem now leaf :=
  { h with
    before := hs.row h.presented h.before
    fresh := hs.row h.successor h.fresh
    fresh_jti := hs.row h.jti h.fresh_jti }

theorem Ending.stable (he : Extends committed after)
    (h : Ending committed writes m a answer) :
    Ending after writes m a answer := by
  cases h with
  | opened h ha => exact .opened (h.stable hs) ha
  | rotated h ha => exact .rotated (h.stable hs) ha
  | reused hl h ha => exact .reused (hl.mono he) (h.stable hs) ha
  | reusedBefore hl h hr ha => exact .reusedBefore (hl.mono he) h (hr.mono he) ha
  | untouched h han ha => exact .untouched h han ha
  | revoked h han ha => exact .revoked (h.stable hs) han ha

end

theorem MayHaveRevoked.stable (hs : Same committed after tx.writes) (h : MayHaveRevoked committed tx) :
    MayHaveRevoked after tx := by
  obtain h | ⟨old, new, h⟩ := h
  · exact .inl h
  · exact .inr ⟨old, new, h.stable hs⟩

/-- What is asserted of a transaction survives the commits of others. -/
theorem Asserted.stable (hsa : Same committed after tx.writes) (he : Extends committed after)
    (h : Asserted committed tx) : Asserted after tx := by
  obtain ⟨stage, writes, audits, access, minted⟩ := tx
  cases stage with
  | readGrant | lockSession | openFamily | readToken | revokeFamily | revokeSessionBound | revokeSession
  | revokeSessionFamilies => exact h
  | firstToken family =>
    obtain ⟨hs, row, h⟩ := h
    exact ⟨hs, row, h.stable hsa⟩
  | consume redeem now jti =>
    obtain ⟨hs, h, token, ht, hj⟩ := h
    obtain ⟨t2, ht2, hj2, -⟩ := he.token _ token ht
    exact ⟨hs, h, t2, ht2, hj2.trans hj⟩
  | insertSuccessor redeem now jti =>
    obtain ⟨hs, leaf, h, hj⟩ := h
    exact ⟨hs, leaf, h.stable hsa, hj⟩
  | reread redeem now => exact ⟨h.1, h.2.1, h.2.2.mono he⟩
  | recordAccess | audit | commit => exact Ending.stable hsa he h
  | revokeReused redeem now =>
    obtain ⟨hs, h, hl, family, hf⟩ := h
    obtain ⟨f2, hf2, -⟩ := he.family family hf
    exact ⟨hs, h, hl.mono he, f2, hf2⟩
  | revokeGrant | revokeSessionGrants => exact ⟨h.1, h.2.stable hsa⟩

/-- A transaction that ends keeps the chain. -/
theorem Ending.commit (hwf : WellFormed committed)
    (h : Ending committed writes m a ans) :
    WellFormed (writes.over committed) ∧ Extends committed (writes.over committed) := by
  cases h with
  | opened h _ | rotated h _ | reused _ h _ | reusedBefore _ h _ _ | untouched h _ _
  | revoked h _ _ => exact h.commit hwf

theorem Revoked.familyRevoked (h : Revoked committed writes old new) :
    FamilyRevoked (writes.over committed) := ⟨new, over_of_some h.family, h.revoked⟩

/-- A reuse event is recorded once, with the revocation of the family. -/
theorem Ending.spent (h : Ending committed writes m a ans) :
    a.count .refreshTokenReuse ≤ 1 ∧
      (.refreshTokenReuse ∈ a → ¬ FamilyRevoked committed ∧ FamilyRevoked (writes.over committed)) := by
  cases h with
  | opened _ ha | rotated _ ha | reusedBefore _ _ _ ha | untouched _ _ ha | revoked _ _ ha =>
    exact ⟨(List.count_eq_zero.mpr ha).le.trans zero_le_one, fun hm => absurd hm ha⟩
  | reused _ h ha =>
    refine ⟨ha, fun _ => ⟨?_, h.familyRevoked⟩⟩
    rintro ⟨family, hf, hr⟩
    cases h.before.symm.trans hf
    exact hr h.live

theorem Asserted.ending (h : Asserted committed tx) (hs : tx.stage = .commit answer) :
    Ending committed tx.writes tx.minted tx.audits answer := by
  unfold Asserted at h
  rw [hs] at h
  exact h

end stable

/-! ### Runs -/

section runs

variable [DecidableEq I]

/-- **Statements, commits and the commits of others**: what is asserted of each transaction is kept. -/
theorem refreshDiscipline : Discipline (refreshProgram I) WellFormed Asserted Extends where
  begins := by
    intro committed request _
    have hs : ∀ stage : Stage I, Silent ⟨stage, fun _ => none, [], [], []⟩ := fun stage => ⟨List.not_mem_nil, rfl⟩
    have h : Untouched (fun _ => none : Rows (Row I)) := ⟨⟨fun _ => rfl, fun _ => rfl⟩, rfl⟩
    cases request with
    | issue family now =>
      show Asserted committed ⟨if family.offline then _ else _, _, _, _, _⟩
      split_ifs
      · exact ⟨hs _, h⟩
      · exact ⟨hs _, h⟩
    | redeem | revokeFamily | revokeSessionBound | revokeSession => exact ⟨hs _, h⟩
  begins_writes := fun _ _ => rfl
  next := fun _ _ _ _ hwf h hn => asserted_next hwf h hn
  next_writes := fun _ _ _ _ _ hn hh => held_next hn hh
  commit := by
    intro locked committed tx hwf h hc
    obtain ⟨answer, hst⟩ := stage_of_commit hc
    exact (h.ending hst).commit hwf
  stable := fun _ _ _ _ h he hsa => h.stable hsa he

variable {T : Type} [Fintype T] [DecidableEq T]

/-- What holds of every state. -/
def Sound (db : Database (Row I) T (Tx I)) : Prop := Kept (refreshProgram I) WellFormed Asserted db

omit [Fintype T] [DecidableEq T] in
theorem sound_unopened (s : Option SessionRow) (g : Option GrantRow) :
    Sound (unopened I T s g) where
  committed := by
    constructor
    · intro digest d2 token t2 ht
      cases ht
    · intro digest token ht
      cases ht
    · intro digest token jti ht
      cases ht
    · intro digest token ht
      cases ht
  running := by
    intro t tx htx
    cases htx
  exclusive := by
    intro t other tx tx2 k htx
    cases htx

variable {db : Database (Row I) T (Tx I)}

/-- What a step commits, a transaction that ends has written. -/
theorem step_ending (h : Sound db) (choice : Choice T (Request I)) :
    ((step (refreshProgram I) db choice).1 = none ∧ (step (refreshProgram I) db choice).2.committed = db.committed) ∨
    ∃ tx answer, (step (refreshProgram I) db choice).1 = some tx ∧ tx.stage = .commit answer ∧
      Ending db.committed tx.writes tx.minted tx.audits answer ∧
        (step (refreshProgram I) db choice).2.committed = tx.writes.over db.committed := by
  obtain hs | ⟨t, tx, htx, hc, ha, haf⟩ := step_committed (refreshProgram I) db choice
  · exact .inl hs
  · obtain ⟨answer, hst⟩ := stage_of_commit hc
    exact .inr ⟨tx, answer, ha, hst, (h.running t tx htx).ending hst, haf⟩

/-! ### One step -/

section step

variable {db : Database (Row I) T (Tx I)} {choice : Choice T (Request I)} {redeem : RefreshRedeem I} {now : ℤ}
  {outcome : RefreshRedeemOutcome}

variable (db choice redeem now outcome) in
/-- The step commits a redemption with this outcome. -/
def Redeems : Prop :=
  ∃ tx, (step (refreshProgram I) db choice).1 = some tx ∧ tx.stage = .commit (.redeemed redeem now outcome)

theorem Redeems.ending (h : Sound db) (hr : Redeems db choice redeem now outcome) :
    ∃ writes minted audits, Ending db.committed writes minted audits (.redeemed redeem now outcome) ∧
      (step (refreshProgram I) db choice).2.committed = writes.over db.committed := by
  obtain ⟨tx, ha, hs⟩ := hr
  obtain ⟨hn, -⟩ | ⟨tx2, answer, ha2, hs2, he, haf⟩ := step_ending h choice
  · rw [hn] at ha
    cases ha
  · cases ha.symm.trans ha2
    cases hs.symm.trans hs2
    exact ⟨tx.writes, tx.minted, tx.audits, he, haf⟩

/-- A token that was rotated before leads to no other. -/
theorem Redeems.none_from_superseded (h : Sound db) (hr : Redeems db choice redeem now outcome)
    (hs : Superseded db.committed redeem.presented) (dig : I) :
    (step (refreshProgram I) db choice).2.committed (.token dig) = db.committed (.token dig) := by
  obtain ⟨writes, minted, audits, he, ha⟩ := hr.ending h
  rw [ha]
  cases he with
  | rotated h _ =>
    obtain ⟨token, ht, hro⟩ := hs
    cases h.before.symm.trans ht
    exact absurd h.live hro
  | reused _ h _ | reusedBefore _ h _ _ | untouched h _ _ | revoked h _ _ => exact h.over_token dig

/-- A token is reused after its grace window, and the family is revoked then. -/
theorem Redeems.reused (h : Sound db) (hr : Redeems db choice redeem now .reused) :
    Late db.committed redeem now ∧ FamilyRevoked (step (refreshProgram I) db choice).2.committed := by
  obtain ⟨writes, minted, audits, he, ha⟩ := hr.ending h
  rw [ha]
  cases he with
  | reused hl h _ => exact ⟨hl, h.familyRevoked⟩
  | reusedBefore hl h hre _ =>
    obtain ⟨family, hf, hre⟩ := hre
    exact ⟨hl, family, (over_of_none h.family).trans hf, hre⟩
  | untouched _ han _ => exact absurd rfl (han redeem now)
  | revoked _ han _ => exact absurd rfl (han redeem now .reused)

theorem revoked_step (h : Sound db) (choice : Choice T (Request I)) (hr : FamilyRevoked db.committed) :
    FamilyRevoked (step (refreshProgram I) db choice).2.committed :=
  hr.mono (guarantee_step refreshDiscipline Extends.refl h choice)

/-- The audit rows that a step commits. -/
def recorded (entry : Choice T (Request I) × Option (Tx I)) : List AuditAction := entry.2.elim [] Tx.audits

theorem spent_step (h : Sound db) (choice : Choice T (Request I)) :
    (recorded (choice, (step (refreshProgram I) db choice).1)).count .refreshTokenReuse ≤ 1 ∧
      (.refreshTokenReuse ∈ recorded (choice, (step (refreshProgram I) db choice).1) →
        ¬ FamilyRevoked db.committed ∧ FamilyRevoked (step (refreshProgram I) db choice).2.committed) := by
  obtain ⟨hn, -⟩ | ⟨tx, answer, ha, -, he, haf⟩ := step_ending h choice
  · rw [hn]
    simp [recorded]
  · rw [ha, haf]
    exact he.spent

end step

/-! ### Every interleaving -/

/-- A family in this state is one chain, whatever comes next. -/
structure NeverForks (db : Database (Row I) T (Tx I)) : Prop where
  one_live : ∀ digest digest2, LiveLeaf db.committed digest → LiveLeaf db.committed digest2 → digest = digest2
  one_successor : ∀ digest digest2 token token2 jti, db.committed (.token digest) = some token →
    db.committed (.token digest2) = some token2 → token.predecessorJti = some jti → token2.predecessorJti = some jti →
      digest = digest2
  none_from_superseded : ∀ choice redeem now outcome, Redeems db choice redeem now outcome →
    Superseded db.committed redeem.presented →
      ∀ digest, (step (refreshProgram I) db choice).2.committed (.token digest) = db.committed (.token digest)
  reused_late : ∀ choice redeem now, Redeems db choice redeem now .reused → Late db.committed redeem now
  reused_dead : ∀ choice redeem now, Redeems db choice redeem now .reused → ∀ choices digest,
    ¬ LiveLeaf (Machine.run (step (refreshProgram I)) db (choice :: choices)).committed digest

theorem Sound.neverForks (h : Sound db) : NeverForks db where
  one_live := by
    rintro digest d2 ⟨⟨token, ht, hl⟩, -⟩ ⟨⟨t2, ht2, hl2⟩, -⟩
    exact h.committed.one_leaf digest d2 token t2 ht ht2 hl hl2
  one_successor := fun _ _ _ _ _ ht ht2 hj hj2 => h.committed.one_successor ht ht2 hj hj2
  none_from_superseded := fun _ _ _ _ hr hs => hr.none_from_superseded h hs
  reused_late := fun _ _ _ hr => (hr.reused h).1
  reused_dead := by
    rintro choice redeem now hr cs digest ⟨-, family, hf, hl⟩
    obtain ⟨f2, hf2, hre⟩ : FamilyRevoked (Machine.run (step (refreshProgram I)) _ cs).committed :=
      (Machine.run_of_step (I := fun db => Sound db ∧ FamilyRevoked db.committed)
        (fun _ c h => ⟨discipline_step refreshDiscipline h.1 c, revoked_step h.1 c h.2⟩)
        ⟨discipline_step refreshDiscipline h choice, (hr.reused h).2⟩).2
    cases hf.symm.trans hf2
    exact hre hl

/-- **A family never forks.** In every interleaving of the transactions on it there is one live leaf
at most, a token has one successor at most, a token that was rotated before leads to no other, it is
reused only after its grace window, nothing is live after that, and one reuse event is recorded. -/
theorem family_never_forks (session : Option SessionRow) (grant : Option GrantRow) (choices : List (Choice T (Request I))) :
    NeverForks (Machine.run (step (refreshProgram I)) (unopened I T session grant) choices) ∧
      ((Machine.transcript (step (refreshProgram I)) (unopened I T session grant) choices).flatMap recorded).count
        .refreshTokenReuse ≤ 1 := by
  have hst : Sound (unopened I T session grant) := sound_unopened session grant
  refine ⟨Sound.neverForks (discipline_run refreshDiscipline hst choices), ?_⟩
  refine Machine.count_flatMap_le_one (I := Sound)
    (Q := fun db : Database (Row I) T (Tx I) => ¬ FamilyRevoked db.committed)
    (fun _ choice h => discipline_step refreshDiscipline h choice) (fun _ choice h hr => ?_) (fun _ choice h hm => ?_)
    (fun _ choice h => (spent_step h choice).1) hst
  · exact not_not.mpr (revoked_step h choice (not_not.mp hr))
  · exact ((spent_step h choice).2 hm).imp_right not_not.mpr

/-- **A family's lineage is append-only.** In every schedule a committed token stays, unchanged once it is rotated, a
revocation stands, and a row is in the hands of one open transaction at most. -/
theorem lineage_append_only (session : Option SessionRow) (grant : Option GrantRow) (choices later : List (Choice T (Request I))) :
    Extends (Machine.run (step (refreshProgram I)) (unopened I T session grant) choices).committed
        (Machine.run (step (refreshProgram I)) (unopened I T session grant) (choices ++ later)).committed ∧
      Exclusive (refreshProgram I) (Machine.run (step (refreshProgram I)) (unopened I T session grant) (choices ++ later)) := by
  have hso := discipline_run refreshDiscipline (sound_unopened session grant) choices
  rw [Machine.run_append]
  exact ⟨guarantee_run refreshDiscipline Extends.refl (fun _ _ _ => Extends.trans) hso later,
    (discipline_run refreshDiscipline hso later).exclusive⟩

end runs

end IronAuth.Store
