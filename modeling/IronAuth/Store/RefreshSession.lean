import IronAuth.Store.RefreshRuns

/-!
# Redemptions and the end of a session

A redemption of a session-bound token looks at the session in its first statement, and takes no
lock on it. What it records in its later statements rests on that look.

## What is proved

* `dies_with_session`: if no redemption that has looked is under way whenever a revocation of the
  session commits, nothing is minted after the revocation.
* `revocation_overtakes_redemption`: otherwise a rotation commits after it.
-/

namespace IronAuth.Store

open Lib.ReadCommitted Lib Option

variable {I : Type}

/-! ### Sessions and redemptions -/

/-- The session was revoked. -/
def SessionRevoked (rows : Rows (Row I)) : Prop := ∃ session, rows .session = some session ∧ session.revokedAt ≠ none

/-- The family is bound to its session. -/
def SessionBound (rows : Rows (Row I)) : Prop :=
  ∃ family, rows .family = some family ∧ family.hasSession = true ∧ family.offline = false

instance (rows : Rows (Row I)) : Decidable (SessionBound rows) :=
  decidable_of_iff ((rows .family).any fun family => family.hasSession && !family.offline) (by
    rw [Option.any_eq_true]
    simp only [SessionBound, Bool.and_eq_true, Bool.not_eq_true'])

/-- The redemption has recorded tokens. -/
def RefreshRedeemOutcome.issues : RefreshRedeemOutcome → Bool
  | .rotated => true
  | .refreshedWithinGrace => true
  | .notRotated => true
  | .reused => false
  | .invalid => false

def Answer.records : Answer I → Bool
  | .redeemed _ _ outcome => outcome.issues
  | _ => false

/-- A redemption is reading the token. -/
def Stage.reading : Stage I → Bool
  | .readToken _ _ => true
  | _ => false

/-- A redemption is recording access tokens, or has recorded them. -/
def Stage.records : Stage I → Bool
  | .recordAccess _ _ _ _ => true
  | .audit _ answer => answer.records
  | .commit answer => answer.records
  | _ => false

/-- A redemption has read the token, and may record tokens. -/
def Stage.mints : Stage I → Bool
  | .consume _ _ _ => true
  | .insertSuccessor _ _ _ => true
  | .reread _ _ => true
  | stage => stage.records

/-- A bound session that was revoked is not live. -/
theorem sessionLive_eq_false {rows : Rows (Row I)} (hr : SessionRevoked rows) (hbd : SessionBound rows)
    {f : FamilyRow} (hf : rows .family = some f) (now : ℤ) :
    sessionLive rows f.offline f.hasSession now = false := by
  obtain ⟨session, hs, hr⟩ := hr
  obtain ⟨f2, hf2, hh, ho⟩ := hbd
  cases hf.symm.trans hf2
  have hd : session.live now = false := by
    obtain ⟨revokedAt, hat⟩ := ne_none_iff_exists'.mp hr
    simp [SessionRow.live, hat, isNone_some, Bool.false_and]
  rw [sessionLive, hs, hh, ho]
  exact hd

/-! ### Statements -/

section statements

variable [DecidableEq I] {rows committed : Rows (Row I)} {tx tx2 : Tx I} {locked : Key I → Bool}

/-- Everything that a statement can do to the look at the session and to what rests on it. -/
structure Progress (rows : Rows (Row I)) (tx tx2 : Tx I) : Prop where
  reads : tx2.stage.reading = false
  mints : tx2.stage.mints = true → tx.stage.mints = true ∨ tx.stage.reading = true ∧
    ∃ family now, rows .family = some family ∧ sessionLive rows family.offline family.hasSession now = true
  access : tx2.stage.records = true ∨ tx.stage.records = false ∧ tx2.access = tx.access
  session : tx2.writes .session = tx.writes .session ∨
    ∃ session, tx2.writes .session = some session ∧ (session.revokedAt ≠ none ∨ rows .session = some session)

/-- Nothing was looked at on the way from one stage to the other. -/
structure Stage.Follows (stage before : Stage I) : Prop where
  reads : stage.reading = false
  mints : stage.mints = true → before.mints = true
  records : before.records = false

variable {s : Stage I} {r : RefreshRedeem I} {a : Rows (Row I)}

omit [DecidableEq I] in
theorem progress_to (h : s.Follows tx.stage) : Progress rows tx (tx.to s) :=
  ⟨h.reads, fun hmi => .inl (h.mints hmi), .inr ⟨h.records, rfl⟩, .inl rfl⟩

theorem progress_write {k : Key I} {row : Row I k} (hk : k ≠ .session) (h : s.Follows tx.stage) :
    Progress rows tx (tx.write k row s) :=
  ⟨h.reads, fun hmi => .inl (h.mints hmi), .inr ⟨h.records, rfl⟩, .inl (writes_write_of_ne row s hk.symm)⟩

theorem progress_write_session {se : SessionRow} (h : s.Follows tx.stage)
    (hs : se.revokedAt ≠ none ∨ rows .session = some se) :
    Progress rows tx (tx.write .session se s) :=
  ⟨h.reads, fun hmi => .inl (h.mints hmi), .inr ⟨h.records, rfl⟩,
    .inr ⟨se, writes_write (k := .session) se s, hs⟩⟩

theorem progress_guardedUpdate {k : Key I} {g : Row I k → Bool} {new : Row I k → Row I k} {s2 : Stage I}
    (hk : k ≠ .session)
    (hn : guardedUpdate locked rows k g (fun row => .next (tx.write k (new row) s)) (.next (tx.to s2)) = .next tx2)
    (h : s.Follows tx.stage) (h2 : s2.Follows tx.stage) : Progress rows tx tx2 :=
  guardedUpdate_next hn (fun _ _ _ _ => progress_write hk h) fun _ => progress_to h2

omit [DecidableEq I] in
/-- A classification decides about a token that was found rotated. -/
theorem classifySuperseded_reading (re : RefreshRedeem I) (now r : ℤ) :
    (classifySuperseded re now r).reading = false := by
  unfold classifySuperseded
  split_ifs
  · rfl
  · rfl

omit [DecidableEq I] in
theorem progress_readToken {now : ℤ} (hs : tx.stage = .readToken r now)
    (hn : readToken rows tx r now = .next tx2) : Progress rows tx tx2 := by
  have hr : tx.stage.records = false := by rw [hs]; rfl
  have hrd : tx.stage.reading = true := by rw [hs]; rfl
  have hi : Progress rows tx (tx.to (.commit (.redeemed r now .invalid))) :=
    progress_to ⟨rfl, Bool.noConfusion, hr⟩
  obtain rfl | ⟨token, family, grant, -, hf, rfl⟩ := readToken_eq_next hn
  · exact hi
  have hlo : ∀ stage : Stage I, stage.reading = false →
      sessionLive rows family.offline family.hasSession now = true → Progress rows tx (tx.to stage) :=
    fun stage hre hl =>
      ⟨hre, fun _ => .inr ⟨hrd, family, now, hf, hl⟩, .inr ⟨hr, rfl⟩, .inl rfl⟩
  obtain heq | ⟨hl, ⟨rotatedAt, -, heq⟩ | heq | heq⟩ := decideRedeem_cases rows r now token family grant
  · rw [heq]
    exact hi
  · rw [heq]
    exact hlo _ (classifySuperseded_reading r now rotatedAt) hl
  · rw [heq]
    exact hlo _ rfl hl
  · rw [heq]
    exact hlo _ rfl hl

/-- **A redemption comes to record tokens only from a look at a live session.** -/
theorem progress_next (hn : nextStatement locked committed tx = .next tx2) :
    Progress (tx.writes.over committed) tx tx2 := by
  obtain ⟨stage, writes, audits, access, minted⟩ := tx
  cases stage with
  | readGrant family now =>
    cases hn
    split_ifs
    · exact progress_to ⟨rfl, id, rfl⟩
    · exact progress_to ⟨rfl, id, rfl⟩
  | lockSession family now =>
    refine guardedUpdate_next hn (fun _ session hs _ => ?_) fun _ => progress_to ⟨rfl, id, rfl⟩
    exact progress_write_session ⟨rfl, id, rfl⟩ (.inr hs)
  | openFamily family now =>
    unfold nextStatement openFamily at hn
    dsimp only at hn
    split at hn
    · cases hn
      exact progress_to ⟨rfl, id, rfl⟩
    · split_ifs at hn
      · obtain ⟨-, -, hh⟩ := insertUnique_eq_next hn
        cases hh
        exact progress_write (k := .family) (by simp) ⟨rfl, id, rfl⟩
      · cases hn
        exact progress_to ⟨rfl, id, rfl⟩
  | firstToken family | insertSuccessor redeem now jti =>
    obtain ⟨-, -, -, rfl⟩ := insertToken_eq_next hn
    exact ⟨rfl, .inl, .inr ⟨rfl, rfl⟩, .inl (mint_of_ne _ _ _ (by simp) (by simp))⟩
  | readToken redeem now => exact progress_readToken rfl hn
  | consume redeem now jti
  | revokeReused redeem now
  | revokeFamily now
  | revokeSessionBound now
  | revokeSessionGrants now f => exact progress_guardedUpdate (by simp) hn ⟨rfl, id, rfl⟩ ⟨rfl, id, rfl⟩
  | reread redeem now =>
    cases hn
    exact progress_to ⟨classifySuperseded_reading .., fun _ => rfl, rfl⟩
  | recordAccess redeem now outcome rest =>
    cases rest with
    | nil =>
      cases hn
      refine ⟨rfl, fun _ => .inl rfl, .inl ?_, .inl rfl⟩
      cases outcome with
      | rotated | refreshedWithinGrace | notRotated => rfl
    | cons id rest =>
      cases hn
      exact ⟨rfl, fun _ => .inl rfl, .inl rfl, .inl rfl⟩
  | revokeGrant now f =>
    cases f with
    | true | false => exact progress_guardedUpdate (by simp) hn ⟨rfl, id, rfl⟩ ⟨rfl, id, rfl⟩
  | revokeSession now hk =>
    refine guardedUpdate_next hn (fun _ session _ _ => ?_) fun _ => progress_to ⟨rfl, id, rfl⟩
    exact progress_write_session ⟨rfl, id, rfl⟩ (.inl (some_ne_none now))
  | revokeSessionFamilies now hk f =>
    cases hk with
    | true | false => exact progress_guardedUpdate (by simp) hn ⟨rfl, id, rfl⟩ ⟨rfl, id, rfl⟩
  | audit action answer =>
    cases hn
    refine ⟨rfl, .inl, ?_, .inl rfl⟩
    cases hr : answer.records with
    | true => exact .inl hr
    | false => exact .inr ⟨hr, rfl⟩
  | commit answer => cases hn

/-! ### What rests on the look at the session -/

/-- What is asserted of a transaction besides: it looks before it writes a session, what it may
record it records for a family that is there, and the session that it holds is the one it found. -/
structure Careful (committed : Rows (Row I)) (tx : Tx I) : Prop where
  looks : tx.stage.reading = true → tx.writes .session = none
  family : tx.stage.mints = true → ∃ family, committed .family = some family
  quiet : tx.stage.records = false → tx.access = []
  session : ∀ session, tx.writes .session = some session → session.revokedAt ≠ none ∨ committed .session = some session

omit [DecidableEq I] in
theorem Asserted.untouched (h : Asserted committed tx) (hrd : tx.stage.reading = true) : Untouched tx.writes := by
  obtain ⟨stage, writes, audits, access, minted⟩ := tx
  cases stage with
  | readToken redeem now => exact h.2
  | _ => cases hrd

omit [DecidableEq I] in
theorem careful_next (has : Asserted committed tx) (h : Careful committed tx)
    (hp : Progress (tx.writes.over committed) tx tx2) : Careful committed tx2 := by
  constructor
  · intro hrd
    rw [hp.reads] at hrd
    cases hrd
  · intro hmi
    obtain hmi | ⟨hrd, family, -, hf, -⟩ := hp.mints hmi
    · exact h.family hmi
    · rw [(has.untouched hrd).over_family] at hf
      exact ⟨family, hf⟩
  · intro hq
    obtain hr | ⟨hb, ha⟩ := hp.access
    · rw [hr] at hq
      cases hq
    · rw [ha, h.quiet hb]
  · intro session hse
    obtain hs | ⟨s2, hs2, hre | hfd⟩ := hp.session
    · exact h.session session (hs.symm.trans hse)
    · cases hse.symm.trans hs2
      exact .inl hre
    · cases hse.symm.trans hs2
      cases hh : tx.writes .session with
      | none => exact .inr ((over_of_none hh).symm.trans hfd)
      | some held =>
        cases (over_of_some hh).symm.trans hfd
        exact h.session session hh

omit [DecidableEq I] in
theorem Careful.stable (h : Careful committed tx) (he : Extends committed a)
    (hs : Same committed a tx.writes) : Careful a tx := by
  refine ⟨h.looks, fun hmi => ?_, h.quiet, fun session hse => ?_⟩
  · obtain ⟨family, hf⟩ := h.family hmi
    obtain ⟨f2, hf2, -⟩ := he.family family hf
    exact ⟨f2, hf2⟩
  · obtain hr | hfd := h.session session hse
    · exact .inl hr
    · exact .inr (hs.row hse hfd)

omit [DecidableEq I] in
/-- A commit does not undo the revocation of the session. -/
theorem Careful.revoked (h : Careful committed tx) (hr : SessionRevoked committed) :
    SessionRevoked (tx.writes.over committed) := by
  obtain ⟨session, hs, hat⟩ := hr
  cases hh : tx.writes .session with
  | none => exact ⟨session, (over_of_none hh).trans hs, hat⟩
  | some held =>
    refine ⟨held, over_of_some hh, ?_⟩
    obtain hr | hfd := h.session held hh
    · exact hr
    · cases hfd.symm.trans hs
      exact hat

omit [DecidableEq I] in
theorem SessionBound.mono {pre after : Rows (Row I)} (h : Extends pre after) (hbd : SessionBound pre) :
    SessionBound after := by
  obtain ⟨family, hf, hh, ho⟩ := hbd
  obtain ⟨f2, hf2, hs, hof, -⟩ := h.family family hf
  exact ⟨f2, hf2, hs.trans hh, hof.trans ho⟩

end statements

/-! ### Runs -/

section runs

variable [DecidableEq I]

theorem begins_stage (req : Request I) :
    ((refreshProgram I).begins req).stage.mints = false ∧ ((refreshProgram I).begins req).stage.records = false := by
  cases req with
  | issue family now =>
    show (if family.offline then Stage.openFamily family now else .readGrant family now).mints = false ∧
      (if family.offline then Stage.openFamily family now else .readGrant family now).records = false
    split_ifs
    · exact ⟨rfl, rfl⟩
    · exact ⟨rfl, rfl⟩
  | redeem | revokeFamily | revokeSessionBound | revokeSession => exact ⟨rfl, rfl⟩

theorem sessionDiscipline : Discipline (refreshProgram I) WellFormed
    (fun committed tx => Asserted committed tx ∧ Careful committed tx)
    (fun before after => Extends before after ∧ (SessionRevoked before → SessionRevoked after)) := by
  refine refreshDiscipline.and ?_ ?_ ?_ ?_
  · intro committed request
    refine ⟨fun _ => rfl, fun hmi => ?_, fun _ => rfl, fun session hse => ?_⟩
    · rw [(begins_stage request).1] at hmi
      cases hmi
    · cases hse
  · intro locked committed tx tx2 has h hn
    exact careful_next has h (progress_next hn)
  · intro committed tx h
    exact h.revoked
  · intro committed after tx h he hs
    exact h.stable he hs

variable {T : Type} [Fintype T] [DecidableEq T]

/-- What holds of every state. -/
def Guarded (db : Database (Row I) T (Tx I)) : Prop :=
  Kept (refreshProgram I) WellFormed (fun committed tx => Asserted committed tx ∧ Careful committed tx) db

/-- No redemption rests on a look at a session that was revoked since. -/
def Closed (db : Database (Row I) T (Tx I)) : Prop :=
  SessionRevoked db.committed → SessionBound db.committed → ∀ t tx, db.running t = some tx → tx.stage.mints = false

/-- The transaction commits a revocation of the session. -/
def Tx.revokesSession (tx : Tx I) : Bool :=
  (match tx.stage with
    | .commit _ => true
    | _ => false) && (tx.writes .session).any fun session => session.revokedAt.isSome

/-- When a revocation of the session commits, no redemption of a token bound to it is between its
look at the session and its commit. -/
def NoneUnderWay (db : Database (Row I) T (Tx I)) : Choice T (Request I) → Prop
  | .advance t => (db.running t).any Tx.revokesSession = true → SessionBound db.committed →
      ∀ other, (db.running other).all (fun tx => !tx.stage.mints) = true
  | _ => True

instance (db : Database (Row I) T (Tx I)) : ∀ choice, Decidable (NoneUnderWay db choice)
  | .advance t => inferInstanceAs (Decidable ((db.running t).any Tx.revokesSession = true → SessionBound db.committed →
      ∀ other, (db.running other).all (fun tx => !tx.stage.mints) = true))
  | .start _ _ => isTrue trivial
  | .abort _ => isTrue trivial

/-- Nothing is minted for a bound family after the revocation of its session. -/
structure DiesWithSession (db : Database (Row I) T (Tx I)) (choice : Choice T (Request I)) : Prop where
  mints_nothing : ∀ tx redeem now outcome, (step (refreshProgram I) db choice).1 = some tx →
    tx.stage = .commit (.redeemed redeem now outcome) → SessionRevoked db.committed → SessionBound db.committed →
      tx.access = [] ∧ tx.minted = []
  stays_revoked : SessionRevoked db.committed → SessionRevoked (step (refreshProgram I) db choice).2.committed
  stays_bound : SessionBound db.committed → SessionBound (step (refreshProgram I) db choice).2.committed

section step

variable {db : Database (Row I) T (Tx I)} {choice : Choice T (Request I)}

omit [DecidableEq I] [Fintype T] in
/-- Closing a transaction, or moving one on to a stage that mints nothing. -/
theorem Closed.set (h : Closed db) (t : T) (next : Option (Tx I))
    (hn : SessionRevoked db.committed → SessionBound db.committed → ∀ tx, next = some tx → tx.stage.mints = false) :
    Closed (db.set t next) := by
  intro hr hbd other tx ho
  obtain ⟨-, heq⟩ | ⟨-, hb⟩ := running_set ho
  · exact hn hr hbd tx heq
  · exact h hr hbd other tx hb

variable {locked : Key I → Bool}

omit [Fintype T] [DecidableEq T] in
/-- A statement of a redemption that has looked at a dead session records nothing. -/
theorem mints_next (hg : Guarded db) (h : Closed db) {t : T} {tx tx2 : Tx I}
    (htx : db.running t = some tx) (hn : nextStatement locked db.committed tx = .next tx2)
    (hr : SessionRevoked db.committed) (hbd : SessionBound db.committed) : tx2.stage.mints = false := by
  have hp := progress_next hn
  by_contra hmi
  obtain hb | ⟨hrd, family, now, hf, hl⟩ := hp.mints (Bool.eq_true_of_not_eq_false hmi)
  · rw [h hr hbd t tx htx] at hb
    cases hb
  · obtain ⟨has, hc⟩ := hg.running t tx htx
    -- what the transaction sees of the session and the family is what is committed
    have hse : tx.writes.over db.committed .session = db.committed .session := over_of_none (hc.looks hrd)
    have hs : tx.writes.over db.committed .family = db.committed .family := (has.untouched hrd).over_family
    have hd := sessionLive_eq_false hr hbd (hs.symm.trans hf) now
    rw [sessionLive, hse] at hl
    rw [sessionLive, hl] at hd
    cases hd

omit [Fintype T] in
/-- The commit of a revocation finds no redemption that has looked. -/
theorem Closed.commit (hg : Guarded db) (h : Closed db) {t : T} {tx : Tx I}
    (htx : db.running t = some tx) (hco : nextStatement locked db.committed tx = .commit)
    (hn : NoneUnderWay db (.advance t)) : Closed (db.commit (refreshProgram I) t tx) := by
  intro hr hbd other tx2 ho
  obtain ⟨-, heq⟩ | ⟨-, hb⟩ := running_set ho
  · cases heq
  by_contra hmi
  obtain ⟨-, hc⟩ := hg.running other tx2 hb
  obtain ⟨family, hf⟩ := hc.family (Bool.eq_true_of_not_eq_false hmi)
  have he := (sessionDiscipline.commit locked db.committed tx hg.committed (hg.running t tx htx) hco).2.1
  have hbd0 : SessionBound db.committed := by
    obtain ⟨f2, hf2, hs, ho, -⟩ := he.family family hf
    obtain ⟨f3, hf3, hh, hon⟩ := hbd
    cases hf2.symm.trans hf3
    exact ⟨family, hf, hs.symm.trans hh, ho.symm.trans hon⟩
  by_cases hr0 : SessionRevoked db.committed
  · exact hmi (h hr0 hbd0 other tx2 hb)
  · -- the session was not revoked before, so this transaction has revoked it
    obtain ⟨session, hs, hat⟩ := hr
    have hws : tx.writes .session = some session := by
      cases hh : tx.writes .session with
      | none => exact absurd ⟨session, (over_of_none hh).symm.trans hs, hat⟩ hr0
      | some held => exact (over_of_some hh).symm.trans hs
    obtain ⟨answer, hst⟩ := stage_of_commit hco
    have hrv : (db.running t).any Tx.revokesSession = true := by
      rw [htx, any_some, Tx.revokesSession, hst, hws]
      exact isSome_iff_ne_none.mpr hat
    have ha := hn hrv hbd0 other
    rw [hb, all_some, Bool.not_eq_true'] at ha
    exact hmi ha

theorem closed_step (hg : Guarded db) (h : Closed db) (hn : NoneUnderWay db choice) :
    Closed (step (refreshProgram I) db choice).2 := by
  obtain hs | ⟨t, hs⟩ | ⟨t, request, -, hs⟩ | ⟨t, tx, next, htx, hne, hs⟩ | ⟨t, tx, rfl, htx, hc, hs⟩ :=
    step_cases (refreshProgram I) db choice
  · rw [hs]
    exact h
  · rw [hs]
    exact h.set t none (by simp)
  · rw [hs]
    refine h.set t _ fun _ _ tx heq => ?_
    cases heq
    exact (begins_stage request).1
  · rw [hs]
    refine h.set t _ fun hr hbd tx2 heq => ?_
    cases heq
    exact mints_next hg h htx hne hr hbd
  · rw [hs]
    exact h.commit hg htx hc hn

theorem dies_step (hg : Guarded db) (h : Closed db) (choice : Choice T (Request I)) : DiesWithSession db choice := by
  have hs := guarantee_step sessionDiscipline (fun rows => ⟨Extends.refl rows, id⟩) hg choice
  refine ⟨?_, hs.2, fun hbd => hbd.mono hs.1⟩
  intro tx redeem now outcome ha hst hr hbd
  obtain ⟨hn, -⟩ | ⟨t, tx2, htx, -, ha2, -⟩ := step_committed (refreshProgram I) db choice
  · rw [hn] at ha
    cases ha
  · cases ha.symm.trans ha2
    obtain ⟨has, hc⟩ := hg.running t tx htx
    have hi : tx.stage.mints = false := h hr hbd t tx htx
    rw [hst] at hi
    refine ⟨hc.quiet (hst ▸ hi), ?_⟩
    obtain ⟨_, _, _, _, minted⟩ := tx
    cases has.ending hst with
    | rotated => cases hi
    | _ => rfl

end step

/-- **A session-bound family dies with its session**, in every interleaving in which no redemption is
between its look at the session and its commit when a revocation of the session commits. -/
theorem dies_with_session (session : Option SessionRow) (grant : Option GrantRow) (choices : List (Choice T (Request I)))
    (h : Machine.Along (step (refreshProgram I)) NoneUnderWay (unopened I T session grant) choices) :
    Machine.Along (step (refreshProgram I)) DiesWithSession (unopened I T session grant) choices := by
  have hst : Guarded (unopened I T session grant) := by
    refine ⟨(sound_unopened session grant).committed, fun t tx htx => ?_, (sound_unopened session grant).exclusive⟩
    cases htx
  have hcl : Closed (unopened I T session grant) := by
    intro _ _ t tx htx
    cases htx
  refine Machine.along_of_invariant
    (I := fun db choices => Guarded db ∧ Closed db ∧ Machine.Along (step (refreshProgram I)) NoneUnderWay db choices)
    ?_ ⟨hst, hcl, h⟩
  rintro db choice choices ⟨hg, hc, hno, hre⟩
  exact ⟨dies_step hg hc choice, discipline_step sessionDiscipline hg choice, closed_step hg hc hno, hre⟩

end runs

/-! ### A revocation between the look and the commit -/

/-- A session that is live until time 100. -/
def shortSession : SessionRow := ⟨none, none, false, none, 100, none⟩

/-- The request that opens a family with the token 10, whose `jti` is 20. -/
def openTen : Request ℕ := .issue ⟨20, 10, false, 0, 100, 100⟩ 0

/-- The request that redeems the token 10 for the token 11 and the access token 30. -/
def redeemTen : Request ℕ := .redeem ⟨10, true, ⟨21, 11, 1, 100⟩, [30], none, ⟨0, Nat.zero_le _⟩⟩ 1

/-- A transaction is started, and its statements follow. -/
def whole {I : Type} (t : Bool) (request : Request I) (statements : ℕ) : List (Choice Bool (Request I)) :=
  .start t request :: List.replicate statements (.advance t)

/-- The family is opened, and its session revoked before the redemption starts. -/
theorem redemption_after_revocation :
    Machine.Along (step (refreshProgram ℕ)) DiesWithSession (unopened ℕ Bool (some shortSession) (some ⟨true, none⟩))
      (whole true openTen 6 ++ whole true (.revokeSession 1 false) 4 ++ whole false redeemTen 2) :=
  dies_with_session _ _ _ (by decide +kernel)

/-- The redemption looks at the session, the session is revoked, and the redemption goes on. -/
def overtaken : List (Choice Bool (Request ℕ)) :=
  whole true openTen 6 ++ whole false redeemTen 1 ++ whole true (.revokeSession 1 false) 4 ++
    List.replicate 4 (.advance false)

theorem revocation_overtakes_redemption :
    ¬ Machine.Along (step (refreshProgram ℕ)) DiesWithSession (unopened ℕ Bool (some shortSession) (some ⟨true, none⟩))
      (overtaken ++ [.advance false]) := by
  intro h
  have hla := (Machine.along_append.mp h).2.1.mints_nothing _ _ _ _ rfl rfl ⟨_, rfl, some_ne_none _⟩ ⟨_, rfl, rfl, rfl⟩
  exact List.cons_ne_nil _ _ hla.2

end IronAuth.Store
