import IronAuth.Lib.Scripts
import IronAuth.Store.Clock

/-!
# Authorization codes

The redemption of one authorization code: `redeem` consumes it under a guard and records the tokens
that were signed for it; a redemption that misses looks at the code again and classifies itself
(`classify_miss`), and a genuine reuse revokes the grant.

The rows are the code, its grant, and the tokens bound to it. The code refers to its grant by a
foreign key, so the grant is there. The usage events of `meter_redeemed_tokens` are left out.

## What is proved

* `codeDiscipline`: what a redemption relies on at each statement is kept by it, and by the commits
  of others.
* `code_spent_once`: over every interleaving, one redemption at most consumes the code, tokens are
  there exactly if one did, a retry within the window revokes nothing, after a reuse the grant is
  revoked, and one reuse is recorded at most.
-/

namespace IronAuth.Store.Codes

open Lib.ReadCommitted Lib Option Function

/-! ### Rows and requests -/

/-- A row of `authorization_codes`. -/
structure CodeRow where
  expiresAt : ℤ
  consumedAt : Option ℤ

/-- A row of `grants`. -/
structure GrantRow where
  revokedAt : Option ℤ

/-- `TokenKind`. -/
inductive TokenKind where
  | access
  | id

/-- The keys of the rows; the tokens are those of `issued_tokens` and of `opaque_access_tokens`. -/
inductive Key (I : Type) where
  | code
  | grant
  | issued (id : I)
  | opaqueToken (digest : I)
  deriving DecidableEq

/-- What stands under a key; under the digest of an opaque token, its `jti`. -/
abbrev Row (I : Type) : Key I → Type
  | .code => CodeRow
  | .grant => GrantRow
  | .issued _ => TokenKind
  | .opaqueToken _ => I

/-- `MintedAccessToken`. -/
inductive MintedAccessToken (I : Type) where
  | jwt (jti : I)
  | opaqueToken (digest jti : I)

/-- What the token endpoint presents: the tokens it has signed, and the reuse window in
microseconds. -/
structure CodeRedeem (I : Type) where
  idToken : I
  access : MintedAccessToken I
  reuseGrace : ℕ

/-- A row that a redemption inserts. -/
inductive TokenRecord (I : Type) where
  | issued (id : I) (kind : TokenKind)
  | opaqueToken (digest jti : I)

/-- The records of the token endpoint: always the ID token, and the access token in its form. -/
def CodeRedeem.records {I : Type} (redeem : CodeRedeem I) : List (TokenRecord I) :=
  .issued redeem.idToken .id :: match redeem.access with
    | .jwt jti => [.issued jti .access]
    | .opaqueToken digest jti => [.opaqueToken digest jti]

def TokenRecord.key {I : Type} : TokenRecord I → Key I
  | .issued id _ => .issued id
  | .opaqueToken digest _ => .opaqueToken digest

def TokenRecord.row {I : Type} : (record : TokenRecord I) → Row I record.key
  | .issued _ kind => kind
  | .opaqueToken _ jti => jti

/-- `RedeemOutcome`. -/
inductive RedeemOutcome where
  | consumed
  | retryWithinGrace
  | reused
  | invalid
  deriving DecidableEq

/-- The actions of the audit rows. -/
inductive AuditAction where
  | authorizationCodeRedeem
  | authorizationCodeReuse
  deriving DecidableEq

/-! ### The script -/

/-- Where a redemption stands, with the clock's reading. -/
inductive Control (I : Type) where
  | consume (redeem : CodeRedeem I) (now : ℤ)
  | record (redeem : CodeRedeem I) (now : ℤ) (rest : List (TokenRecord I))
  | classify (redeem : CodeRedeem I) (now : ℤ)
  | revokeGrant (redeem : CodeRedeem I) (now : ℤ)
  | audit (redeem : CodeRedeem I) (now : ℤ) (outcome : RedeemOutcome) (action : AuditAction)
  | commit (redeem : CodeRedeem I) (now : ℤ) (outcome : RedeemOutcome) (audits : List AuditAction)

variable {I : Type}

variable (rows : Rows (Row I))

/-- `classify_miss`, up to its second statement. -/
def classifyMiss (redeem : CodeRedeem I) (now : ℤ) : Control I :=
  match (rows .code).bind CodeRow.consumedAt with
  | none => .commit redeem now .invalid []
  | some consumedAt =>
    if saturatingSub now consumedAt ≤ windowMicros redeem.reuseGrace then .commit redeem now .retryWithinGrace []
    else .revokeGrant redeem now

/-- The statements of `redeem` and `classify_miss`. -/
def statement : Control I → Statement (Row I) (Control I)
  | .consume redeem now =>
    .update .code (fun code => code.consumedAt.isNone && decide (now < code.expiresAt))
      (fun code => { code with consumedAt := some now })
      (fun _ => .record redeem now redeem.records) (.classify redeem now)
  | .record redeem now [] => .query fun _ => .audit redeem now .consumed .authorizationCodeRedeem
  | .record redeem now (record :: rest) => .insert record.key record.row (.record redeem now rest)
  | .classify redeem now => .query fun rows => classifyMiss rows redeem now
  | .revokeGrant redeem now =>
    .update .grant (fun grant => grant.revokedAt.isNone) (fun _ => ⟨some now⟩)
      (fun _ => .audit redeem now .reused .authorizationCodeReuse) (.commit redeem now .reused [])
  | .audit redeem now outcome action => .query fun _ => .commit redeem now outcome [action]
  | .commit _ _ _ _ => .commit

/-- A database with redemptions of a code. -/
abbrev CodeDatabase (I T : Type) := Database (Row I) T (Script (Row I) (Control I))

/-- The redemptions of a code. -/
def codeProgram (I : Type) [DecidableEq I] : Program (Row I) (Script (Row I) (Control I)) (CodeRedeem I × ℤ) :=
  scripts statement fun request => .consume request.1 request.2

/-- Before the code is presented. -/
def presented (I T : Type) (code : Option CodeRow) (grant : GrantRow) : CodeDatabase I T where
  committed
    | .code => code
    | .grant => some grant
    | .issued _ => none
    | .opaqueToken _ => none
  running := fun _ => none

/-! ### Assertions -/

/-- The code was consumed at this instant. -/
def Consumed (instant : ℤ) : Prop := ∃ code, rows .code = some code ∧ code.consumedAt = some instant

/-- The grant was revoked. -/
def Revoked : Prop := ∃ grant, rows .grant = some grant ∧ grant.revokedAt ≠ none

/-- There is a token bound to the code. -/
def HasTokens : Prop :=
  (∃ id, rows (.issued id) ≠ none) ∨ ∃ digest, rows (.opaqueToken digest) ≠ none

/-- The grant is there, and tokens only if the code was consumed. -/
structure WellFormed (rows : Rows (Row I)) : Prop where
  grant : ∃ grant, rows .grant = some grant
  tokens : HasTokens rows → ∃ instant, Consumed rows instant

/-- A code stays consumed, and a grant revoked. -/
structure Extends (before after : Rows (Row I)) : Prop where
  consumed : ∀ instant, Consumed before instant → Consumed after instant
  revoked : Revoked before → Revoked after

/-- The code was consumed, and its window was over at the reading of the clock. -/
def Late (redeem : CodeRedeem I) (now : ℤ) : Prop :=
  ∃ instant, Consumed rows instant ∧ instant + redeem.reuseGrace < now

/-- The transaction consumes the code, and has recorded these tokens. -/
structure Consuming (committed writes : Rows (Row I)) (now : ℤ) (row : CodeRow) (done : List (TokenRecord I)) : Prop where
  before : committed .code = some row
  fresh : row.consumedAt = none
  code : writes .code = some { row with consumedAt := some now }
  grant : writes .grant = none
  tokens : ∀ record ∈ done, writes record.key ≠ none

/-- The transaction revokes the grant, and nothing else. -/
structure Revoking (committed writes : Rows (Row I)) (now : ℤ) (old : GrantRow) : Prop where
  before : committed .grant = some old
  live : old.revokedAt = none
  grant : writes .grant = some ⟨some now⟩
  other : ∀ k, k ≠ .grant → writes k = none

/-- What a redemption has written and recorded when it answers. -/
inductive Ending (committed writes : Rows (Row I)) (redeem : CodeRedeem I) (now : ℤ) :
    RedeemOutcome → List AuditAction → Prop
  | consumed {row : CodeRow} (h : Consuming committed writes now row redeem.records) :
      Ending committed writes redeem now .consumed [.authorizationCodeRedeem]
  | reused {old : GrantRow} (hlate : Late committed redeem now) (h : Revoking committed writes now old) :
      Ending committed writes redeem now .reused [.authorizationCodeReuse]
  | reusedBefore (hlate : Late committed redeem now) (h : ∀ k, writes k = none) (hrevoked : Revoked committed) :
      Ending committed writes redeem now .reused []
  | retryWithinGrace (h : ∀ k, writes k = none) : Ending committed writes redeem now .retryWithinGrace []
  | invalid (h : ∀ k, writes k = none) : Ending committed writes redeem now .invalid []

/-- What is asserted of a redemption before its next statement. -/
def Asserted (committed : Rows (Row I)) (script : Script (Row I) (Control I)) : Prop :=
  match script.control with
  | .consume _ _ => ∀ k, script.writes k = none
  | .record redeem now rest =>
    ∃ row done, Consuming committed script.writes now row done ∧ redeem.records = done ++ rest
  | .classify _ _ => ∀ k, script.writes k = none
  | .revokeGrant redeem now => (∀ k, script.writes k = none) ∧ Late committed redeem now
  | .audit redeem now outcome action => Ending committed script.writes redeem now outcome [action]
  | .commit redeem now outcome audits => Ending committed script.writes redeem now outcome audits

/-! ### Statements -/

section statements

variable {committed writes : Rows (Row I)} {redeem : CodeRedeem I} {now : ℤ}

variable [DecidableEq I]

omit [DecidableEq I] in
theorem TokenRecord.key_ne (r : TokenRecord I) : r.key ≠ .code ∧ r.key ≠ .grant := by
  cases r with
  | issued | opaqueToken => simp [TokenRecord.key]

/-- One more token is recorded. -/
theorem Consuming.insert {row : CodeRow} {d : List (TokenRecord I)} (h : Consuming committed writes now row d)
    (r : TokenRecord I) :
    Consuming committed (Function.update writes r.key (some r.row)) now row (d ++ [r]) where
  before := h.before
  fresh := h.fresh
  code := by rw [update_of_ne r.key_ne.1.symm, h.code]
  grant := by rw [update_of_ne r.key_ne.2.symm, h.grant]
  tokens := by
    intro other ho
    by_cases hk : other.key = r.key
    · rw [hk, update_self]
      exact some_ne_none _
    · rw [update_of_ne hk]
      apply h.tokens
      obtain hm | hl := List.mem_append.mp ho
      · exact hm
      · exact absurd (congrArg TokenRecord.key (List.mem_singleton.mp hl)) hk

/-- Each statement keeps what is asserted. -/
theorem asserted_next (hwf : WellFormed committed) (scr : Script (Row I) (Control I)) (h : Asserted committed scr) :
    (statement scr.control).Ensures committed scr.writes (Asserted committed) := by
  obtain ⟨control, writes⟩ := scr
  cases control with
  | consume redeem now =>
    have hbl : ∀ k, writes k = none := h
    refine ⟨fun code hc hgd => ?_, fun _ => hbl⟩
    rw [over_of_blank hbl] at hc
    refine ⟨code, [], ⟨hc, ?_, by simp, ?_, by simp⟩, rfl⟩
    · exact isNone_iff_eq_none.mp (Bool.and_eq_true_iff.mp hgd).1
    · simp [hbl]
  | record redeem now rest =>
    obtain ⟨row, done, hco, hr⟩ := h
    cases rest with
    | nil =>
      rw [List.append_nil] at hr
      exact .consumed (hr ▸ hco)
    | cons record rest =>
      intro _
      exact ⟨row, done ++ [record], hco.insert record, by rw [hr, List.append_assoc, List.singleton_append]⟩
  | classify redeem now =>
    show Asserted committed ⟨classifyMiss (writes.over committed) redeem now, writes⟩
    rw [over_of_blank h]
    unfold classifyMiss
    split
    · exact .invalid h
    · rename_i i hi
      split_ifs with hg
      · exact .retryWithinGrace h
      · -- the window was over
        obtain ⟨code, hc, hco⟩ := bind_eq_some_iff.mp hi
        refine ⟨h, i, ⟨code, hc, hco⟩, ?_⟩
        unfold windowMicros saturatingSub i64Max at hg
        omega
  | revokeGrant redeem now =>
    obtain ⟨hbl, hl⟩ := h
    refine ⟨fun old ho hli => ?_, fun hm => ?_⟩
    · rw [over_of_blank hbl] at ho
      refine .reused hl ⟨ho, isNone_iff_eq_none.mp hli, by simp, fun k hk => ?_⟩
      exact (update_of_ne hk ..).trans (hbl k)
    · obtain ⟨grant, hg⟩ := hwf.grant
      have hre := hm grant (by rw [over_of_blank hbl, hg])
      refine .reusedBefore hl hbl ⟨grant, hg, ?_⟩
      rwa [Ne, ← isNone_iff_eq_none, Bool.not_eq_true]
  | audit redeem now outcome action => exact h
  | commit redeem now outcome audits => trivial

end statements

/-! ### Commits -/

section commits

variable {committed after writes : Rows (Row I)} {redeem : CodeRedeem I} {now : ℤ} {outcome : RedeemOutcome}
  {audits : List AuditAction}

variable {row : CodeRow} {d : List (TokenRecord I)} {old : GrantRow}

theorem Consuming.consumed (h : Consuming committed writes now row d) :
    Consumed (writes.over committed) now := ⟨_, over_of_some h.code, rfl⟩

theorem Consuming.not_consumed (h : Consuming committed writes now row d)
    (instant : ℤ) : ¬ Consumed committed instant := by
  rintro ⟨code, hc, hco⟩
  cases h.before.symm.trans hc
  rw [h.fresh] at hco
  cases hco

/-- The tokens of a redemption that consumes the code are there. -/
theorem Consuming.hasTokens (h : Consuming committed writes now row redeem.records) :
    HasTokens (writes.over committed) := by
  refine .inl ⟨redeem.idToken, fun hn => ?_⟩
  apply h.tokens (.issued redeem.idToken .id)
  · exact List.mem_cons_self
  · exact (over_eq_none_iff.mp hn).1

section

variable (h : Revoking committed writes now old)

include h

theorem Revoking.revoked : Revoked (writes.over committed) :=
  ⟨_, over_of_some h.grant, some_ne_none now⟩

theorem Revoking.not_revoked : ¬ Revoked committed := by
  rintro ⟨grant, hg, hr⟩
  cases h.before.symm.trans hg
  exact hr h.live

theorem Revoking.over_other {k : Key I} (hk : k ≠ .grant) :
    writes.over committed k = committed k := over_of_none (h.other k hk)

theorem Revoking.hasTokens_iff :
    HasTokens (writes.over committed) ↔ HasTokens committed := by
  have hi : ∀ id, writes.over committed (.issued id) = committed (.issued id) := fun id => h.over_other (by simp)
  have ho : ∀ digest, writes.over committed (.opaqueToken digest) = committed (.opaqueToken digest) :=
    fun digest => h.over_other (by simp)
  simp [HasTokens, hi, ho]

end

/-- A redemption that ends keeps the code consumed, the grant revoked, and the tokens accounted for. -/
theorem Ending.commit (hwf : WellFormed committed) (h : Ending committed writes redeem now outcome audits) :
    WellFormed (writes.over committed) ∧ Extends committed (writes.over committed) := by
  have hbl : (∀ k, writes k = none) → WellFormed (writes.over committed) ∧ Extends committed (writes.over committed) := by
    intro h
    rw [over_of_blank h]
    exact ⟨hwf, fun _ => id, id⟩
  cases h with
  | consumed h =>
    have hg : writes.over committed .grant = committed .grant := over_of_none h.grant
    refine ⟨⟨?_, fun _ => ⟨now, h.consumed⟩⟩, fun instant hc => absurd hc (h.not_consumed instant), ?_⟩
    · rw [hg]
      exact hwf.grant
    · rintro ⟨grant, ho, hr⟩
      exact ⟨grant, hg.trans ho, hr⟩
  | reused _ h =>
    have hco : writes.over committed .code = committed .code := h.over_other (by simp)
    have hc : ∀ instant, Consumed committed instant → Consumed (writes.over committed) instant := by
      rintro instant ⟨code, ho, hc⟩
      exact ⟨code, hco.trans ho, hc⟩
    refine ⟨⟨⟨_, over_of_some h.grant⟩, fun ht => ?_⟩, hc, fun _ => h.revoked⟩
    obtain ⟨instant, ho⟩ := hwf.tokens (h.hasTokens_iff.mp ht)
    exact ⟨instant, hc instant ho⟩
  | reusedBefore _ h _ | retryWithinGrace h | invalid h => exact hbl h

/-- What is answered and recorded, and what it says of the rows before and after. -/
structure Effects (before after : Rows (Row I)) (outcomes : List RedeemOutcome) (audits : List AuditAction) : Prop where
  tokens : HasTokens after ↔ HasTokens before ∨ .consumed ∈ outcomes
  consumed : .consumed ∈ outcomes → (∀ instant, ¬ Consumed before instant) ∧ ∃ instant, Consumed after instant
  reused : .reused ∈ outcomes → Revoked after
  reuse : .authorizationCodeReuse ∈ audits → ¬ Revoked before ∧ Revoked after
  one_outcome : outcomes.length ≤ 1
  one_audit : audits.length ≤ 1

/-- Tokens come with the redemption that consumes the code, and a reuse with the revocation of the grant. -/
theorem Ending.effects (h : Ending committed writes redeem now outcome audits) :
    Effects committed (writes.over committed) [outcome] audits := by
  cases h with
  | consumed h =>
    exact ⟨⟨fun _ => .inr (by simp), fun _ => h.hasTokens⟩, fun _ => ⟨h.not_consumed, now, h.consumed⟩, by simp, by simp,
      le_rfl, le_rfl⟩
  | reused _ h =>
    exact ⟨by simp [h.hasTokens_iff], by simp, fun _ => h.revoked, fun _ => ⟨h.not_revoked, h.revoked⟩, le_rfl, le_rfl⟩
  | reusedBefore _ h hr =>
    rw [over_of_blank h]
    exact ⟨by simp, by simp, fun _ => hr, by simp, le_rfl, Nat.zero_le 1⟩
  | retryWithinGrace h | invalid h =>
    rw [over_of_blank h]
    exact ⟨by simp, by simp, by simp, by simp, le_rfl, Nat.zero_le 1⟩

/-- A redemption within the window leaves the grant alone. -/
theorem Ending.grant_of_within (h : Ending committed writes redeem now outcome audits) {i : ℤ}
    (hc : Consumed committed i) (hw : now ≤ i + redeem.reuseGrace) :
    writes.over committed .grant = committed .grant := by
  cases h with
  | consumed h => exact over_of_none h.grant
  | reused hl h =>
    obtain ⟨i2, ⟨code, hco, hi⟩, hlt⟩ := hl
    obtain ⟨c2, hc2, hi2⟩ := hc
    cases hco.symm.trans hc2
    cases hi.symm.trans hi2
    omega
  | reusedBefore _ h _ | retryWithinGrace h | invalid h => exact over_of_none (h .grant)

/-- What is asserted survives the commits of others. -/
theorem Ending.stable (he : Extends committed after) (hs : ∀ k, (writes k).isSome → after k = committed k)
    (h : Ending committed writes redeem now outcome audits) : Ending after writes redeem now outcome audits := by
  have hl2 : Late committed redeem now → Late after redeem now := by
    rintro ⟨i, hc, hlt⟩
    exact ⟨i, he.consumed i hc, hlt⟩
  cases h with
  | consumed h => exact .consumed { h with before := (hs .code (by rw [h.code]; rfl)).trans h.before }
  | reused hl h =>
    exact .reused (hl2 hl) { h with before := (hs .grant (by rw [h.grant]; rfl)).trans h.before }
  | reusedBefore hl h hr => exact .reusedBefore (hl2 hl) h (he.revoked hr)
  | retryWithinGrace h => exact .retryWithinGrace h
  | invalid h => exact .invalid h

theorem Asserted.stable {script : Script (Row I) (Control I)} (he : Extends committed after)
    (hs : ∀ k, (script.writes k).isSome → after k = committed k) (h : Asserted committed script) :
    Asserted after script := by
  obtain ⟨control, writes⟩ := script
  cases control with
  | consume | classify => exact h
  | record redeem now rest =>
    obtain ⟨row, done, h, hr⟩ := h
    exact ⟨row, done, { h with before := (hs .code (by rw [h.code]; rfl)).trans h.before }, hr⟩
  | revokeGrant redeem now =>
    obtain ⟨hbl, i, hc, hlt⟩ := h
    exact ⟨hbl, i, he.consumed i hc, hlt⟩
  | audit | commit => exact Ending.stable he hs h

end commits

theorem control_of_commit {c : Control I} (h : statement c = .commit) :
    ∃ redeem now outcome audits, c = .commit redeem now outcome audits := by
  cases c with
  | commit redeem now outcome audits => exact ⟨redeem, now, outcome, audits, rfl⟩
  | record redeem now rest => cases rest <;> cases h
  | _ => cases h

/-! ### Runs -/

variable [DecidableEq I]

theorem codeDiscipline : Discipline (codeProgram I) WellFormed Asserted Extends := by
  apply scriptDiscipline
  · intro committed request _ k
    rfl
  · intro committed scr hwf h
    exact asserted_next hwf scr h
  · intro committed scr hwf h hc
    obtain ⟨redeem, now, outcome, audits, hct⟩ := control_of_commit hc
    unfold Asserted at h
    rw [hct] at h
    exact h.commit hwf
  · intro committed after scr _ h he hs
    exact h.stable he hs

variable {T : Type} [Fintype T] [DecidableEq T]

/-- What holds of every state. -/
def Sound (db : CodeDatabase I T) : Prop := Kept (codeProgram I) WellFormed Asserted db

/-- What the transaction that a step commits has answered. -/
def outcomes (entry : Choice T (CodeRedeem I × ℤ) × Option (Script (Row I) (Control I))) : List RedeemOutcome :=
  match entry.2.map Script.control with
  | some (.commit _ _ outcome _) => [outcome]
  | _ => []

/-- The audit rows that a step commits. -/
def recorded (entry : Choice T (CodeRedeem I × ℤ) × Option (Script (Row I) (Control I))) : List AuditAction :=
  match entry.2.map Script.control with
  | some (.commit _ _ _ audits) => audits
  | _ => []

section step

variable {db : CodeDatabase I T}

variable (h : Sound db)

include h

/-- What a step commits, a redemption that ends has written. -/
theorem step_ending (c : Choice T (CodeRedeem I × ℤ)) :
    ((step (codeProgram I) db c).1 = none ∧ (step (codeProgram I) db c).2.committed = db.committed) ∨
    ∃ scr redeem now outcome audits, (step (codeProgram I) db c).1 = some scr ∧
      scr.control = .commit redeem now outcome audits ∧
      Ending db.committed scr.writes redeem now outcome audits ∧
        (step (codeProgram I) db c).2.committed = scr.writes.over db.committed := by
  obtain hs | ⟨t, scr, hsc, hc, ha, haf⟩ := step_committed (codeProgram I) db c
  · exact .inl hs
  · obtain ⟨redeem, now, outcome, audits, hct⟩ := control_of_commit (Statement.eq_commit hc)
    have has := h.running t scr hsc
    unfold Asserted at has
    rw [hct] at has
    exact .inr ⟨scr, redeem, now, outcome, audits, ha, hct, has, haf⟩

theorem sound_step (c : Choice T (CodeRedeem I × ℤ)) : Sound (step (codeProgram I) db c).2 :=
  discipline_step codeDiscipline h c

theorem extends_step (c : Choice T (CodeRedeem I × ℤ)) :
    Extends db.committed (step (codeProgram I) db c).2.committed :=
  guarantee_step codeDiscipline (fun _ => ⟨fun _ => id, id⟩) h c

theorem effects_step (c : Choice T (CodeRedeem I × ℤ)) :
    Effects db.committed (step (codeProgram I) db c).2.committed (outcomes (c, (step (codeProgram I) db c).1))
      (recorded (c, (step (codeProgram I) db c).1)) := by
  obtain ⟨hn, hs⟩ | ⟨scr, redeem, now, outcome, audits, ha, hc, he, haf⟩ := step_ending h c
  · rw [hn, hs]
    constructor <;> simp [outcomes, recorded]
  · have ho : outcomes (c, some scr) = [outcome] := by simp [outcomes, hc]
    have hr : recorded (c, some scr) = audits := by simp [recorded, hc]
    rw [ha, haf, ho, hr]
    exact he.effects

end step

/-- What is claimed of a code after a run, and of the step that comes next. -/
structure SpentOnce (code : Option CodeRow) (grant : GrantRow) (choices : List (Choice T (CodeRedeem I × ℤ))) : Prop where
  one_consumed : ((Machine.transcript (step (codeProgram I)) (presented I T code grant) choices).flatMap outcomes).count
    .consumed ≤ 1
  tokens_iff : HasTokens (Machine.run (step (codeProgram I)) (presented I T code grant) choices).committed ↔
    .consumed ∈ (Machine.transcript (step (codeProgram I)) (presented I T code grant) choices).flatMap outcomes
  retry_harmless : ∀ db, db = Machine.run (step (codeProgram I)) (presented I T code grant) choices →
    ∀ choice script redeem now outcome audits, (step (codeProgram I) db choice).1 = some script →
      script.control = .commit redeem now outcome audits → ∀ instant, Consumed db.committed instant →
        now ≤ instant + redeem.reuseGrace →
          (step (codeProgram I) db choice).2.committed .grant = db.committed .grant
  reused_revoked : .reused ∈ (Machine.transcript (step (codeProgram I)) (presented I T code grant) choices).flatMap outcomes →
    Revoked (Machine.run (step (codeProgram I)) (presented I T code grant) choices).committed
  one_reuse : ((Machine.transcript (step (codeProgram I)) (presented I T code grant) choices).flatMap recorded).count
    .authorizationCodeReuse ≤ 1

/-- **An authorization code is spent once**, in every interleaving of its redemptions. -/
theorem code_spent_once (code : Option CodeRow) (grant : GrantRow) (choices : List (Choice T (CodeRedeem I × ℤ))) :
    SpentOnce code grant choices := by
  have hst : Sound (presented I T code grant) := by
    refine ⟨⟨⟨grant, rfl⟩, ?_⟩, fun t scr hs => (by cases hs), fun t other scr s2 k hs => (by cases hs)⟩
    rintro (⟨id, hid⟩ | ⟨digest, hd⟩)
    · exact absurd rfl hid
    · exact absurd rfl hd
  have hte : ∀ (db : CodeDatabase I T) (cho : Choice T (CodeRedeem I × ℤ)),
      Sound db → Sound (step (codeProgram I) db cho).2 := fun _ cho h => sound_step h cho
  constructor
  · apply Machine.count_flatMap_le_one (I := Sound)
      (Q := fun db : CodeDatabase I T => ∀ ins, ¬ Consumed db.committed ins) hte _ _ _ hst
    · intro db cho h hco hfr
      simp only [not_forall, not_not] at hco
      obtain ⟨ins, hin⟩ := hco
      exact hfr ins ((extends_step h cho).consumed ins hin)
    · intro db cho h hmem
      obtain ⟨hfr, ins, hin⟩ := (effects_step h cho).consumed hmem
      exact ⟨hfr, fun hno => hno ins hin⟩
    · intro db cho h
      exact (List.count_le_length).trans (effects_step h cho).one_outcome
  · refine (Machine.run_iff_mem_flatMap (I := Sound) (Q := fun db : CodeDatabase I T => HasTokens db.committed) hte
      (fun _ cho h => (effects_step h cho).tokens) hst).trans (or_iff_right ?_)
    rintro (⟨id, hid⟩ | ⟨digest, hdi⟩)
    · exact hid rfl
    · exact hdi rfl
  · rintro db rfl cho scr redeem now outcome audits han hon ins hco hwi
    have hdb := discipline_run codeDiscipline hst choices
    obtain ⟨hno, -⟩ | ⟨scr2, red2, now2, out2, aud2, han2, hco2, hen, haf⟩ :=
      step_ending hdb cho
    · rw [hno] at han
      cases han
    · cases han.symm.trans han2
      cases hon.symm.trans hco2
      rw [haf]
      exact hen.grant_of_within hco hwi
  · intro hmem
    obtain ⟨entry, hnt, heu⟩ := List.mem_flatMap.mp hmem
    exact Machine.run_of_mem_transcript (I := Sound) (Q := fun db : CodeDatabase I T => Revoked db.committed)
      (p := fun entry => .reused ∈ outcomes entry) hte (fun _ cho h => (extends_step h cho).revoked)
      (fun _ cho h => (effects_step h cho).reused) hst hnt heu
  · apply Machine.count_flatMap_le_one (I := Sound) (Q := fun db : CodeDatabase I T => ¬ Revoked db.committed) hte _ _ _
      hst
    · intro db cho h hre
      exact not_not.mpr ((extends_step h cho).revoked (not_not.mp hre))
    · intro db cho h hmem
      obtain ⟨hbe, haf⟩ := (effects_step h cho).reuse hmem
      exact ⟨hbe, not_not.mpr haf⟩
    · intro db cho h
      exact (List.count_le_length).trans (effects_step h cho).one_audit

end IronAuth.Store.Codes
