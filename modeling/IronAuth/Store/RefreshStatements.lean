import IronAuth.Store.RefreshChain

/-!
# Statements on a family

What a transaction on a family of refresh tokens may rely on before each of its statements, and
that the statement leaves the next one what it relies on.
-/

namespace IronAuth.Store

open Lib.ReadCommitted Lib Option Function

variable {I : Type}

/-! ### Assertions -/

/-- The presented token was rotated, and the grace window was over at the reading of the clock. -/
def Late (rows : Rows (Row I)) (redeem : RefreshRedeem I) (now : ℤ) : Prop :=
  ∃ token rotatedAt, rows (.token redeem.presented) = some token ∧ token.rotatedAt = some rotatedAt ∧
    rotatedAt + redeem.grace.secs * 1000000 ≤ now

theorem Late.mono {pre a : Rows (Row I)} (h : Extends pre a) {redeem : RefreshRedeem I} {now : ℤ}
    (hl : Late pre redeem now) : Late a redeem now := by
  obtain ⟨token, rotatedAt, ht, hr, hle⟩ := hl
  obtain ⟨t2, ht2, -, hs⟩ := h.token _ token ht
  obtain rfl := hs (by rw [hr]; exact some_ne_none rotatedAt)
  exact ⟨t2, rotatedAt, ht2, hr, hle⟩

/-- What a transaction has written and recorded when it answers. -/
inductive Ending (committed writes : Rows (Row I)) : List I → List AuditAction → Answer I → Prop
  | opened {row : FamilyRow} {digest : I} {leaf : TokenRow I} {audits : List AuditAction}
      (h : Opened committed writes row digest leaf) (haudits : .refreshTokenReuse ∉ audits) :
      Ending committed writes [digest] audits .opened
  | rotated {redeem : RefreshRedeem I} {now : ℤ} {leaf : TokenRow I} {audits : List AuditAction}
      (h : Succeeded committed writes redeem now leaf) (haudits : .refreshTokenReuse ∉ audits) :
      Ending committed writes [redeem.successor.tokenDigest] audits (.redeemed redeem now .rotated)
  | reused {redeem : RefreshRedeem I} {now : ℤ} {old new : FamilyRow} {audits : List AuditAction}
      (hlate : Late committed redeem now) (h : Revoked committed writes old new)
      (haudits : audits.count .refreshTokenReuse ≤ 1) : Ending committed writes [] audits (.redeemed redeem now .reused)
  | reusedBefore {redeem : RefreshRedeem I} {now : ℤ} {audits : List AuditAction} (hlate : Late committed redeem now)
      (h : Untouched writes) (hrevoked : FamilyRevoked committed) (haudits : .refreshTokenReuse ∉ audits) :
      Ending committed writes [] audits (.redeemed redeem now .reused)
  | untouched {answer : Answer I} {audits : List AuditAction} (h : Untouched writes)
      (hanswer : ∀ redeem now, answer ≠ .redeemed redeem now .reused) (haudits : .refreshTokenReuse ∉ audits) :
      Ending committed writes [] audits answer
  | revoked {answer : Answer I} {old new : FamilyRow} {audits : List AuditAction} (h : Revoked committed writes old new)
      (hanswer : ∀ redeem now outcome, answer ≠ .redeemed redeem now outcome) (haudits : .refreshTokenReuse ∉ audits) :
      Ending committed writes [] audits answer

/-- The transaction has recorded nothing yet. -/
structure Silent (tx : Tx I) : Prop where
  audits : .refreshTokenReuse ∉ tx.audits
  minted : tx.minted = []

/-- The family was revoked by the transaction, or left alone. -/
def MayHaveRevoked (committed : Rows (Row I)) (tx : Tx I) : Prop :=
  Untouched tx.writes ∨ ∃ old new, Revoked committed tx.writes old new

/-- What is asserted of a transaction before its next statement. -/
def Asserted (committed : Rows (Row I)) (tx : Tx I) : Prop :=
  match tx.stage with
  | .firstToken _ => Silent tx ∧ ∃ row, Opening committed tx.writes row
  | .consume redeem _ jti =>
    Silent tx ∧ Untouched tx.writes ∧ ∃ token, committed (.token redeem.presented) = some token ∧ token.jti = jti
  | .insertSuccessor redeem now jti => Silent tx ∧ ∃ leaf, Rotating committed tx.writes redeem now leaf ∧ leaf.jti = jti
  | .reread redeem _ => Silent tx ∧ Untouched tx.writes ∧ Superseded committed redeem.presented
  | .recordAccess redeem now outcome _ =>
    Ending committed tx.writes tx.minted (tx.audits ++ [outcome.auditAction]) (.redeemed redeem now outcome.outcome)
  | .revokeReused redeem now =>
    Silent tx ∧ Untouched tx.writes ∧ Late committed redeem now ∧ ∃ family, committed .family = some family
  | .revokeGrant _ _ => Silent tx ∧ MayHaveRevoked committed tx
  | .revokeSessionFamilies _ _ _ => Silent tx ∧ Untouched tx.writes
  | .revokeSessionGrants _ _ => Silent tx ∧ MayHaveRevoked committed tx
  | .audit action answer => Ending committed tx.writes tx.minted (tx.audits ++ [action]) answer
  | .commit answer => Ending committed tx.writes tx.minted tx.audits answer
  | _ => Silent tx ∧ Untouched tx.writes

/-! ### Statements -/

section statements

variable {committed : Rows (Row I)} {tx tx2 : Tx I} {locked : Key I → Bool}

theorem Silent.to (h : Silent tx) (stage : Stage I) : Silent (tx.to stage) := ⟨h.audits, h.minted⟩

theorem Untouched.over_family (h : Untouched tx.writes) : tx.writes.over committed .family = committed .family :=
  over_of_none h.family

variable {audits : List AuditAction}

theorem notMem_append_singleton {a : AuditAction} (h : .refreshTokenReuse ∉ audits)
    (hne : a ≠ .refreshTokenReuse) : .refreshTokenReuse ∉ audits ++ [a] := by
  simp only [List.mem_append, List.mem_singleton, not_or]
  exact ⟨h, hne.symm⟩

variable {answer : Answer I} {old : FamilyRow} {token : TokenRow I} {stage : Stage I} {hk : Bool}
   {k : Key I}

/-- A transaction that may have revoked the family ends so. -/
theorem MayHaveRevoked.ending (h : MayHaveRevoked committed tx) (hs : Silent tx)
    (ha : .refreshTokenReuse ∉ audits) (han : ∀ redeem now outcome, answer ≠ .redeemed redeem now outcome) :
    Ending committed tx.writes tx.minted audits answer := by
  rw [hs.minted]
  obtain h | ⟨old, new, h⟩ := h
  · exact .untouched h (fun redeem now => han redeem now .reused) ha
  · exact .revoked h han ha

/-- A transaction that has written nothing of the chain ends so. -/
theorem Untouched.ending (h : Untouched tx.writes) (hs : Silent tx)
    (ha : .refreshTokenReuse ∉ audits) (han : ∀ redeem now, answer ≠ .redeemed redeem now .reused) :
    Ending committed tx.writes tx.minted audits answer := by
  rw [hs.minted]
  exact .untouched h han ha

/-! #### What is read -/

variable {family : NewRefreshFamily I} {redeem : RefreshRedeem I} {now : ℤ} {flipped : Bool} {rows : Rows (Row I)}

theorem late_of_not_lt {r : ℤ} (h : ¬ saturatingSub now r < redeem.grace.micros) :
    r + redeem.grace.secs * 1000000 ≤ now := by
  have hm : redeem.grace.secs ≤ 86400 := redeem.grace.le_max
  unfold saturatingSub Grace.micros i64Max at h
  omega

/-- Everything that a redemption can decide from what it reads. -/
theorem decideRedeem_cases (rows : Rows (Row I)) (redeem : RefreshRedeem I) (now : ℤ) (token : TokenRow I)
    (family : FamilyRow) (g : GrantRow) :
    decideRedeem rows redeem now token family g = .commit (.redeemed redeem now .invalid) ∨
      sessionLive rows family.offline family.hasSession now = true ∧
        ((∃ rotatedAt, token.rotatedAt = some rotatedAt ∧
            decideRedeem rows redeem now token family g = classifySuperseded redeem now rotatedAt) ∨
          decideRedeem rows redeem now token family g = .consume redeem now token.jti ∨
          decideRedeem rows redeem now token family g = .recordAccess redeem now .notRotated redeem.access) := by
  by_cases hr : family.revokedAt.isSome ∨ g.revokedAt.isSome
  · exact .inl (if_pos hr)
  by_cases hs : sessionLive rows family.offline family.hasSession now
  · by_cases he : token.idleExpiresAt ≤ now ∨ family.absoluteExpiresAt ≤ now
    · exact .inl (by rw [decideRedeem, if_neg hr, if_neg (not_not.mpr hs), if_pos he])
    · refine .inr ⟨hs, ?_⟩
      rw [decideRedeem, if_neg hr, if_neg (not_not.mpr hs), if_neg he]
      cases token.rotatedAt with
      | some rotatedAt => exact .inl ⟨rotatedAt, rfl, rfl⟩
      | none =>
        cases redeem.rotate with
        | true => exact .inr (.inl rfl)
        | false => exact .inr (.inr rfl)
  · exact .inl (by rw [decideRedeem, if_neg hr, if_pos hs])

/-- The `SELECT` of `redeem` finds nothing to redeem, or decides from what it finds. -/
theorem readToken_eq_next (h : readToken rows tx redeem now = .next tx2) :
    tx2 = tx.to (.commit (.redeemed redeem now .invalid)) ∨
      ∃ token family grant, rows (.token redeem.presented) = some token ∧ rows .family = some family ∧
        tx2 = tx.to (decideRedeem rows redeem now token family grant) := by
  unfold readToken at h
  split at h
  · rename_i token family grant ht hf _
    cases h
    exact .inr ⟨token, family, grant, ht, hf, rfl⟩
  · cases h
    exact .inl rfl

section

variable (hs : Silent tx)

include hs

theorem asserted_afterFamilies (h : MayHaveRevoked committed tx)
    (hst : tx.stage = afterFamilies now hk flipped) : Asserted committed tx := by
  unfold Asserted
  rw [hst]
  cases hk with
  | true => exact ⟨hs, h⟩
  | false => exact h.ending hs (notMem_append_singleton hs.audits (by decide)) (by simp)

variable (h : Untouched tx.writes)

include h

/-- The classification of a token that was rotated. -/
theorem asserted_classify (hwf : WellFormed committed) {r : ℤ}
    (ht : committed (.token redeem.presented) = some token)
    (hr : token.rotatedAt = some r) :
    Asserted committed (tx.to (classifySuperseded redeem now r)) := by
  unfold classifySuperseded
  split_ifs with hg
  · exact h.ending hs (notMem_append_singleton hs.audits (by decide)) (by simp [AccessOutcome.outcome])
  · exact ⟨hs.to _, h, ⟨token, r, ht, hr, late_of_not_lt hg⟩, hwf.has_family _ token ht⟩

theorem asserted_readToken (hwf : WellFormed committed)
    (hn : readToken (tx.writes.over committed) tx redeem now = .next tx2) : Asserted committed tx2 := by
  have hi : Asserted committed (tx.to (.commit (.redeemed redeem now .invalid))) := h.ending hs hs.audits (by simp)
  obtain rfl | ⟨token, family, grant, ht, -, rfl⟩ := readToken_eq_next hn
  · exact hi
  rw [h.over_token] at ht
  obtain heq | ⟨-, ⟨rotatedAt, hr, heq⟩ | heq | heq⟩ :=
    decideRedeem_cases (tx.writes.over committed) redeem now token family grant
  · rw [heq]
    exact hi
  · rw [heq]
    exact asserted_classify hs h hwf ht hr
  · rw [heq]
    exact ⟨hs.to _, h, token, ht, rfl⟩
  · rw [heq]
    exact h.ending hs (notMem_append_singleton hs.audits (by decide)) (by simp [AccessOutcome.outcome])

theorem asserted_reread (hwf : WellFormed committed)
    (hsu : Superseded committed redeem.presented)
    (hn : reread (tx.writes.over committed) tx redeem now = .next tx2) : Asserted committed tx2 := by
  obtain ⟨token, ht, hro⟩ := hsu
  obtain ⟨rotatedAt, ho⟩ := ne_none_iff_exists'.mp hro
  have hr : ((tx.writes.over committed (.token redeem.presented)).bind TokenRow.rotatedAt).getD now = rotatedAt := by
    rw [h.over_token, ht]
    show token.rotatedAt.getD now = rotatedAt
    rw [ho]
    rfl
  unfold reread at hn
  rw [hr] at hn
  cases hn
  exact asserted_classify hs h hwf ht ho

end

variable [DecidableEq I]

section write

variable {k k2 : Key I} (row : Row I k) (stage : Stage I)

theorem writes_write : (tx.write k row stage).writes k = some row := update_self ..

theorem writes_write_of_ne (h : k2 ≠ k) : (tx.write k row stage).writes k2 = tx.writes k2 := update_of_ne h ..

theorem Silent.write (h : Silent tx) : Silent (tx.write k row stage) := ⟨h.audits, h.minted⟩

theorem TokensKept.write (h : TokensKept tx.writes) (ht : ∀ digest, .token digest ≠ k) (hj : ∀ jti, .jti jti ≠ k) :
    TokensKept (tx.write k row stage).writes := by
  constructor
  · intro digest
    rw [writes_write_of_ne row stage (ht digest), h.token]
  · intro jti
    rw [writes_write_of_ne row stage (hj jti), h.jti]

/-- A write of a session or a grant does not concern the chain. -/
theorem Untouched.write (h : Untouched tx.writes) (ht : ∀ digest, .token digest ≠ k) (hj : ∀ jti, .jti jti ≠ k)
    (hf : .family ≠ k) : Untouched (tx.write k row stage).writes := by
  refine ⟨h.toTokensKept.write row stage ht hj, ?_⟩
  rw [writes_write_of_ne row stage hf, h.family]

end write

/-- A revocation of the family. -/
theorem Untouched.revoke (h : Untouched tx.writes) {new : FamilyRow} (stage : Stage I)
    (hold : tx.writes.over committed .family = some old) (hl : old.revokedAt.isNone)
    (hs : new.hasSession = old.hasSession) (ho : new.offline = old.offline) (hn : new.revokedAt ≠ none) :
    Revoked committed (tx.write .family new stage).writes old new where
  toTokensKept := h.toTokensKept.write (k := .family) new stage (by simp) (by simp)
  before := h.over_family.symm.trans hold
  live := isNone_iff_eq_none.mp hl
  family := writes_write (k := .family) new stage
  hasSession := hs
  offline := ho
  revoked := hn

theorem Untouched.mayHaveRevoked (h : Untouched tx.writes) (now : ℤ) (stage : Stage I)
    (ho : tx.writes.over committed .family = some old) (hl : old.revokedAt.isNone) :
    MayHaveRevoked committed (tx.write .family (old.revoke now) stage) :=
  .inr ⟨old, old.revoke now, h.revoke stage ho hl rfl rfl (some_ne_none now)⟩

theorem MayHaveRevoked.write_grant (h : MayHaveRevoked committed tx) (row : GrantRow) (stage : Stage I) :
    MayHaveRevoked committed (tx.write .grant row stage) := by
  obtain h | ⟨old, new, h⟩ := h
  · exact .inl (h.write (k := .grant) row stage (by simp) (by simp) (by simp))
  · refine .inr ⟨old, new, h.toTokensKept.write (k := .grant) row stage (by simp) (by simp), h.before, h.live, ?_,
      h.hasSession, h.offline, h.revoked⟩
    have hf : (tx.write .grant row stage).writes .family = tx.writes .family :=
      writes_write_of_ne (k := .grant) row stage (by simp)
    exact hf.trans h.family

section mint

variable (digest : I) (token : TokenRow I) (stage : Stage I)

theorem mint_token : (tx.mint digest token stage).writes (.token digest) = some token := by
  have hne : Key.token digest ≠ .jti token.jti := by simp
  simp only [Tx.mint, update_of_ne hne, update_self]

theorem mint_jti : (tx.mint digest token stage).writes (.jti token.jti) = some digest := update_self ..

theorem mint_of_ne {k : Key I} (h : k ≠ .token digest) (h2 : k ≠ .jti token.jti) :
    (tx.mint digest token stage).writes k = tx.writes k := by
  simp [Tx.mint, update_of_ne h2, update_of_ne h]

theorem mint_other {o : I} (h : o ≠ digest) :
    (tx.mint digest token stage).writes (.token o) = tx.writes (.token o) :=
  mint_of_ne digest token stage (by simpa using h) (by simp)

theorem mint_other_jti {jti : I} (h : jti ≠ token.jti) :
    (tx.mint digest token stage).writes (.jti jti) = tx.writes (.jti jti) :=
  mint_of_ne digest token stage (by simp) (by simpa using h)

theorem mint_family : (tx.mint digest token stage).writes .family = tx.writes .family :=
  mint_of_ne digest token stage (by simp) (by simp)

end mint

theorem insertToken_eq_next {digest : I}
    (h : insertToken locked rows tx digest token stage = .next tx2) :
    (locked (.token digest) = false ∧ locked (.jti token.jti) = false) ∧
      rows (.token digest) = none ∧ rows (.jti token.jti) = none ∧ tx2 = tx.mint digest token stage := by
  obtain ⟨hl, hn, h⟩ := insertUnique_eq_next h
  obtain ⟨hl2, hn2, h⟩ := insertUnique_eq_next h
  split_ifs at h
  cases h
  exact ⟨⟨hl, hl2⟩, hn, hn2, rfl⟩

/-! #### What is written -/

section

variable (hs : Silent tx)

include hs

theorem asserted_firstToken {row : FamilyRow} (h : Opening committed tx.writes row)
    (hn : firstToken locked (tx.writes.over committed) tx family = .next tx2) : Asserted committed tx2 := by
  obtain ⟨-, hno, hn2, rfl⟩ := insertToken_eq_next hn
  show Ending committed _ (tx.minted ++ [family.tokenDigest]) (tx.audits ++ [.refreshTokenIssue]) .opened
  rw [hs.minted]
  refine .opened ⟨h.before, (mint_family ..).trans h.family, h.live, (over_eq_none_iff.mp hno).2,
    (over_eq_none_iff.mp hn2).2, mint_token .., mint_jti .., rfl, rfl, ?_, ?_⟩ (notMem_append_singleton hs.audits (by decide))
  · intro other ho
    rw [mint_other _ _ _ ho, h.token]
  · intro jti hj
    rw [mint_other_jti _ _ _ hj, h.jti]

theorem asserted_insertSuccessor {l : TokenRow I}
    (h : Rotating committed tx.writes redeem now l)
    (hn : insertSuccessor locked (tx.writes.over committed) tx redeem now l.jti = .next tx2) :
    Asserted committed tx2 := by
  obtain ⟨-, hno, hn2, rfl⟩ := insertToken_eq_next hn
  obtain ⟨hu, hfr⟩ := over_eq_none_iff.mp hno
  have hne : redeem.presented ≠ redeem.successor.tokenDigest := by
    intro heq
    rw [← heq, h.presented] at hu
    cases hu
  show Ending committed _ (tx.minted ++ [redeem.successor.tokenDigest]) (tx.audits ++ [.refreshTokenRotate])
    (.redeemed redeem now .rotated)
  rw [hs.minted]
  refine .rotated ⟨h.before, h.live, hfr, (over_eq_none_iff.mp hn2).2, (mint_other _ _ _ hne).trans h.presented,
    mint_token .., mint_jti .., ?_, ?_, (mint_family ..).trans h.family⟩ (notMem_append_singleton hs.audits (by decide))
  · intro digest hd hd2
    rw [mint_other _ _ _ hd2, h.other digest hd]
  · intro jti hj
    rw [mint_other_jti _ _ _ hj, h.jti]

section

variable (h : Untouched tx.writes)

include h

theorem asserted_openFamily
    (hn : openFamily locked (tx.writes.over committed) tx family now = .next tx2) : Asserted committed tx2 := by
  unfold openFamily at hn
  split at hn
  · cases hn
    exact h.ending hs hs.audits (by simp)
  · split_ifs at hn
    · obtain ⟨-, hno, hh⟩ := insertUnique_eq_next hn
      cases hh
      rw [h.over_family] at hno
      exact ⟨hs.write (k := .family) _ _, _, h.toTokensKept.write (k := .family) _ _ (by simp) (by simp), hno,
        writes_write (k := .family) _ _, rfl⟩
    · cases hn
      exact h.ending hs hs.audits (by simp)

theorem asserted_consume {jti : I}
    (ht : committed (.token redeem.presented) = some token) (hj : token.jti = jti)
    (hn : consume locked (tx.writes.over committed) tx redeem now jti = .next tx2) : Asserted committed tx2 := by
  refine guardedUpdate_next hn (fun _ leaf hl hli => ?_) fun hmi => ?_
  · rw [h.over_token] at hl
    cases ht.symm.trans hl
    have ho : ∀ k, k ≠ .token redeem.presented → (tx.write (.token redeem.presented)
        (token.rotate redeem now) (.insertSuccessor redeem now jti)).writes k = tx.writes k :=
      fun k hk => writes_write_of_ne _ _ hk
    refine ⟨hs.write (k := .token redeem.presented) _ _, token,
      ⟨ht, isNone_iff_eq_none.mp hli, writes_write (k := .token redeem.presented) _ _, ?_, ?_, ?_⟩, hj⟩
    · intro digest hd
      exact (ho _ (by simpa using hd)).trans (h.token digest)
    · intro jti
      exact (ho _ (by simp)).trans (h.jti jti)
    · exact (ho _ (by simp)).trans h.family
  · -- the row is there, so it was rotated in the meantime
    have hr := hmi token ((h.over_token _).trans ht)
    refine ⟨hs.to _, h, token, ht, ?_⟩
    rwa [Ne, ← isNone_iff_eq_none, Bool.not_eq_true]

theorem asserted_revokeReused (hl : Late committed redeem now)
    {family : FamilyRow} (hf : committed .family = some family)
    (hn : revokeReused locked (tx.writes.over committed) tx redeem now = .next tx2) : Asserted committed tx2 := by
  refine guardedUpdate_next hn (fun _ old ho hli => ?_) fun hmi => ?_
  · show Ending committed _ tx.minted (tx.audits ++ [.refreshTokenReuse]) (.redeemed redeem now .reused)
    rw [hs.minted]
    refine .reused hl (h.revoke _ ho hli rfl rfl (some_ne_none now)) ?_
    rw [List.count_append, List.count_eq_zero.mpr hs.audits]
    decide
  · have hr := hmi family (h.over_family.trans hf)
    show Ending committed tx.writes tx.minted tx.audits (.redeemed redeem now .reused)
    rw [hs.minted]
    refine .reusedBefore hl h ⟨family, hf, ?_⟩ hs.audits
    rwa [Ne, ← isNone_iff_eq_none, Bool.not_eq_true]

end

end

/-! ### The discipline -/

/-- Each statement keeps what is asserted of its transaction. -/
theorem asserted_next (hwf : WellFormed committed) (h : Asserted committed tx)
    (hn : nextStatement locked committed tx = .next tx2) : Asserted committed tx2 := by
  obtain ⟨stage, writes, audits, access, minted⟩ := tx
  cases stage with
  | readGrant family now =>
    obtain ⟨hs, h⟩ := h
    cases hn
    split_ifs
    · exact ⟨hs.to _, h⟩
    · exact ⟨hs.to _, h⟩
  | lockSession family now =>
    obtain ⟨hs, h⟩ := h
    refine guardedUpdate_next hn (fun _ session _ _ => ⟨hs.write (k := .session) session _, ?_⟩) fun _ => ?_
    · exact h.write (k := .session) session _ (by simp) (by simp) (by simp)
    · exact h.ending hs hs.audits (by simp)
  | openFamily family now => exact asserted_openFamily h.1 h.2 hn
  | firstToken family =>
    obtain ⟨hs, row, h⟩ := h
    exact asserted_firstToken hs h hn
  | readToken redeem now => exact asserted_readToken h.1 h.2 hwf hn
  | consume redeem now jti =>
    obtain ⟨hs, h, token, ht, hj⟩ := h
    exact asserted_consume hs h ht hj hn
  | insertSuccessor redeem now jti =>
    obtain ⟨hs, leaf, h, rfl⟩ := h
    exact asserted_insertSuccessor hs h hn
  | reread redeem now => exact asserted_reread h.1 h.2.1 hwf h.2.2 hn
  | recordAccess redeem now outcome rest =>
    cases rest with
    | nil | cons =>
      cases hn
      exact h
  | revokeReused redeem now =>
    obtain ⟨hs, h, hl, family, hf⟩ := h
    exact asserted_revokeReused hs h hl hf hn
  | revokeFamily now =>
    obtain ⟨hs, h⟩ := h
    exact guardedUpdate_next hn (fun _ _ ho hl => ⟨hs.write (k := .family) _ _, h.mayHaveRevoked now _ ho hl⟩)
      fun _ => ⟨hs.to _, .inl h⟩
  | revokeGrant now flipped =>
    obtain ⟨hs, h⟩ := h
    have ha := notMem_append_singleton hs.audits (show AuditAction.refreshFamilyRevoke ≠ .refreshTokenReuse by decide)
    refine guardedUpdate_next hn (fun _ _ _ _ => ?_) fun _ => ?_
    · exact (h.write_grant _ _).ending (hs.write (k := .grant) _ _) ha (by simp)
    · cases flipped with
      | true => exact h.ending hs ha (by simp)
      | false => exact h.ending hs hs.audits (by simp)
  | revokeSessionBound now =>
    obtain ⟨hs, h⟩ := h
    have ha := notMem_append_singleton hs.audits (show AuditAction.refreshFamilyRevoke ≠ .refreshTokenReuse by decide)
    refine guardedUpdate_next hn (fun _ old ho hg => ?_) fun _ => h.ending hs ha (by simp)
    have hl : old.revokedAt.isNone := (Bool.and_eq_true_iff.mp hg).2
    exact (h.mayHaveRevoked now _ ho hl).ending (hs.write (k := .family) _ _) ha (by simp)
  | revokeSession now hk =>
    obtain ⟨hs, h⟩ := h
    refine guardedUpdate_next hn (fun _ _ _ _ => ⟨hs.write (k := .session) _ _, ?_⟩) fun _ => ⟨hs.to _, h⟩
    exact h.write (k := .session) _ _ (by simp) (by simp) (by simp)
  | revokeSessionFamilies now hk flipped =>
    obtain ⟨hs, h⟩ := h
    refine guardedUpdate_next hn (fun _ old ho hg => ?_) fun _ => asserted_afterFamilies (hs.to _) (.inl h) rfl
    have hl : old.revokedAt.isNone := (Bool.and_eq_true_iff.mp (Bool.and_eq_true_iff.mp hg).1).2
    exact asserted_afterFamilies (hs.write (k := .family) _ _) (h.mayHaveRevoked now _ ho hl) rfl
  | revokeSessionGrants now flipped =>
    obtain ⟨hs, h⟩ := h
    have ha := notMem_append_singleton hs.audits (show AuditAction.sessionRevoke ≠ .refreshTokenReuse by decide)
    exact guardedUpdate_next hn (fun _ _ _ _ => (h.write_grant _ _).ending (hs.write (k := .grant) _ _) ha (by simp))
      fun _ => h.ending hs ha (by simp)
  | audit action answer =>
    cases hn
    exact h
  | commit answer => cases hn

/-- Each transaction ends with an answer. -/
theorem stage_of_commit (h : nextStatement locked committed tx = .commit) : ∃ answer, tx.stage = .commit answer := by
  obtain ⟨stage, writes, audits, access, minted⟩ := tx
  have hu : ∀ {k : Key I} {g : Row I k → Bool} {rows : Rows (Row I)} {hit : Row I k → Tx I} {m : Tx I},
      guardedUpdate locked rows k g (fun row => .next (hit row)) (.next m) ≠ .commit :=
    guardedUpdate_ne_commit (fun row => by simp) (by simp)
  have hi : ∀ {rows : Rows (Row I)} {digest : I} {token : TokenRow I} {stage : Stage I} {tx : Tx I},
      insertToken locked rows tx digest token stage ≠ .commit := by
    intro rows digest token stage tx
    refine insertUnique_ne_commit (insertUnique_ne_commit ?_)
    split_ifs
    · simp
    · simp
  cases stage with
  | readGrant | reread | audit => cases h
  | lockSession | consume | revokeReused | revokeFamily | revokeGrant | revokeSessionBound | revokeSession
  | revokeSessionFamilies | revokeSessionGrants => exact absurd h hu
  | openFamily family now =>
    unfold nextStatement openFamily at h
    dsimp only at h
    split at h
    · cases h
    · split_ifs at h
      exact absurd h (insertUnique_ne_commit (by simp))
  | firstToken | insertSuccessor => exact absurd h hi
  | readToken redeem now =>
    unfold nextStatement readToken at h
    dsimp only at h
    split at h
    · cases h
    · cases h
  | recordAccess redeem now outcome rest =>
    cases rest with
    | nil | cons => cases h
  | commit answer => exact ⟨answer, rfl⟩

/-! #### What a statement takes -/

theorem held_write {k2 : Key I} {row : Row I k} (h : ((tx.write k row stage).writes k2).isSome) :
    (tx.writes k2).isSome ∨ k2 = k := by
  by_cases hk : k2 = k
  · exact .inr hk
  · rw [writes_write_of_ne row stage hk] at h
    exact .inl h

/-- The insertion of a token takes its row and its entry in the index. -/
theorem held_insertToken {digest : I}
    (hn : insertToken locked rows tx digest token stage = .next tx2) (h : (tx2.writes k).isSome) :
    (tx.writes k).isSome ∨ locked k = false := by
  obtain ⟨⟨hf, hf2⟩, -, -, rfl⟩ := insertToken_eq_next hn
  by_cases ht : k = .token digest
  · exact .inr (ht ▸ hf)
  by_cases hj : k = .jti token.jti
  · exact .inr (hj ▸ hf2)
  rw [mint_of_ne digest token stage ht hj] at h
  exact .inl h

/-- A statement takes only rows that it finds free. -/
theorem held_next (hn : nextStatement locked committed tx = .next tx2) (h : (tx2.writes k).isSome) :
    (tx.writes k).isSome ∨ locked k = false := by
  obtain ⟨stage, writes, audits, access, minted⟩ := tx
  cases stage with
  | readGrant | reread | audit =>
    cases hn
    exact .inl h
  | lockSession family now | consume redeem now jti | revokeReused redeem now
  | revokeFamily now | revokeGrant now flipped | revokeSessionBound now
  | revokeSession now hk | revokeSessionFamilies now hk flipped
  | revokeSessionGrants now flipped =>
    obtain ⟨hf, ⟨row, -, -, hh⟩ | ⟨-, hm⟩⟩ := guardedUpdate_eq_next hn
    · cases hh
      obtain hb | rfl := held_write h
      · exact .inl hb
      · exact .inr hf
    · cases hm
      exact .inl h
  | openFamily family now =>
    unfold nextStatement openFamily at hn
    dsimp only at hn
    split at hn
    · cases hn
      exact .inl h
    · split_ifs at hn
      · obtain ⟨hf, -, hh⟩ := insertUnique_eq_next hn
        cases hh
        obtain hb | rfl := held_write h
        · exact .inl hb
        · exact .inr hf
      · cases hn
        exact .inl h
  | firstToken family | insertSuccessor redeem now jti => exact held_insertToken hn h
  | readToken redeem now =>
    obtain rfl | ⟨token, family, grant, -, -, rfl⟩ := readToken_eq_next hn
    · exact .inl h
    · exact .inl h
  | recordAccess redeem now outcome rest =>
    cases rest with
    | nil | cons =>
      cases hn
      exact .inl h
  | commit answer => cases hn

end statements

end IronAuth.Store
