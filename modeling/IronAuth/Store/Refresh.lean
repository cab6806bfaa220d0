import IronAuth.Lib.ReadCommitted
import IronAuth.Store.Clock

/-!
# Refresh-token families

The transactions on one family of refresh tokens: `issue` opens it, `redeem` rotates its leaf or
classifies the presentation of a token that was rotated before, and the revocations of the family
and of its session end it. Each is a sequence of SQL statements under READ COMMITTED.

The rows are those of one family: its own, its grant's, its session's, and its tokens', by the
digest under which a token is stored. The unique index on `jti` has an entry for each token. Rows
and columns that these statements do not look at are left out, and so are statements on other
tables, except that the access tokens which a redemption records are kept. A statement may fail at
any time, and then the transaction is rolled back.

All times are microseconds of the application's clock, read once for each transaction.
-/

namespace IronAuth.Store

open Lib.ReadCommitted

/-! ### Rows -/

/-- A row of `sessions`. -/
structure SessionRow where
  revokedAt : Option ℤ
  endedAt : Option ℤ
  superseded : Bool
  absoluteExpiresAt : Option ℤ
  expiresAt : ℤ
  idleExpiresAt : Option ℤ

/-- The predicate of a live session. -/
def SessionRow.live (session : SessionRow) (now : ℤ) : Bool :=
  session.revokedAt.isNone && session.endedAt.isNone && !session.superseded &&
    decide (now < session.absoluteExpiresAt.getD session.expiresAt) &&
    session.idleExpiresAt.all fun idle => decide (now < idle)

/-- A row of `grants`. -/
structure GrantRow where
  hasSession : Bool
  revokedAt : Option ℤ

/-- A row of `refresh_families`. -/
structure FamilyRow where
  hasSession : Bool
  offline : Bool
  createdAt : ℤ
  absoluteExpiresAt : ℤ
  revokedAt : Option ℤ
  reuseDetectedAt : Option ℤ

/-- A row of `refresh_tokens`. -/
structure TokenRow (I : Type) where
  jti : I
  generation : ℤ
  predecessorJti : Option I
  issuedAt : ℤ
  idleExpiresAt : ℤ
  rotatedAt : Option ℤ
  successorJti : Option I

/-- The keys of the rows. -/
inductive Key (I : Type) where
  | session
  | grant
  | family
  | token (digest : I)
  | jti (jti : I)
  deriving DecidableEq

/-- What stands under a key; under a `jti`, the digest of the token that has it. -/
abbrev Row (I : Type) : Key I → Type
  | .session => SessionRow
  | .grant => GrantRow
  | .family => FamilyRow
  | .token _ => TokenRow I
  | .jti _ => I

/-! ### Requests -/

/-- `NewRefreshFamily`. -/
structure NewRefreshFamily (I : Type) where
  tokenJti : I
  tokenDigest : I
  offline : Bool
  createdAt : ℤ
  idleExpiresAt : ℤ
  absoluteExpiresAt : ℤ

/-- `RotatedRefreshToken`. -/
structure RotatedRefreshToken (I : Type) where
  jti : I
  tokenDigest : I
  generation : ℤ
  idleExpiresAt : ℤ

/-- `OIDC_MAX_LIFETIME_SECS`. -/
def oidcMaxLifetimeSecs : ℕ := 86400

/-- `refresh_rotation_grace_secs`, which a valid configuration bounds. -/
structure Grace where
  secs : ℕ
  le_max : secs ≤ oidcMaxLifetimeSecs

/-- `grace_micros`. -/
def Grace.micros (grace : Grace) : ℤ := min i64Max (grace.secs * 1000000)

/-- `RefreshRedeem`, with the digest of the presented token. -/
structure RefreshRedeem (I : Type) where
  presented : I
  rotate : Bool
  successor : RotatedRefreshToken I
  accessRecords : List I
  opaqueToken : Option I
  grace : Grace

/-- The requests that transactions are begun for, with the clock's reading. -/
inductive Request (I : Type) where
  | issue (family : NewRefreshFamily I) (now : ℤ)
  | redeem (redeem : RefreshRedeem I) (now : ℤ)
  | revokeFamily (now : ℤ)
  | revokeSessionBound (now : ℤ)
  | revokeSession (now : ℤ) (hardKill : Bool)

/-- `RefreshRedeemOutcome`. -/
inductive RefreshRedeemOutcome where
  | rotated
  | refreshedWithinGrace
  | notRotated
  | reused
  | invalid
  deriving DecidableEq

/-- The outcomes of a redemption that records access tokens. -/
inductive AccessOutcome where
  | rotated
  | refreshedWithinGrace
  | notRotated
  deriving DecidableEq

def AccessOutcome.outcome : AccessOutcome → RefreshRedeemOutcome
  | .rotated => .rotated
  | .refreshedWithinGrace => .refreshedWithinGrace
  | .notRotated => .notRotated

/-- What a transaction answers. -/
inductive Answer (I : Type) where
  | opened
  | sessionNotLive
  | redeemed (redeem : RefreshRedeem I) (now : ℤ) (outcome : RefreshRedeemOutcome)
  | familyRevoked (flipped : Bool)
  | sessionBoundRevoked (families : ℕ)
  | sessionRevoked (flipped : Bool)

/-- The actions of the audit rows. -/
inductive AuditAction where
  | refreshTokenIssue
  | tokenIssue
  | refreshTokenRotate
  | refreshTokenReuse
  | refreshFamilyRevoke
  | sessionRevoke
  deriving DecidableEq

/-! ### Transactions -/

/-- The statement that comes next, with what was read before it. -/
inductive Stage (I : Type) where
  | readGrant (family : NewRefreshFamily I) (now : ℤ)
  | lockSession (family : NewRefreshFamily I) (now : ℤ)
  | openFamily (family : NewRefreshFamily I) (now : ℤ)
  | firstToken (family : NewRefreshFamily I)
  | readToken (redeem : RefreshRedeem I) (now : ℤ)
  | consume (redeem : RefreshRedeem I) (now : ℤ) (jti : I)
  | insertSuccessor (redeem : RefreshRedeem I) (now : ℤ) (jti : I)
  | reread (redeem : RefreshRedeem I) (now : ℤ)
  | recordAccess (redeem : RefreshRedeem I) (now : ℤ) (outcome : AccessOutcome) (rest : List I)
  | revokeReused (redeem : RefreshRedeem I) (now : ℤ)
  | revokeFamily (now : ℤ)
  | revokeGrant (now : ℤ) (flipped : Bool)
  | revokeSessionBound (now : ℤ)
  | revokeSession (now : ℤ) (hardKill : Bool)
  | revokeSessionFamilies (now : ℤ) (hardKill flipped : Bool)
  | revokeSessionGrants (now : ℤ) (flipped : Bool)
  | audit (action : AuditAction) (answer : Answer I)
  | commit (answer : Answer I)

/-- An open transaction: what comes next, what it has written, and the audit rows, access tokens
and refresh tokens that it has recorded. -/
structure Tx (I : Type) where
  stage : Stage I
  writes : Rows (Row I)
  audits : List AuditAction
  access : List I
  minted : List I

section statements

variable {I : Type} [DecidableEq I]

/-- A row is written, and the transaction moves on. -/
def Tx.write (tx : Tx I) (k : Key I) (row : Row I k) (stage : Stage I) : Tx I :=
  { tx with writes := Function.update tx.writes k (some row), stage := stage }

/-- The transaction moves on. -/
def Tx.to (tx : Tx I) (stage : Stage I) : Tx I := { tx with stage := stage }

variable (locked : Key I → Bool) (rows : Rows (Row I)) (tx : Tx I)

/-- The transaction has inserted a token and its entry in the index. -/
def Tx.mint (digest : I) (token : TokenRow I) (stage : Stage I) : Tx I where
  stage := stage
  writes := Function.update (Function.update tx.writes (.token digest) (some token)) (.jti token.jti) (some digest)
  audits := tx.audits
  access := tx.access
  minted := tx.minted ++ [digest]

/-- The insertion of a generation into `refresh_tokens`, with its unique keys and the reference to
its family. -/
def insertToken (digest : I) (token : TokenRow I) (stage : Stage I) : Outcome (Tx I) :=
  insertUnique locked rows (.token digest) <| insertUnique locked rows (.jti token.jti) <|
    if (rows .family).isNone then .fail else .next (tx.mint digest token stage)

/-! #### `issue` -/

/-- The session that bounds a family is live, or there is none. -/
def sessionLive (offline hasSession : Bool) (now : ℤ) : Bool :=
  offline || !hasSession || (rows .session).any fun session => session.live now

variable (redeem : RefreshRedeem I) (family : NewRefreshFamily I) (now : ℤ)

/-- `lock_bound_session_live`, its first statement. -/
def readGrant : Outcome (Tx I) :=
  .next (tx.to (if (rows .grant).any GrantRow.hasSession then .lockSession family now else .openFamily family now))

/-- `lock_bound_session_live`, `SELECT … FOR UPDATE`: a lock is a write of the same row. -/
def lockSession : Outcome (Tx I) :=
  guardedUpdate locked rows .session (fun session => session.live now)
    (fun session => .next (tx.write .session session (.openFamily family now)))
    (.next (tx.to (.commit .sessionNotLive)))

/-- `INSERT INTO refresh_families … SELECT`. -/
def openFamily : Outcome (Tx I) :=
  match rows .grant with
  | none => .next (tx.to (.commit .sessionNotLive))
  | some grant =>
    if sessionLive rows family.offline grant.hasSession now then
      insertUnique locked rows .family <| .next <| tx.write .family
        ⟨grant.hasSession, family.offline, family.createdAt, family.absoluteExpiresAt, none, none⟩ (.firstToken family)
    else .next (tx.to (.commit .sessionNotLive))

/-- The token of generation 0. -/
def firstToken : Outcome (Tx I) :=
  insertToken locked rows tx family.tokenDigest
    ⟨family.tokenJti, 0, none, family.createdAt, family.idleExpiresAt, none, none⟩ (.audit .refreshTokenIssue .opened)

/-! #### `redeem` -/

/-- The access tokens that a redemption records. -/
def RefreshRedeem.access : List I := redeem.accessRecords ++ redeem.opaqueToken.toList

/-- `classify_superseded`, up to its first statement. -/
def classifySuperseded (rotatedAt : ℤ) : Stage I :=
  if saturatingSub now rotatedAt < redeem.grace.micros then .recordAccess redeem now .refreshedWithinGrace redeem.access
  else .revokeReused redeem now

/-- What `redeem` decides from the rows that it reads. -/
def decideRedeem (token : TokenRow I) (family : FamilyRow) (grant : GrantRow) : Stage I :=
  if family.revokedAt.isSome ∨ grant.revokedAt.isSome then .commit (.redeemed redeem now .invalid)
  else if ¬ sessionLive rows family.offline family.hasSession now then .commit (.redeemed redeem now .invalid)
  else if token.idleExpiresAt ≤ now ∨ family.absoluteExpiresAt ≤ now then .commit (.redeemed redeem now .invalid)
  else
    match token.rotatedAt with
    | some rotatedAt => classifySuperseded redeem now rotatedAt
    | none => if redeem.rotate then .consume redeem now token.jti else .recordAccess redeem now .notRotated redeem.access

/-- The `SELECT` of `redeem`. -/
def readToken : Outcome (Tx I) :=
  match rows (.token redeem.presented), rows .family, rows .grant with
  | some token, some family, some grant => .next (tx.to (decideRedeem rows redeem now token family grant))
  | _, _, _ => .next (tx.to (.commit (.redeemed redeem now .invalid)))

/-- The row of a token that was rotated. -/
def TokenRow.rotate (token : TokenRow I) (redeem : RefreshRedeem I) (now : ℤ) : TokenRow I :=
  { token with rotatedAt := some now, successorJti := some redeem.successor.jti }

/-- The `UPDATE refresh_tokens` of `redeem_live_leaf`. -/
def consume (jti : I) : Outcome (Tx I) :=
  guardedUpdate locked rows (.token redeem.presented) (fun token => token.rotatedAt.isNone)
    (fun token => .next (tx.write (.token redeem.presented) (token.rotate redeem now) (.insertSuccessor redeem now jti)))
    (.next (tx.to (.reread redeem now)))

/-- The row of a successor. -/
def RefreshRedeem.successorRow (jti : I) : TokenRow I :=
  ⟨redeem.successor.jti, redeem.successor.generation, some jti, now, redeem.successor.idleExpiresAt, none, none⟩

/-- `insert_refresh_generation`. -/
def insertSuccessor (jti : I) : Outcome (Tx I) :=
  insertToken locked rows tx redeem.successor.tokenDigest (redeem.successorRow now jti)
    (.recordAccess redeem now .rotated redeem.access)

/-- The re-reading of `redeem_live_leaf`. -/
def reread : Outcome (Tx I) :=
  .next (tx.to (classifySuperseded redeem now (((rows (.token redeem.presented)).bind TokenRow.rotatedAt).getD now)))

/-- The audit row that goes with the access tokens. -/
def AccessOutcome.auditAction : AccessOutcome → AuditAction
  | .rotated => .refreshTokenRotate
  | .refreshedWithinGrace => .tokenIssue
  | .notRotated => .tokenIssue

/-- `record_refresh_access`, and the audit row after it. -/
def recordAccess (outcome : AccessOutcome) : List I → Outcome (Tx I)
  | id :: rest => .next { tx with access := tx.access ++ [id], stage := .recordAccess redeem now outcome rest }
  | [] => .next { tx with audits := tx.audits ++ [outcome.auditAction], stage := .commit (.redeemed redeem now outcome.outcome) }

/-- The family's row when it was revoked. -/
def FamilyRow.revoke (family : FamilyRow) (now : ℤ) : FamilyRow := { family with revokedAt := some now }

/-- The `UPDATE refresh_families` of `classify_superseded`. -/
def revokeReused : Outcome (Tx I) :=
  guardedUpdate locked rows .family (fun family => family.revokedAt.isNone)
    (fun family => .next (tx.write .family { family.revoke now with reuseDetectedAt := some now }
      (.audit .refreshTokenReuse (.redeemed redeem now .reused))))
    (.next (tx.to (.commit (.redeemed redeem now .reused))))

/-! #### Revocations -/

/-- `revoke_family`, on the family. -/
def revokeFamily : Outcome (Tx I) :=
  guardedUpdate locked rows .family (fun family => family.revokedAt.isNone)
    (fun family => .next (tx.write .family (family.revoke now) (.revokeGrant now true)))
    (.next (tx.to (.revokeGrant now false)))

/-- The grant's row when it was revoked. -/
def GrantRow.revoke (grant : GrantRow) (now : ℤ) : GrantRow := { grant with revokedAt := some now }

/-- `revoke_family`, on the grant. -/
def revokeGrant (flipped : Bool) : Outcome (Tx I) :=
  guardedUpdate locked rows .grant (fun grant => grant.revokedAt.isNone)
    (fun grant => .next (tx.write .grant (grant.revoke now) (.audit .refreshFamilyRevoke (.familyRevoked true))))
    (.next (tx.to (if flipped then .audit .refreshFamilyRevoke (.familyRevoked true) else .commit (.familyRevoked false))))

/-- `revoke_session_bound`. -/
def revokeSessionBound : Outcome (Tx I) :=
  guardedUpdate locked rows .family (fun family => family.hasSession && !family.offline && family.revokedAt.isNone)
    (fun family => .next (tx.write .family (family.revoke now) (.audit .refreshFamilyRevoke (.sessionBoundRevoked 1))))
    (.next (tx.to (.audit .refreshFamilyRevoke (.sessionBoundRevoked 0))))

/-- `revoke_session_in_tx`, on the session. -/
def revokeSession (hardKill : Bool) : Outcome (Tx I) :=
  guardedUpdate locked rows .session (fun session => session.revokedAt.isNone && session.endedAt.isNone)
    (fun session => .next (tx.write .session { session with revokedAt := some now, endedAt := some now }
      (.revokeSessionFamilies now hardKill true)))
    (.next (tx.to (.revokeSessionFamilies now hardKill false)))

/-- What follows the families in `revoke_session_in_tx`. -/
def afterFamilies (hardKill flipped : Bool) : Stage I :=
  if hardKill then .revokeSessionGrants now flipped else .audit .sessionRevoke (.sessionRevoked flipped)

/-- `revoke_session_in_tx`, on the families. -/
def revokeSessionFamilies (hardKill flipped : Bool) : Outcome (Tx I) :=
  guardedUpdate locked rows .family (fun family => family.hasSession && family.revokedAt.isNone && (hardKill || !family.offline))
    (fun family => .next (tx.write .family (family.revoke now) (afterFamilies now hardKill flipped)))
    (.next (tx.to (afterFamilies now hardKill flipped)))

/-- `revoke_session_in_tx`, on the grants behind the families. -/
def revokeSessionGrants (flipped : Bool) : Outcome (Tx I) :=
  guardedUpdate locked rows .grant (fun grant => grant.revokedAt.isNone && (rows .family).any FamilyRow.hasSession)
    (fun grant => .next (tx.write .grant (grant.revoke now) (.audit .sessionRevoke (.sessionRevoked flipped))))
    (.next (tx.to (.audit .sessionRevoke (.sessionRevoked flipped))))

/-! #### The program -/

/-- What the next statement does. -/
def nextStatement (locked : Key I → Bool) (committed : Rows (Row I)) (tx : Tx I) : Outcome (Tx I) :=
  let rows := tx.writes.over committed
  match tx.stage with
  | .readGrant family now => readGrant rows tx family now
  | .lockSession family now => lockSession locked rows tx family now
  | .openFamily family now => openFamily locked rows tx family now
  | .firstToken family => firstToken locked rows tx family
  | .readToken redeem now => readToken rows tx redeem now
  | .consume redeem now jti => consume locked rows tx redeem now jti
  | .insertSuccessor redeem now jti => insertSuccessor locked rows tx redeem now jti
  | .reread redeem now => reread rows tx redeem now
  | .recordAccess redeem now outcome rest => recordAccess tx redeem now outcome rest
  | .revokeReused redeem now => revokeReused locked rows tx redeem now
  | .revokeFamily now => revokeFamily locked rows tx now
  | .revokeGrant now flipped => revokeGrant locked rows tx now flipped
  | .revokeSessionBound now => revokeSessionBound locked rows tx now
  | .revokeSession now hardKill => revokeSession locked rows tx now hardKill
  | .revokeSessionFamilies now hardKill flipped => revokeSessionFamilies locked rows tx now hardKill flipped
  | .revokeSessionGrants now flipped => revokeSessionGrants locked rows tx now flipped
  | .audit action answer => .next { tx with audits := tx.audits ++ [action], stage := .commit answer }
  | .commit _ => .commit

/-- The first statement of a request. -/
def Request.stage : Request I → Stage I
  | .issue family now => if family.offline then .openFamily family now else .readGrant family now
  | .redeem redemption now => .readToken redemption now
  | .revokeFamily now => .revokeFamily now
  | .revokeSessionBound now => .revokeSessionBound now
  | .revokeSession now hardKill => .revokeSession now hardKill

/-- The transactions on a family. -/
def refreshProgram (I : Type) [DecidableEq I] : Program (Row I) (Tx I) (Request I) where
  writes := Tx.writes
  begins := fun request => ⟨request.stage, fun _ => none, [], [], []⟩
  next := nextStatement

variable {T : Type} [Fintype T] [DecidableEq T]

/-- Before the family is opened. -/
def unopened (I T : Type) (session : Option SessionRow) (grant : Option GrantRow) : Database (Row I) T (Tx I) where
  committed
    | .session => session
    | .grant => grant
    | .family => none
    | .token _ => none
    | .jti _ => none
  running := fun _ => none

end statements

end IronAuth.Store
