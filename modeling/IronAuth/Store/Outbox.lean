import IronAuth.Lib.ReadCommitted
import IronAuth.Lib.Text
import IronAuth.Store.Clock

/-!
# The outbox

The message queue of `ironauth-store/src/repository.rs`: `enqueue`, `claim`, `renew_lease`,
`complete_leased` and `fail`, each the statements of one transaction.

A message is named by its `sequence`, which the database hands out at the insert. A claim takes the
due messages of a consumer in the order of their sequences and stamps each with the reading of the
worker's clock. The stamp is the lease: whoever renews, completes or fails a message says which stamp
it was handed, and finds the row only while it carries that stamp.

The statement of a claim reads one snapshot and locks the rows it finds one after the other, passing
over those that are locked; a row that was changed in the meantime is tested again. What it found in
the snapshot about other rows, that none of the group comes before, is not.

A lease also says which claim of the message it stems from (`holder`). No statement reads this.
-/

namespace IronAuth.Store.Outbox

open Lib Lib.ReadCommitted Option Function

/-! ### Messages -/

/-- The tenant and the environment. -/
structure Scope where
  tenant : Text
  environment : Text
  deriving DecidableEq

/-- A row of `outbox_messages`; its key is its sequence. Instants are in microseconds. -/
structure Message where
  scope : Scope
  consumer : Text
  orderingKey : Text
  attempts : ℕ := 0
  lastError : Option Text := none
  nextAttemptAt : ℤ
  claimedAt : Option ℤ := none
  completedAt : Option ℤ := none
  deadLetteredAt : Option ℤ := none
  deriving DecidableEq

/-- The rows by their sequence. -/
abbrev Messages := Rows fun _ : ℕ => Message

variable (m : Message)

/-- Neither completed nor dead-lettered. -/
def Message.live : Bool := m.completedAt.isNone && m.deadLetteredAt.isNone

/-- Of one consumer and ordering key, within one scope. -/
def Message.SameGroup (other : Message) : Prop :=
  other.scope = m.scope ∧ other.consumer = m.consumer ∧ other.orderingKey = m.orderingKey

instance (m other : Message) : Decidable (m.SameGroup other) :=
  inferInstanceAs (Decidable (other.scope = m.scope ∧ other.consumer = m.consumer ∧ other.orderingKey = m.orderingKey))

/-! ### Calls -/

structure NewOutboxMessage where
  consumer : Text
  orderingKey : Text
  notBefore : Option ℤ := none
  deriving DecidableEq

/-- What `claim` is asked for. `horizon` is above the sequences that were handed out. -/
structure Claim where
  consumer : Text
  lease : ℕ
  limit : ℕ
  horizon : ℕ
  deriving DecidableEq

/-- What a worker holds of a message: the stamp it was handed, and the claim that it stems from. -/
structure Lease where
  message : ℕ
  stamp : Option ℤ
  holder : ℕ
  deriving DecidableEq

structure RetryPolicy where
  maxAttempts : ℕ
  retryBaseSecs : ℕ
  deriving DecidableEq

/-- A failed attempt, with the bytes that the entropy source gives. -/
structure Failure where
  lease : Lease
  error : Text
  policy : RetryPolicy
  entropy : ℕ
  deriving DecidableEq

inductive Call where
  | enqueue (sequence : ℕ) (message : NewOutboxMessage)
  | claim (claim : Claim)
  | renewLease (lease : Lease)
  | complete (lease : Lease)
  | fail (failure : Failure)
  deriving DecidableEq

/-- The lease that a call is made under. -/
def Call.lease? : Call → Option Lease
  | .enqueue _ _ => none
  | .claim _ => none
  | .renewLease lease => some lease
  | .complete lease => some lease
  | .fail failure => some failure.lease

/-- A call of a worker, in a scope, with the reading of its clock. -/
structure Request (W : Type) where
  worker : W
  scope : Scope
  now : ℤ
  call : Call
  deriving DecidableEq

/-! ### What the calls do to a message -/

/-- `i32::MAX`. -/
def i32Max : ℕ := 2 ^ 31 - 1

/-- `OUTBOX_MAX_BACKOFF_SECS`. -/
def outboxMaxBackoffSecs : ℕ := 36000

/-- `next_attempt_micros`. -/
def nextAttemptMicros (now : ℤ) (attempts base entropy : ℕ) : ℤ :=
  let baseSecs := max base 1
  let shift := min (attempts - 1) 16
  let backoff := min (min (2 ^ 64 - 1) (baseSecs * 2 ^ shift)) outboxMaxBackoffSecs
  let jitter := entropy % baseSecs
  let total := min (min (2 ^ 64 - 1) (backoff + jitter)) outboxMaxBackoffSecs
  saturatingAdd now (min i64Max (min i64Max total * 1000000))

inductive FailureOutcome where
  | notFound
  | retrying (attempts : ℕ) (nextAttemptAt : ℤ)
  | deadLettered (attempts : ℕ)
  deriving DecidableEq

/-- The row of a new message. -/
def NewOutboxMessage.row (message : NewOutboxMessage) (scope : Scope) (now : ℤ) : Message where
  scope := scope
  consumer := message.consumer
  orderingKey := message.orderingKey
  nextAttemptAt := message.notBefore.getD now

/-- The row under a fresh stamp. -/
def Message.stamp (now : ℤ) : Message := { m with claimedAt := some now }

def Message.complete (now : ℤ) : Message := { m with completedAt := some now, claimedAt := none }

/-- The attempts counted after one more. -/
def countedAttempts (before : ℕ) : ℕ := min i32Max (before + 1)

/-- The attempts after which a message is dead-lettered. -/
def RetryPolicy.cap (policy : RetryPolicy) : ℕ := max (min i32Max policy.maxAttempts) 1

/-- What a failure comes to, after so many attempts. -/
def Failure.outcome (failure : Failure) (now : ℤ) (attempts : ℕ) : FailureOutcome :=
  if attempts ≥ failure.policy.cap then .deadLettered attempts
  else .retrying attempts (nextAttemptMicros now attempts failure.policy.retryBaseSecs failure.entropy)

/-- The row after a failure with this outcome. -/
def Message.afterFailure (now : ℤ) (error : Text) : FailureOutcome → Message
  | .notFound => m
  | .retrying attempts next =>
    { m with attempts := attempts, lastError := some error, claimedAt := none, nextAttemptAt := next }
  | .deadLettered attempts =>
    { m with attempts := attempts, lastError := some error, claimedAt := none, deadLetteredAt := some now }

/-! ### Transactions -/

inductive Answer where
  | enqueued
  | renewed (flipped : Bool)
  | completed (flipped : Bool)
  | failed (outcome : FailureOutcome)
  deriving DecidableEq

/-- How far a transaction has come: before its statement, between two rows of a claim, between the lock
and the update of a failure, or before its commit. -/
inductive Stage where
  | first
  | picking (snapshot : Messages) (todo : List ℕ) (left : ℕ) (picked : List ℕ)
  | locked (row : Message)
  | done (answer : Answer)

structure Tx (W : Type) where
  request : Request W
  stage : Stage
  writes : Messages

variable {W : Type}

def Tx.to (tx : Tx W) (stage : Stage) : Tx W := { tx with stage := stage }

def Tx.write (tx : Tx W) (k : ℕ) (row : Message) (stage : Stage) : Tx W :=
  { tx with stage := stage, writes := Function.update tx.writes k (some row) }

/-- The conditions of a claim on the row itself. -/
def Message.due (scope : Scope) (now : ℤ) (claim : Claim) : Bool :=
  m.scope = scope && m.consumer = claim.consumer && m.live && m.nextAttemptAt ≤ now &&
    m.claimedAt.all fun stamp => stamp < now - windowMicros claim.lease

/-- `EXISTS`: a live message of the group with a lower sequence. -/
def blocked (rows : Messages) (k : ℕ) (m : Message) : Bool :=
  (List.range k).any fun b => (rows b).any fun other => decide (m.SameGroup other) && other.live

/-- The rows that a claim finds in its snapshot, in the order of their sequences. -/
def candidates (scope : Scope) (now : ℤ) (claim : Claim) (rows : Messages) : List ℕ :=
  (List.range claim.horizon).filter fun k => (rows k).any fun m => m.due scope now claim && !blocked rows k m

section statements

variable (locked : ℕ → Bool) (committed : Messages) (tx : Tx W)

/-- `enqueue_outbox_in_tx`. -/
def insertMessage (k : ℕ) (message : NewOutboxMessage) : Outcome (Tx W) :=
  insertUnique locked committed k
    (.next (tx.write k (message.row tx.request.scope tx.request.now) (.done .enqueued)))

/-- The next row of a claim: it is passed over when it is locked, or no longer due. -/
def pick (claim : Claim) (snapshot : Messages) : List ℕ → ℕ → List ℕ → Outcome (Tx W)
  | [], _, _ => .commit
  | _ :: _, 0, _ => .commit
  | k :: todo, left + 1, picked =>
    if locked k then .next (tx.to (.picking snapshot todo (left + 1) picked))
    else
      match (committed k).filter fun m => m.due tx.request.scope tx.request.now claim with
      | some row => .next (tx.write k (row.stamp tx.request.now) (.picking snapshot todo left (picked ++ [k])))
      | none => .next (tx.to (.picking snapshot todo (left + 1) picked))

/-- Live, in the scope, and under this stamp. -/
def Message.heldUnder (scope : Scope) (stamp : ℤ) (m : Message) : Bool :=
  m.scope = scope && m.claimedAt = some stamp && m.live

/-- A statement on the row of a lease, if the lease has a stamp. -/
def underLease (lease : Lease) (hit : Message → Outcome (Tx W)) (miss : Outcome (Tx W)) : Outcome (Tx W) :=
  match lease.stamp with
  | none => .fail
  | some stamp => findUpdate locked committed lease.message (Message.heldUnder tx.request.scope stamp) hit miss

/-- `renew_lease`. -/
def renewLease (lease : Lease) : Outcome (Tx W) :=
  underLease locked committed tx lease
    (fun row => .next (tx.write lease.message (row.stamp tx.request.now) (.done (.renewed true))))
    (.next (tx.to (.done (.renewed false))))

/-- `complete_leased`. -/
def completeLeased (lease : Lease) : Outcome (Tx W) :=
  underLease locked committed tx lease
    (fun row => .next (tx.write lease.message (row.complete tx.request.now) (.done (.completed true))))
    (.next (tx.to (.done (.completed false))))

/-- The `SELECT … FOR UPDATE` of `fail`; without a row the transaction is rolled back. -/
def lockFailed (lease : Lease) : Outcome (Tx W) :=
  underLease locked committed tx lease (fun row => .next (tx.write lease.message row (.locked row))) .fail

/-- The `UPDATE` of `fail`, of the row as the transaction sees it. -/
def recordFailure (failure : Failure) (row : Message) : Outcome (Tx W) :=
  let outcome := failure.outcome tx.request.now (countedAttempts row.attempts)
  findUpdate locked (tx.writes.over committed) failure.lease.message (fun m => m.scope = tx.request.scope && m.live)
    (fun m => .next (tx.write failure.lease.message (m.afterFailure tx.request.now failure.error outcome)
      (.done (.failed outcome))))
    (.next (tx.to (.done (.failed outcome))))

/-- The next statement of a transaction. -/
def next : Outcome (Tx W) :=
  match tx.request.call, tx.stage with
  | .enqueue k message, .first => insertMessage locked committed tx k message
  | .claim claim, .first =>
    .next (tx.to (.picking committed (candidates tx.request.scope tx.request.now claim committed) claim.limit []))
  | .claim claim, .picking snapshot todo left picked => pick locked committed tx claim snapshot todo left picked
  | .renewLease lease, .first => renewLease locked committed tx lease
  | .complete lease, .first => completeLeased locked committed tx lease
  | .fail failure, .first => lockFailed locked committed tx failure.lease
  | .fail failure, .locked row => recordFailure locked committed tx failure row
  | _, .done _ => .commit
  | _, _ => .fail

end statements

/-- The transactions of the outbox. -/
def outboxProgram (W : Type) : Program (fun _ : ℕ => Message) (Tx W) (Request W) where
  writes := Tx.writes
  begins := fun request => ⟨request, .first, fun _ => none⟩
  next := next

/-! ### What a transaction may rely on -/

/-- Nothing is written. -/
def blank : Messages := fun _ => none

/-- One row is written. -/
def single (k : ℕ) (row : Message) : Messages := Function.update blank k (some row)

theorem single_self (k : ℕ) (row : Message) : single k row k = some row := update_self ..

theorem single_of_ne {k o : ℕ} (h : o ≠ k) (row : Message) : single k row o = none := update_of_ne h ..

theorem single_eq_some_iff {k o : ℕ} {row written : Message} : single k row o = some written ↔ o = k ∧ row = written := by
  by_cases h : o = k
  · subst h
    simp [single_self]
  · simp [single_of_ne h, h]

/-- What becomes of a row: it stays in its group, and as it is once it has an outcome. -/
def Follows (_ : ℕ) (row after : Message) : Prop := row.SameGroup after ∧ (row.live = false → after = row)

theorem follows_refl (k : ℕ) (row : Message) : Follows k row row := ⟨⟨rfl, rfl, rfl⟩, fun _ => rfl⟩

theorem follows_trans (k : ℕ) (row row2 row3 : Message) (h : Follows k row row2) (h2 : Follows k row2 row3) :
    Follows k row row3 := by
  obtain ⟨⟨hsc, hc, hk⟩, hd⟩ := h
  obtain ⟨⟨hsc2, hc2, hk2⟩, hd2⟩ := h2
  refine ⟨⟨hsc2.trans hsc, hc2.trans hc, hk2.trans hk⟩, fun hl => ?_⟩
  obtain rfl := hd hl
  exact hd2 hl

/-- The row of a lease, found under its stamp. -/
structure Held (committed : Messages) (lease : Lease) (row : Message) : Prop where
  found : committed lease.message = some row
  stamped : ∃ stamp, lease.stamp = some stamp ∧ row.claimedAt = some stamp
  live : row.live = true

/-- What a claim has found and taken so far. -/
structure Picking (committed : Messages) (request : Request W) (claim : Claim) (snapshot : Messages) (todo picked : List ℕ)
    (writes : Messages) : Prop where
  evolves : Evolves Follows snapshot committed
  nodup : (picked ++ todo).Nodup
  first : ∀ k ∈ picked ++ todo, ∃ m, snapshot k = some m ∧ blocked snapshot k m = false
  taken : ∀ k ∈ picked, ∃ row, committed k = some row ∧ row.due request.scope request.now claim = true ∧
    writes k = some (row.stamp request.now)
  others : ∀ k ∉ picked, writes k = none

/-- What is asserted of a transaction before its next statement. -/
inductive Asserted (committed : Messages) : Tx W → Prop
  | first (request : Request W) : Asserted committed ⟨request, .first, blank⟩
  | enqueued {request : Request W} {k : ℕ} {message : NewOutboxMessage} (hcall : request.call = .enqueue k message)
      (hfresh : committed k = none) :
      Asserted committed ⟨request, .done .enqueued, single k (message.row request.scope request.now)⟩
  | picking {request : Request W} {claim : Claim} {snapshot : Messages} {todo : List ℕ} {left : ℕ} {picked : List ℕ}
      {writes : Messages} (hcall : request.call = .claim claim)
      (h : Picking committed request claim snapshot todo picked writes) :
      Asserted committed ⟨request, .picking snapshot todo left picked, writes⟩
  | renewed {request : Request W} {lease : Lease} {row : Message} (hcall : request.call = .renewLease lease)
      (h : Held committed lease row) :
      Asserted committed ⟨request, .done (.renewed true), single lease.message (row.stamp request.now)⟩
  | completed {request : Request W} {lease : Lease} {row : Message} (hcall : request.call = .complete lease)
      (h : Held committed lease row) :
      Asserted committed ⟨request, .done (.completed true), single lease.message (row.complete request.now)⟩
  | locked {request : Request W} {failure : Failure} {row : Message} (hcall : request.call = .fail failure)
      (h : Held committed failure.lease row) (hscope : row.scope = request.scope) :
      Asserted committed ⟨request, .locked row, single failure.lease.message row⟩
  | failed {request : Request W} {failure : Failure} {row : Message} (hcall : request.call = .fail failure)
      (h : Held committed failure.lease row) :
      Asserted committed ⟨request, .done (.failed (failure.outcome request.now (countedAttempts row.attempts))),
        single failure.lease.message
          (row.afterFailure request.now failure.error (failure.outcome request.now (countedAttempts row.attempts)))⟩
  | notRenewed {request : Request W} {lease : Lease} (hcall : request.call = .renewLease lease) :
      Asserted committed ⟨request, .done (.renewed false), blank⟩
  | notCompleted {request : Request W} {lease : Lease} (hcall : request.call = .complete lease) :
      Asserted committed ⟨request, .done (.completed false), blank⟩

/-! ### Statements -/

section next

variable {locked : ℕ → Bool} {committed : Messages} {tx tx2 : Tx W}

variable {l : Lease} {row : Message} {hit : Message → Outcome (Tx W)} {m : Outcome (Tx W)}
   {request : Request W} {k : ℕ}

/-- A statement on the row of a lease finds the row, or does not. -/
theorem underLease_eq_next (h : underLease locked committed tx l hit m = .next tx2) :
    (∃ row, Held committed l row ∧ row.scope = tx.request.scope ∧ locked l.message = false ∧ hit row = .next tx2) ∨
      m = .next tx2 := by
  cases hst : l.stamp with
  | none =>
    rw [underLease, hst] at h
    cases h
  | some stamp =>
    rw [underLease, hst] at h
    obtain hw | ⟨row, hr, hgd, hf, hhi⟩ | hm := findUpdate_eq h
    · cases hw
    · simp only [Message.heldUnder, Bool.and_eq_true, decide_eq_true_eq] at hgd
      exact .inl ⟨row, ⟨hr, ⟨stamp, hst, hgd.1.2⟩, hgd.2⟩, hgd.1.1, hf, hhi.symm⟩
    · exact .inr hm.symm

theorem underLease_ne_commit
    (hh : ∀ row, hit row ≠ .commit) (hm : m ≠ .commit) : underLease locked committed tx l hit m ≠ .commit := by
  intro h
  cases hst : l.stamp with
  | none =>
    rw [underLease, hst] at h
    cases h
  | some stamp =>
    rw [underLease, hst] at h
    obtain hw | ⟨row, -, -, -, hc⟩ | hc := findUpdate_eq h
    · cases hw
    · exact hh row hc.symm
    · exact hm hc.symm

/-- What a claim finds is in order, and nothing of the group comes before. -/
theorem picking_candidates (committed : Messages) (request : Request W) (claim : Claim) :
    Picking committed request claim committed (candidates request.scope request.now claim committed) [] blank where
  evolves := .refl follows_refl committed
  nodup := List.nodup_range.filter _
  first := by
    intro k hk
    rw [List.nil_append, candidates, List.mem_filter, Option.any_eq_true] at hk
    obtain ⟨-, m, hm, hfd⟩ := hk
    rw [Bool.and_eq_true, Bool.not_eq_true'] at hfd
    exact ⟨m, hm, hfd.2⟩
  taken := fun k hk => absurd hk List.not_mem_nil
  others := fun _ _ => rfl

variable {claim : Claim} {snapshot : Messages} {todo picked : List ℕ}

/-- A row that is passed over. -/
theorem Picking.skip {writes : Messages}
    (h : Picking committed request claim snapshot (k :: todo) picked writes) :
    Picking committed request claim snapshot todo picked writes := by
  have hs : (picked ++ todo).Sublist (picked ++ k :: todo) := (List.sublist_cons_self k todo).append_left picked
  exact ⟨h.evolves, hs.nodup h.nodup, fun other ho => h.first other (hs.subset ho), h.taken, h.others⟩

/-- A row that is taken. -/
theorem Picking.take {w : Messages}
    (h : Picking committed request claim snapshot (k :: todo) picked w) (hr : committed k = some row)
    (hd : row.due request.scope request.now claim = true) :
    Picking committed request claim snapshot todo (picked ++ [k]) (Function.update w k (some (row.stamp request.now))) := by
  have hl : picked ++ [k] ++ todo = picked ++ k :: todo := List.append_assoc ..
  refine ⟨h.evolves, hl ▸ h.nodup, fun other ho => h.first other (hl ▸ ho), ?_, ?_⟩
  · intro other ho
    by_cases hk : other = k
    · subst hk
      exact ⟨row, hr, hd, update_self ..⟩
    · obtain hp | hs := List.mem_append.mp ho
      · obtain ⟨row2, hr2, hd2, hws⟩ := h.taken other hp
        exact ⟨row2, hr2, hd2, (update_of_ne hk ..).trans hws⟩
      · exact absurd (List.mem_singleton.mp hs) hk
  · intro other ho
    rw [List.mem_append, List.mem_singleton, not_or] at ho
    exact (update_of_ne ho.2 ..).trans (h.others other ho.1)

/-- Everything that the next row of a claim comes to. -/
theorem pick_eq_next {left : ℕ} (h : pick locked committed tx claim snapshot todo left picked = .next tx2) :
    ∃ k rest left2, todo = k :: rest ∧
      (tx2 = tx.to (.picking snapshot rest left picked) ∨
        ∃ row, locked k = false ∧ committed k = some row ∧ row.due tx.request.scope tx.request.now claim = true ∧
          tx2 = tx.write k (row.stamp tx.request.now) (.picking snapshot rest left2 (picked ++ [k]))) := by
  cases todo with
  | nil => cases h
  | cons k rest =>
    cases left with
    | zero => cases h
    | succ left =>
      rw [pick] at h
      split_ifs at h with hl
      · cases h
        exact ⟨k, rest, left, rfl, .inl rfl⟩
      · split at h
        · rename_i row hr
          cases h
          obtain ⟨hr, hd⟩ := filter_eq_some_iff.mp hr
          exact ⟨k, rest, left, rfl, .inr ⟨row, Bool.eq_false_iff.mpr hl, hr, hd, rfl⟩⟩
        · cases h
          exact ⟨k, rest, left, rfl, .inl rfl⟩

/-- **Each statement leaves what the next one relies on.** -/
theorem asserted_next (h : Asserted committed tx) (hn : next locked committed tx = .next tx2) : Asserted committed tx2 := by
  cases h with
  | first request =>
    obtain ⟨worker, scope, now, call⟩ := request
    cases call with
    | enqueue k message =>
      obtain ⟨-, hfr, hhi⟩ := insertUnique_eq_next hn
      cases hhi
      exact .enqueued rfl hfr
    | claim claim =>
      cases hn
      exact .picking rfl (picking_candidates committed _ claim)
    | renewLease lease =>
      obtain ⟨row, hh, -, -, hhi⟩ | hm := underLease_eq_next hn
      · cases hhi
        exact .renewed rfl hh
      · cases hm
        exact .notRenewed rfl
    | complete lease =>
      obtain ⟨row, hh, -, -, hhi⟩ | hm := underLease_eq_next hn
      · cases hhi
        exact .completed rfl hh
      · cases hm
        exact .notCompleted rfl
    | fail f =>
      obtain ⟨row, hh, hsc, -, hhi⟩ | hm := underLease_eq_next hn
      · cases hhi
        exact .locked rfl hh hsc
      · cases hm
  | picking hc h =>
    simp only [next, hc] at hn
    obtain ⟨k, rest, left2, rfl, rfl | ⟨row, -, hr, hd, rfl⟩⟩ := pick_eq_next hn
    · exact .picking hc h.skip
    · exact .picking hc (h.take hr hd)
  | locked hc h hsc =>
    rename_i request f row
    have hs : Rows.over (single f.lease.message row) committed f.lease.message = some row :=
      over_of_some (single_self ..)
    simp only [next, hc, recordFailure, findUpdate, hs, filter_some, hsc, h.live, decide_true, Bool.and_self,
      if_true] at hn
    split_ifs at hn
    cases hn
    rw [Tx.write, single, update_idem]
    exact .failed hc h
  | @enqueued request | @renewed request | @completed request | @failed request | @notRenewed request
  | @notCompleted request =>
    obtain ⟨worker, scope, now, call⟩ := request
    cases call with
    | enqueue | claim | renewLease | complete | fail => cases hn

/-- What a statement does: it takes a row that is free, or none, and a claim takes its snapshot at the first. -/
theorem next_moves (hn : next locked committed tx = .next tx2) :
    ∃ stage, (tx2 = tx.to stage ∨ ∃ k row, locked k = false ∧ tx2 = tx.write k row stage) ∧
      ∀ snapshot todo left picked, stage = .picking snapshot todo left picked →
        snapshot = committed ∨ ∃ todo left picked, tx.stage = .picking snapshot todo left picked := by
  obtain ⟨⟨worker, scope, now, call⟩, stage, writes⟩ := tx
  cases call with
  | enqueue k2 message =>
    cases stage with
    | first =>
      obtain ⟨hf, -, hhi⟩ := insertUnique_eq_next hn
      cases hhi
      exact ⟨_, .inr ⟨_, _, hf, rfl⟩, by simp⟩
    | picking | locked | done => cases hn
  | claim claim =>
    cases stage with
    | first =>
      cases hn
      exact ⟨_, .inl rfl, by simp +contextual [eq_comm]⟩
    | picking snapshot todo left picked =>
      obtain ⟨k2, rest, left2, rfl, rfl | ⟨row, hf, -, -, rfl⟩⟩ := pick_eq_next hn
      · exact ⟨_, .inl rfl, by simp +contextual⟩
      · exact ⟨_, .inr ⟨_, _, hf, rfl⟩, by simp +contextual⟩
    | locked | done => cases hn
  | renewLease lease | complete lease =>
    cases stage with
    | first =>
      obtain ⟨row, -, -, hf, hhi⟩ | hm := underLease_eq_next hn
      · cases hhi
        exact ⟨_, .inr ⟨_, _, hf, rfl⟩, by simp⟩
      · cases hm
        exact ⟨_, .inl rfl, by simp⟩
    | picking | locked | done => cases hn
  | fail f =>
    cases stage with
    | first =>
      obtain ⟨row, -, -, hf, hhi⟩ | hm := underLease_eq_next hn
      · cases hhi
        exact ⟨_, .inr ⟨_, _, hf, rfl⟩, by simp⟩
      · cases hm
    | picking | done => cases hn
    | locked row =>
      obtain hw | ⟨m, -, -, hf, hhi⟩ | hm := findUpdate_eq hn
      · cases hw
      · cases hhi
        exact ⟨_, .inr ⟨_, _, hf, rfl⟩, by simp⟩
      · cases hm
        exact ⟨_, .inl rfl, by simp⟩

/-- **A statement takes rows that it found free.** -/
theorem held_next (hn : next locked committed tx = .next tx2) (hh : (tx2.writes k).isSome) :
    (tx.writes k).isSome ∨ locked k = false := by
  obtain ⟨stage, rfl | ⟨k2, row, hf, rfl⟩, -⟩ := next_moves hn
  · exact .inl hh
  · by_cases hk : k = k2
    · exact .inr (hk ▸ hf)
    · have hs : (tx.write k2 row stage).writes k = tx.writes k := update_of_ne hk ..
      exact .inl (hs ▸ hh)

end next

/-! ### What a transaction does to a message -/

/-- What a transaction does to a live message that it has taken. -/
inductive Effect (request : Request W) (k : ℕ) (row : Message) : Message → Prop
  | claimed {claim : Claim} (hcall : request.call = .claim claim) (hdue : row.due request.scope request.now claim = true) :
      Effect request k row (row.stamp request.now)
  | renewed {lease : Lease} (hcall : request.call = .renewLease lease) (hmessage : lease.message = k)
      (hstamp : ∃ stamp, lease.stamp = some stamp ∧ row.claimedAt = some stamp) : Effect request k row (row.stamp request.now)
  | completed {lease : Lease} (hcall : request.call = .complete lease) (hmessage : lease.message = k)
      (hstamp : ∃ stamp, lease.stamp = some stamp ∧ row.claimedAt = some stamp) : Effect request k row (row.complete request.now)
  | locked {failure : Failure} (hcall : request.call = .fail failure) (hmessage : failure.lease.message = k)
      (hstamp : ∃ stamp, failure.lease.stamp = some stamp ∧ row.claimedAt = some stamp) : Effect request k row row
  | failed {failure : Failure} (hcall : request.call = .fail failure) (hmessage : failure.lease.message = k)
      (hstamp : ∃ stamp, failure.lease.stamp = some stamp ∧ row.claimedAt = some stamp) :
      Effect request k row
        (row.afterFailure request.now failure.error (failure.outcome request.now (countedAttempts row.attempts)))

section effect

variable {committed after : Messages} {tx : Tx W} {request : Request W} {k : ℕ} {row written : Message}

/-- A call under a lease concerns the message of the lease, under its stamp. -/
theorem Effect.under (h : Effect request k row written) {l : Lease} (hl : request.call.lease? = some l) :
    l.message = k ∧ ∃ stamp, l.stamp = some stamp ∧ row.claimedAt = some stamp := by
  cases h with
  | claimed hc _ =>
    rw [hc] at hl
    cases hl
  | renewed hc hm hst | completed hc hm hst | locked hc hm hst | failed hc hm hst =>
    rw [hc] at hl
    obtain rfl := some.inj hl
    exact ⟨hm, hst⟩

/-- **What a transaction has written**: a new message, or a live one with the effect of its call. -/
theorem Asserted.effect (h : Asserted committed tx) (hw : tx.writes k = some written) :
    (∃ message, tx.request.call = .enqueue k message ∧ committed k = none ∧
        written = message.row tx.request.scope tx.request.now) ∨
      ∃ row, committed k = some row ∧ row.live = true ∧ Effect tx.request k row written := by
  cases h with
  | first | notRenewed | notCompleted => cases hw
  | enqueued hc hfr =>
    obtain ⟨rfl, rfl⟩ := single_eq_some_iff.mp hw
    exact .inl ⟨_, hc, hfr, rfl⟩
  | picking hc h =>
    rename_i request claim snapshot todo left picked writes
    have hp : k ∈ picked := by
      by_contra hn
      cases (h.others k hn).symm.trans hw
    obtain ⟨row, hr, hd, htk⟩ := h.taken k hp
    obtain rfl := some.inj (htk.symm.trans hw)
    have hl : row.live = true := by
      simp only [Message.due, Bool.and_eq_true] at hd
      exact hd.1.1.2
    exact .inr ⟨row, hr, hl, .claimed hc hd⟩
  | renewed hc h =>
    obtain ⟨rfl, rfl⟩ := single_eq_some_iff.mp hw
    exact .inr ⟨_, h.found, h.live, .renewed hc rfl h.stamped⟩
  | completed hc h =>
    obtain ⟨rfl, rfl⟩ := single_eq_some_iff.mp hw
    exact .inr ⟨_, h.found, h.live, .completed hc rfl h.stamped⟩
  | locked hc h hsc =>
    obtain ⟨rfl, rfl⟩ := single_eq_some_iff.mp hw
    exact .inr ⟨_, h.found, h.live, .locked hc rfl h.stamped⟩
  | failed hc h =>
    obtain ⟨rfl, rfl⟩ := single_eq_some_iff.mp hw
    exact .inr ⟨_, h.found, h.live, .failed hc rfl h.stamped⟩

theorem Effect.sameGroup (h : Effect request k row written) : row.SameGroup written := by
  cases h with
  | claimed | renewed | completed | locked => exact ⟨rfl, rfl, rfl⟩
  | failed =>
    unfold Message.afterFailure
    split <;> exact ⟨rfl, rfl, rfl⟩

/-- A message has one outcome at most, and a live one has not used up its attempts. -/
structure Sound (row : Message) : Prop where
  one_outcome : row.completedAt = none ∨ row.deadLetteredAt = none
  attempts_lt : row.live = true → row.attempts < i32Max

theorem live_iff : row.live = true ↔ row.completedAt = none ∧ row.deadLetteredAt = none := by
  simp [Message.live]

/-- A failure counts one attempt more, and ends the message when none is left. -/
theorem outcome_cases (f : Failure) (now : ℤ) {t : ℕ} (h : t < i32Max) :
    f.outcome now (countedAttempts t) = .deadLettered (t + 1) ∨
      t + 1 < i32Max ∧ f.outcome now (countedAttempts t) =
        .retrying (t + 1) (nextAttemptMicros now (t + 1) f.policy.retryBaseSecs f.entropy) := by
  have hc : countedAttempts t = t + 1 := Nat.min_eq_right h
  have hca : f.policy.cap ≤ i32Max := by
    unfold RetryPolicy.cap i32Max
    omega
  rw [hc, Failure.outcome]
  split_ifs with hge
  · exact .inl rfl
  · exact .inr ⟨by omega, rfl⟩

theorem Effect.sound (h : Effect request k row written) (hl : row.live = true) (hs : Sound row) : Sound written := by
  have ha := hs.attempts_lt hl
  obtain ⟨hc, hd⟩ := live_iff.mp hl
  cases h with
  | claimed | renewed => exact ⟨.inl hc, fun _ => ha⟩
  | completed _ _ _ => exact ⟨.inr hd, fun _ => ha⟩
  | locked _ _ _ => exact hs
  | failed _ _ _ =>
    rename_i f _ _ _
    obtain ho | ⟨hlt, ho⟩ := outcome_cases f request.now ha
    · rw [ho]
      refine ⟨.inl hc, fun hl2 => ?_⟩
      cases (live_iff.mp hl2).2
    · rw [ho]
      exact ⟨.inl hc, fun _ => hlt⟩

/-- What a transaction commits follows what was there. -/
theorem Asserted.evolves (h : Asserted committed tx) : Evolves Follows committed (tx.writes.over committed) := by
  intro k row hr
  cases hw : tx.writes k with
  | none => exact ⟨row, (over_of_none hw).trans hr, follows_refl k row⟩
  | some written =>
    refine ⟨written, over_of_some hw, ?_⟩
    obtain ⟨message, -, hfr, -⟩ | ⟨row2, hr2, hl, he⟩ := h.effect hw
    · cases hfr.symm.trans hr
    · obtain rfl := some.inj (hr2.symm.trans hr)
      exact ⟨he.sameGroup, fun hd => by rw [hl] at hd; cases hd⟩

theorem Asserted.sound_commit (h : Asserted committed tx) (hs : ∀ k row, committed k = some row → Sound row) :
    ∀ k row, tx.writes.over committed k = some row → Sound row := by
  intro k row hr
  cases hw : tx.writes k with
  | none => exact hs k row ((over_of_none hw).symm.trans hr)
  | some written =>
    obtain rfl := some.inj ((over_of_some hw).symm.trans hr)
    obtain ⟨message, -, -, rfl⟩ | ⟨row, hr, hl, he⟩ := h.effect hw
    · exact ⟨.inl rfl, fun _ => (by decide : 0 < i32Max)⟩
    · exact he.sound hl (hs k row hr)

theorem Held.stable {l : Lease} (h : Held committed l row) (hs : after l.message = committed l.message) :
    Held after l row := ⟨hs.trans h.found, h.stamped, h.live⟩

/-- **What is asserted survives the commits of others.** -/
theorem Asserted.stable (h : Asserted committed tx) (hev : Evolves Follows committed after)
    (hs : ∀ k, (tx.writes k).isSome → after k = committed k) : Asserted after tx := by
  have hse : ∀ {k row} {w : Messages}, w = single k row → (∀ k, (w k).isSome → after k = committed k) →
      after k = committed k := by
    rintro k row - rfl hs
    exact hs k (by rw [single_self]; rfl)
  cases h with
  | first request => exact .first request
  | notRenewed hc => exact .notRenewed hc
  | notCompleted hc => exact .notCompleted hc
  | enqueued hc hfr => exact .enqueued hc ((hse rfl hs).trans hfr)
  | picking hc h =>
    refine .picking hc ⟨h.evolves.trans follows_trans hev, h.nodup, h.first, fun k hk => ?_, h.others⟩
    obtain ⟨row, hr, hd, htk⟩ := h.taken k hk
    exact ⟨row, (hs k (by simp only [htk, isSome_some])).trans hr, hd, htk⟩
  | renewed hc h => exact .renewed hc (h.stable (hse rfl hs))
  | completed hc h => exact .completed hc (h.stable (hse rfl hs))
  | locked hc h hsc => exact .locked hc (h.stable (hse rfl hs)) hsc
  | failed hc h => exact .failed hc (h.stable (hse rfl hs))

end effect

/-- **The discipline of the outbox.** -/
theorem outboxDiscipline :
    Discipline (outboxProgram W) (fun rows => ∀ k row, rows k = some row → Sound row) Asserted (Evolves Follows) where
  begins := fun _ request _ => .first request
  begins_writes := fun _ _ => rfl
  next := fun _ _ _ _ _ h hn => asserted_next h hn
  next_writes := fun _ _ _ _ _ hn hh => held_next hn hh
  commit := fun _ _ _ hsn h _ => ⟨h.sound_commit hsn, h.evolves⟩
  stable := fun _ _ _ _ h hev hs => h.stable hev hs

end IronAuth.Store.Outbox
