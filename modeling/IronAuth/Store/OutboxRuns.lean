import IronAuth.Store.Outbox

/-!
# Workers on the outbox

Any number of workers enqueue, claim, renew, complete and fail messages; a schedule says whose
statement comes next, and an abort is a crash. Each call reads the worker's clock when it begins. A
worker's clock does not go back, and a worker makes a call on a message under a lease that it was
handed; nothing relates the clocks of two workers.

The log tells what was committed. The history of a message is its part of the log.

## What is proved

* `outbox_delivers`: in every schedule: one outcome for each message and nothing after it, attempts
  that are the failures on record, no claim past a live message of its group; and, as long as no
  failure is reported at the end of time, an earlier holder changes nothing.
* `endOfTime_unfenced`: at the end of time one does.
-/

namespace IronAuth.Store.Outbox

open Lib Lib.ReadCommitted List Function

variable {W : Type}

/-! ### The log -/

/-- What was committed. A claim and a renewal hand out a lease. -/
inductive Event (W : Type) where
  | enqueued (message : ℕ)
  | claimed (worker : W) (lease : Lease)
  | renewed (worker : W) (lease : Lease)
  | completed (lease : Lease)
  | failed (lease : Lease) (outcome : FailureOutcome)
  deriving DecidableEq

def Event.message : Event W → ℕ
  | .enqueued message => message
  | .claimed _ lease => lease.message
  | .renewed _ lease => lease.message
  | .completed lease => lease.message
  | .failed lease _ => lease.message

/-- The lease that is handed out, and to whom. -/
def Event.handed : Event W → Option (W × Lease)
  | .claimed worker lease => some (worker, lease)
  | .renewed worker lease => some (worker, lease)
  | _ => none

def Event.isClaim : Event W → Bool
  | .claimed _ _ => true
  | _ => false

def Event.isFailure : Event W → Bool
  | .failed _ _ => true
  | _ => false

/-- A message is completed, or dead-lettered. -/
def Event.isOutcome : Event W → Bool
  | .completed _ => true
  | .failed _ (.deadLettered _) => true
  | _ => false

/-- What the log tells of a message. -/
def history (k : ℕ) (log : List (Event W)) : List (Event W) := log.filter fun event => event.message = k

variable (log : List (Event W))

/-- The leases that were handed out. -/
def leases : List (W × Lease) := log.filterMap Event.handed

def claims : ℕ := log.countP Event.isClaim

def failures : ℕ := log.countP Event.isFailure

def outcomes : ℕ := log.countP Event.isOutcome

theorem mem_leases_history {k : ℕ} {log : List (Event W)} {w : W} {l : Lease} :
    (w, l) ∈ leases (history k log) ↔ (w, l) ∈ leases log ∧ l.message = k := by
  simp only [leases, history, mem_filterMap, mem_filter, decide_eq_true_eq]
  constructor
  · rintro ⟨event, ⟨hm, hms⟩, hh⟩
    refine ⟨⟨event, hm, hh⟩, ?_⟩
    cases event <;> cases hh <;> exact hms
  · rintro ⟨⟨event, hm, hh⟩, hms⟩
    refine ⟨event, ⟨hm, ?_⟩, hh⟩
    cases event <;> cases hh <;> exact hms

/-- What a transaction adds to the log when it commits. -/
def events (tx : Tx W) : List (Event W) :=
  match tx.request.call, tx.stage with
  | .enqueue k _, .done _ => [.enqueued k]
  | .claim _, .picking _ _ _ picked =>
    picked.map fun k => .claimed tx.request.worker ⟨k, some tx.request.now, claims (history k log) + 1⟩
  | .renewLease lease, .done (.renewed true) => [.renewed tx.request.worker { lease with stamp := some tx.request.now }]
  | .complete lease, .done (.completed true) => [.completed lease]
  | .fail failure, .done (.failed outcome) => [.failed failure.lease outcome]
  | _, _ => []

/-! ### Schedules -/

/-- The database, the last reading of each worker's clock, what was committed when each open transaction
began, and the log. -/
structure State (T W : Type) where
  db : Database (fun _ : ℕ => Message) T (Tx W)
  clock : W → ℤ
  begun : T → Messages
  log : List (Event W)

/-- No message, and clocks that have not been read. -/
def State.empty (T : Type) (clock : W → ℤ) : State T W := ⟨⟨blank, fun _ => none⟩, clock, fun _ => blank, []⟩

section machine

variable {T : Type} [Fintype T] [DecidableEq T] [DecidableEq W]

/-- A call begins when the worker's clock has not gone back, under a lease that the worker was handed. -/
def State.permits (s : State T W) : Choice T (Request W) → Bool
  | .start t request =>
    (s.db.running t).isNone && s.clock request.worker ≤ request.now &&
      request.call.lease?.all fun lease => (request.worker, lease) ∈ leases s.log
  | .advance _ => true
  | .abort _ => true

/-- The clocks after a choice. -/
def State.readClock (s : State T W) : Choice T (Request W) → W → ℤ
  | .start _ request => Function.update s.clock request.worker request.now
  | _ => s.clock

/-- What was committed when the transactions began that are open after a choice. -/
def State.beginnings (s : State T W) : Choice T (Request W) → T → Messages
  | .start t _ => Function.update s.begun t s.db.committed
  | _ => s.begun

/-- One choice of the scheduler, with the transaction that it commits. -/
def State.step (s : State T W) (choice : Choice T (Request W)) : Option (Tx W) × State T W :=
  if s.permits choice then
    ((ReadCommitted.step (outboxProgram W) s.db choice).1,
      { db := (ReadCommitted.step (outboxProgram W) s.db choice).2
        clock := s.readClock choice
        begun := s.beginnings choice
        log := s.log ++ (ReadCommitted.step (outboxProgram W) s.db choice).1.elim [] (events s.log) })
  else (none, s)

end machine

/-! ### One message -/

/-- What a commit does to a message, and the event that tells of it. -/
inductive Recorded (request : Request W) (past : List (Event W)) (k : ℕ) (row : Message) : Message → Event W → Prop
  | claimed {claim : Claim} (hcall : request.call = .claim claim) (hdue : row.due request.scope request.now claim = true) :
      Recorded request past k row (row.stamp request.now) (.claimed request.worker ⟨k, some request.now, claims past + 1⟩)
  | renewed {lease : Lease} (hcall : request.call = .renewLease lease) (hmessage : lease.message = k)
      (hstamp : ∃ stamp, lease.stamp = some stamp ∧ row.claimedAt = some stamp) :
      Recorded request past k row (row.stamp request.now) (.renewed request.worker { lease with stamp := some request.now })
  | completed {lease : Lease} (hcall : request.call = .complete lease) (hmessage : lease.message = k)
      (hstamp : ∃ stamp, lease.stamp = some stamp ∧ row.claimedAt = some stamp) :
      Recorded request past k row (row.complete request.now) (.completed lease)
  | failed {failure : Failure} (hcall : request.call = .fail failure) (hmessage : failure.lease.message = k)
      (hstamp : ∃ stamp, failure.lease.stamp = some stamp ∧ row.claimedAt = some stamp) :
      Recorded request past k row
        (row.afterFailure request.now failure.error (failure.outcome request.now (countedAttempts row.attempts)))
        (.failed failure.lease (failure.outcome request.now (countedAttempts row.attempts)))

/-- What is recorded is an effect of the call. -/
theorem Recorded.effect {request : Request W} {past : List (Event W)} {k : ℕ} {row written : Message} {event : Event W}
    (h : Recorded request past k row written event) : Effect request k row written := by
  cases h with
  | claimed hc hd => exact .claimed hc hd
  | renewed hc hm hst => exact .renewed hc hm hst
  | completed hc hm hst => exact .completed hc hm hst
  | failed hc hm hst => exact .failed hc hm hst

/-- The stamp that a commit hands out is its reading of the clock. -/
theorem Recorded.handed {request : Request W} {past : List (Event W)} {k : ℕ} {row written : Message} {event : Event W}
    (h : Recorded request past k row written event) {w : W} {l : Lease} (hm : (w, l) ∈ leases [event]) :
    w = request.worker ∧ l.stamp = some request.now := by
  cases h with
  | claimed | renewed =>
    obtain ⟨rfl, hl⟩ := Prod.mk.inj (mem_singleton.mp hm)
    exact ⟨rfl, by rw [hl]⟩
  | completed | failed => cases hm

section commit

variable {locked : ℕ → Bool} {committed : Messages} {tx : Tx W}

theorem history_singleton (k : ℕ) (event : Event W) : history k [event] = if event.message = k then [event] else [] := by
  simp [history, filter_cons]

/-- The part of a claim's events that concerns one message. -/
theorem history_map_claimed (w : W) (now : ℤ) (ho : ℕ → ℕ) {p : List ℕ} (h : p.Nodup) (k : ℕ) :
    history k (p.map fun k => (.claimed w ⟨k, some now, ho k⟩ : Event W)) =
      if k ∈ p then [.claimed w ⟨k, some now, ho k⟩] else [] := by
  induction p with
  | nil => rfl
  | cons other p ih =>
    obtain ⟨hn, hnd⟩ := nodup_cons.mp h
    rw [map_cons, history, filter_cons, ← history, ih hnd]
    by_cases hk : other = k
    · subst hk
      simp [Event.message, hn]
    · simp [Event.message, hk, Ne.symm hk]

/-- A transaction commits after its last statement. -/
theorem next_first_ne_commit (request : Request W) : next locked committed ⟨request, .first, blank⟩ ≠ .commit := by
  obtain ⟨worker, scope, now, call⟩ := request
  cases call with
  | enqueue k message => exact insertUnique_ne_commit (by simp)
  | claim claim => simp [next]
  | renewLease | complete | fail => exact underLease_ne_commit (by simp) (by simp)

/-- One row is written, and one event tells of it. -/
theorem single_recorded {k2 : ℕ} {written : Message} (event : Event W) (hm : event.message = k2) (k : ℕ) :
    (single k2 written k = none ∧ history k [event] = []) ∨
      k = k2 ∧ single k2 written k = some written ∧ history k [event] = [event] := by
  by_cases hk : k = k2
  · subst hk
    exact .inr ⟨rfl, single_self .., by rw [history_singleton, if_pos hm]⟩
  · exact .inl ⟨single_of_ne hk written, by rw [history_singleton, hm, if_neg (Ne.symm hk)]⟩

/-- **What a commit does to a message**, and what the log says about it: nothing, or it is new, or its
row has changed as the one event tells. -/
theorem recorded_commit (log : List (Event W)) (h : Asserted committed tx) (hco : next locked committed tx = .commit) (k : ℕ) :
    (tx.writes k = none ∧ history k (events log tx) = []) ∨
    (∃ message : NewOutboxMessage, committed k = none ∧
      tx.writes k = some (message.row tx.request.scope tx.request.now) ∧ history k (events log tx) = [.enqueued k]) ∨
    ∃ row written event, committed k = some row ∧ row.live = true ∧ tx.writes k = some written ∧
      history k (events log tx) = [event] ∧ Recorded tx.request (history k log) k row written event := by
  cases h with
  | first request => exact absurd hco (next_first_ne_commit request)
  | locked hc _ _ =>
    simp only [next, hc] at hco
    obtain hw | ⟨m, -, -, -, hh⟩ | hm := findUpdate_eq hco
    · cases hw
    · cases hh
    · cases hm
  | notRenewed hc | notCompleted hc =>
    simp only [events, hc]
    exact .inl ⟨rfl, rfl⟩
  | enqueued hc hfr =>
    rename_i request k2 message
    simp only [events, hc]
    obtain ho | ⟨rfl, hw, hh⟩ := single_recorded (.enqueued k2 : Event W) rfl k
    · exact .inl ho
    · exact .inr (.inl ⟨message, hfr, hw, hh⟩)
  | picking hc h =>
    rename_i request claim snapshot t left p writes
    have hnd : p.Nodup := (nodup_append.mp h.nodup).1
    simp only [events, hc, history_map_claimed request.worker request.now _ hnd k]
    by_cases hk : k ∈ p
    · obtain ⟨row, hr, hd, hw⟩ := h.taken k hk
      have hl : row.live = true := by
        simp only [Message.due, Bool.and_eq_true] at hd
        exact hd.1.1.2
      exact .inr (.inr ⟨row, _, _, hr, hl, hw, if_pos hk, .claimed hc hd⟩)
    · exact .inl ⟨h.others k hk, if_neg hk⟩
  | renewed hc h =>
    rename_i request lease row
    simp only [events, hc]
    obtain ho | ⟨rfl, hw, hh⟩ :=
      single_recorded (.renewed request.worker { lease with stamp := some request.now }) rfl k
    · exact .inl ho
    · exact .inr (.inr ⟨row, _, _, h.found, h.live, hw, hh, .renewed hc rfl h.stamped⟩)
  | completed hc h =>
    rename_i request lease row
    simp only [events, hc]
    obtain ho | ⟨rfl, hw, hh⟩ := single_recorded (.completed lease : Event W) rfl k
    · exact .inl ho
    · exact .inr (.inr ⟨row, _, _, h.found, h.live, hw, hh, .completed hc rfl h.stamped⟩)
  | failed hc h =>
    rename_i request f row
    simp only [events, hc]
    obtain ho | ⟨rfl, hw, hh⟩ := single_recorded (.failed f.lease
      (f.outcome request.now (countedAttempts row.attempts)) : Event W) rfl k
    · exact .inl ho
    · exact .inr (.inr ⟨row, _, _, h.found, h.live, hw, hh, .failed hc rfl h.stamped⟩)

end commit

/-! ### What a history says about its message -/

section history

variable {request : Request W} {past : List (Event W)} {k : ℕ} {row written : Message} {event : Event W}

theorem history_append (k : ℕ) (log added : List (Event W)) : history k (log ++ added) = history k log ++ history k added :=
  filter_append ..

theorem leases_append (log added : List (Event W)) : leases (log ++ added) = leases log ++ leases added :=
  filterMap_append ..

/-- The attempts are the failures, and the outcome is there when the message has one. -/
structure Tracked (past : List (Event W)) (row : Message) : Prop where
  counted : row.attempts = failures past
  ended : outcomes past = if row.live then 0 else 1

theorem Tracked.recorded (h : Tracked past row) (hl : row.live = true) (hs : Sound row)
    (hr : Recorded request past k row written event) : Tracked (past ++ [event]) written := by
  obtain ⟨ha, ho⟩ := h
  rw [hl] at ho
  have hf : failures (past ++ [event]) = row.attempts + if event.isFailure then 1 else 0 := by
    rw [failures, countP_append, countP_singleton, ha, failures]
  have he : outcomes (past ++ [event]) = if event.isOutcome then 1 else 0 := by
    rw [outcomes, countP_append, countP_singleton, ← outcomes, ho, if_pos rfl, Nat.zero_add]
  cases hr with
  | claimed | renewed => exact ⟨hf.symm, he.trans (if_pos hl).symm⟩
  | completed _ _ _ => exact ⟨hf.symm, he⟩
  | failed _ _ _ =>
    rename_i f _ _ _
    obtain hot | ⟨-, hot⟩ := outcome_cases f request.now (hs.attempts_lt hl)
    · rw [hot] at hf he ⊢
      refine ⟨hf.symm, he.trans ?_⟩
      simp [Message.afterFailure, Message.live, Event.isOutcome]
    · rw [hot] at hf he ⊢
      exact ⟨hf.symm, he.trans (if_pos hl).symm⟩

/-- A stamp is the highest that was handed out, and only to the last holder; a message that is free
is due after all of them. -/
structure Fenced (past : List (Event W)) (row : Message) : Prop where
  held : ∀ stamp, row.claimedAt = some stamp → ∀ worker lease, (worker, lease) ∈ leases past → ∀ handed,
    lease.stamp = some handed → handed ≤ stamp ∧ (handed = stamp → lease.holder = claims past)
  free : row.claimedAt = none → ∀ worker lease, (worker, lease) ∈ leases past → ∀ handed, lease.stamp = some handed →
    handed < row.nextAttemptAt

/-- The stamps that were handed out before a claim are below its stamp. -/
theorem Fenced.lt_of_due (h : Fenced past row) {c : Claim} (hd : row.due request.scope request.now c = true)
    {w : W} {l : Lease} (hm : (w, l) ∈ leases past) {ha : ℤ} (hh : l.stamp = some ha) :
    ha < request.now := by
  simp only [Message.due, Bool.and_eq_true, decide_eq_true_eq] at hd
  obtain ⟨⟨-, hn⟩, he⟩ := hd
  cases hc : row.claimedAt with
  | none => exact (h.free hc w l hm ha hh).trans_le hn
  | some stamp =>
    rw [hc, Option.all_some, decide_eq_true_eq] at he
    have hle := (h.held stamp hc w l hm ha hh).1
    have hw : 0 ≤ windowMicros c.lease := by
      unfold windowMicros i64Max
      omega
    omega

/-- The lease under which a message is found is one of its last holder. -/
theorem Fenced.holder_eq (h : Fenced past row) {w : W} {l : Lease} (hm : (w, l) ∈ leases past)
    (hst : ∃ stamp, l.stamp = some stamp ∧ row.claimedAt = some stamp) : l.holder = claims past := by
  obtain ⟨stamp, hh, hc⟩ := hst
  exact (h.held stamp hc w l hm stamp hh).2 rfl

/-- **A commit keeps the fence**, if the stamp it found is not above its clock, and if a failure is not
reported at the end of time. -/
theorem Fenced.recorded (h : Fenced past row) (hr : Recorded request past k row written event)
    (hlea : ∀ lease, request.call.lease? = some lease → (request.worker, lease) ∈ leases past ∧
      ∀ stamp, lease.stamp = some stamp → stamp ≤ request.now)
    (he : ∀ f, request.call = .fail f → request.now < i64Max) (hl : written.live = true) :
    Fenced (past ++ [event]) written := by
  cases hr with
  | claimed hc hd =>
    have hcl : claims (past ++ [(.claimed request.worker ⟨k, some request.now, claims past + 1⟩ : Event W)]) =
        claims past + 1 := by
      rw [claims, countP_append]
      rfl
    refine ⟨?_, fun hn => (by cases hn)⟩
    intro stamp hst worker lease hme handed hh
    obtain rfl : request.now = stamp := Option.some.inj hst
    rw [hcl]
    rw [leases_append, mem_append] at hme
    obtain hme | hme := hme
    · have hlt := h.lt_of_due hd hme hh
      exact ⟨hlt.le, fun heq => absurd heq hlt.ne⟩
    · obtain ⟨rfl, rfl⟩ := Prod.mk.inj (mem_singleton.mp hme)
      exact ⟨(Option.some.inj hh).ge, fun _ => rfl⟩
  | renewed hc hms hst =>
    rename_i lease
    obtain ⟨hm, hno⟩ := hlea lease (by rw [hc]; rfl)
    have hho := h.holder_eq hm hst
    obtain ⟨old, hold, hclm⟩ := hst
    have hle := hno old hold
    have hcl : claims (past ++ [(.renewed request.worker { lease with stamp := some request.now } : Event W)]) =
        claims past := by
      rw [claims, countP_append]
      rfl
    refine ⟨?_, fun hn => (by cases hn)⟩
    intro stamp hst worker other hme handed hh
    obtain rfl : request.now = stamp := Option.some.inj hst
    rw [hcl]
    rw [leases_append, mem_append] at hme
    obtain hme | hme := hme
    · obtain ⟨hb, hla⟩ := h.held old hclm worker other hme handed hh
      exact ⟨hb.trans hle, fun heq => hla (le_antisymm hb (heq ▸ hle))⟩
    · obtain ⟨rfl, rfl⟩ := Prod.mk.inj (mem_singleton.mp hme)
      exact ⟨(Option.some.inj hh).ge, fun _ => hho⟩
  | completed _ _ _ => cases (live_iff.mp hl).1
  | failed hc hms hst =>
    rename_i f
    obtain ⟨hm, hno⟩ := hlea f.lease (by rw [hc]; rfl)
    obtain ⟨old, hold, hclm⟩ := hst
    have hle := hno old hold
    have hls : ∀ outcome, leases (past ++ [(.failed f.lease outcome : Event W)]) = leases past := by
      intro outcome
      rw [leases_append]
      exact append_nil _
    cases ho : f.outcome request.now (countedAttempts row.attempts) with
    | notFound =>
      unfold Failure.outcome at ho
      split_ifs at ho
    | deadLettered attempts =>
      rw [ho] at hl
      cases (live_iff.mp hl).2
    | retrying attempts next =>
      have hne : request.now < next := by
        unfold Failure.outcome at ho
        split_ifs at ho
        cases ho
        -- a retry lies in the future, unless time ends before
        have hn := he f hc
        have hb := Nat.mul_le_mul (le_max_right f.policy.retryBaseSecs 1)
          (Nat.one_le_two_pow (n := min (countedAttempts row.attempts - 1) 16))
        simp only [nextAttemptMicros, saturatingAdd, outboxMaxBackoffSecs, i64Max] at hn ⊢
        omega
      refine ⟨fun stamp hst => (by cases hst), fun _ worker lease hme handed hh => ?_⟩
      rw [hls] at hme
      exact ((h.held old hclm worker lease hme handed hh).1.trans hle).trans_lt hne

end history

/-! ### Every schedule -/

/-- A statement keeps the call, and a claim keeps the snapshot that it has taken. -/
theorem next_keeps {locked : ℕ → Bool} {committed : Messages} {tx tx2 : Tx W} (hn : next locked committed tx = .next tx2) :
    tx2.request = tx.request ∧ ∀ snapshot t left picked, tx2.stage = .picking snapshot t left picked →
      snapshot = committed ∨ ∃ t left picked, tx.stage = .picking snapshot t left picked := by
  obtain ⟨stage, rfl | ⟨k, row, -, rfl⟩, hs⟩ := next_moves hn
  · exact ⟨rfl, hs⟩
  · exact ⟨rfl, hs⟩

section runs

variable {T : Type} [Fintype T] [DecidableEq T] [DecidableEq W] {s : State T W} {choice : Choice T (Request W)}

/-- What a step does to the rows and to the log: nothing, or a transaction commits. -/
theorem step_rows (s : State T W) (choice : Choice T (Request W)) :
    ((s.step choice).2.db.committed = s.db.committed ∧ (s.step choice).2.log = s.log) ∨
    ∃ locked t tx, choice = .advance t ∧ s.db.running t = some tx ∧ next locked s.db.committed tx = .commit ∧
      (s.step choice).2.db.committed = tx.writes.over s.db.committed ∧ (s.step choice).2.log = s.log ++ events s.log tx := by
  unfold State.step
  split_ifs with hp
  · obtain hs | ⟨t, hs⟩ | ⟨t, request, -, hs⟩ | ⟨t, tx, next, -, -, hs⟩ | ⟨t, tx, rfl, htx, hc, hs⟩ :=
      step_cases (outboxProgram W) s.db choice
    iterate 4 exact .inl (by rw [hs]; exact ⟨rfl, append_nil _⟩)
    exact .inr ⟨_, t, tx, rfl, htx, hc, by rw [hs]; exact ⟨rfl, rfl⟩⟩
  · exact .inl ⟨rfl, rfl⟩

/-- The transaction machine under a step that is permitted. -/
theorem step_db (h : s.permits choice = true) : (s.step choice).2.db = (ReadCommitted.step (outboxProgram W) s.db choice).2 := by
  rw [State.step, if_pos h]

theorem step_of_not_permits (h : ¬ s.permits choice = true) : (s.step choice).2 = s := by
  rw [State.step, if_neg h]

/-- The rows are what the log says, and what a claim has read was committed when it began, or later. -/
structure Consistent (s : State T W) : Prop where
  kept : Kept (outboxProgram W) (fun rows => ∀ k row, rows k = some row → Sound row) Asserted s.db
  unborn : ∀ k, s.db.committed k = none → history k s.log = []
  tracked : ∀ k row, s.db.committed k = some row → Tracked (history k s.log) row
  begun : ∀ t tx, s.db.running t = some tx → Evolves Follows (s.begun t) s.db.committed ∧
    ∀ snapshot todo left picked, tx.stage = .picking snapshot todo left picked → Evolves Follows (s.begun t) snapshot

omit [Fintype T] [DecidableEq T] [DecidableEq W] in
theorem consistent_empty (c : W → ℤ) : Consistent (State.empty T c) where
  kept := {
    committed := fun _ _ hr => by cases hr
    running := fun _ _ htx => by cases htx
    exclusive := fun _ _ _ _ _ htx => by cases htx }
  unborn := fun _ _ => rfl
  tracked := fun _ _ hr => by cases hr
  begun := fun _ _ htx => by cases htx

variable {t : T} {tx : Tx W} {k : ℕ} {row : Message}

omit [Fintype T] in
/-- What was committed when an open transaction began is not forgotten. -/
theorem beginnings_of_running (hp : s.permits choice = true) (htx : s.db.running t = some tx) :
    s.beginnings choice t = s.begun t := by
  cases choice with
  | start other request =>
    simp only [State.permits, Bool.and_eq_true, Option.isNone_iff_eq_none] at hp
    have hne : t ≠ other := by
      rintro rfl
      cases htx.symm.trans hp.1.1
    exact update_of_ne hne ..
  | advance | abort => rfl

section

variable (h : Consistent s)

include h

theorem begun_step (hp : s.permits choice = true) {tx2 : Tx W}
    (htx2 : (s.step choice).2.db.running t = some tx2) :
    Evolves Follows (s.beginnings choice t) s.db.committed ∧
      ∀ snapshot td left p, tx2.stage = .picking snapshot td left p →
        Evolves Follows (s.beginnings choice t) snapshot := by
  rw [step_db hp] at htx2
  obtain hb | ⟨request, rfl, rfl⟩ | ⟨locked, tx, htx, hn⟩ := running_step htx2
  · rw [beginnings_of_running hp hb]
    exact h.begun t tx2 hb
  · have hbe : s.beginnings (.start t request) t = s.db.committed := update_self ..
    rw [hbe]
    refine ⟨.refl follows_refl _, fun _ _ _ _ hst => ?_⟩
    cases hst
  · rw [beginnings_of_running hp htx]
    obtain ⟨hev, hs⟩ := h.begun t tx htx
    refine ⟨hev, fun snapshot td left p hst => ?_⟩
    obtain rfl | ⟨t2, left2, p2, hs2⟩ := (next_keeps hn).2 _ _ _ _ hst
    · exact hev
    · exact hs snapshot t2 left2 p2 hs2

/-- **What a step does to a message**: nothing, or it is new, or its row has changed as one event tells. -/
theorem message_step (choice : Choice T (Request W)) (k : ℕ) :
    ((s.step choice).2.db.committed k = s.db.committed k ∧ history k (s.step choice).2.log = history k s.log) ∨
    (∃ (message : NewOutboxMessage) (scope : Scope) (now : ℤ), s.db.committed k = none ∧
      (s.step choice).2.db.committed k = some (message.row scope now) ∧ history k (s.step choice).2.log = [.enqueued k]) ∨
    ∃ t tx row written event, s.db.running t = some tx ∧ s.db.committed k = some row ∧ row.live = true ∧
      (s.step choice).2.db.committed k = some written ∧ history k (s.step choice).2.log = history k s.log ++ [event] ∧
      Recorded tx.request (history k s.log) k row written event := by
  obtain ⟨hs, hlo⟩ | ⟨locked, t, tx, -, htx, hc, hr, hlo⟩ := step_rows s choice
  · exact .inl ⟨by rw [hs], by rw [hlo]⟩
  · rw [hr, hlo, history_append]
    obtain ⟨hw, hh⟩ | ⟨message, hfr, hw, hh⟩ | ⟨row, written, event, hro, hl, hw, hh, hre⟩ :=
      recorded_commit s.log (h.kept.running t tx htx) hc k
    · exact .inl ⟨over_of_none hw, by rw [hh, append_nil]⟩
    · exact .inr (.inl ⟨message, _, _, hfr, over_of_some hw, by rw [hh, h.unborn k hfr, nil_append]⟩)
    · exact .inr (.inr ⟨t, tx, row, written, event, htx, hro, hl, over_of_some hw, by rw [hh], hre⟩)

theorem consistent_step (choice : Choice T (Request W)) : Consistent (s.step choice).2 := by
  by_cases hp : s.permits choice = true
  swap
  · rw [step_of_not_permits hp]
    exact h
  have hk := discipline_step outboxDiscipline h.kept choice
  have hg := guarantee_step outboxDiscipline (Evolves.refl follows_refl) h.kept choice
  rw [← step_db hp] at hk hg
  have hb : (s.step choice).2.begun = s.beginnings choice := by rw [State.step, if_pos hp]
  refine ⟨hk, ?_, ?_, ?_⟩
  · intro k hn
    obtain ⟨hs, hh⟩ | ⟨_, _, _, -, hw, -⟩ | ⟨_, _, _, _, _, -, -, -, hw, -⟩ := message_step h choice k
    · exact hh.trans (h.unborn k (hs.symm.trans hn))
    · cases hn.symm.trans hw
    · cases hn.symm.trans hw
  · intro k row2 hr2
    obtain ⟨hs, hh⟩ | ⟨_, _, _, -, hw, hh⟩ | ⟨t, tx, row, written, event, htx, hro, hl, hw, hh, hre⟩ :=
      message_step h choice k
    · rw [hh]
      exact h.tracked k row2 (hs.symm.trans hr2)
    · obtain rfl := Option.some.inj (hw.symm.trans hr2)
      rw [hh]
      exact ⟨rfl, rfl⟩
    · obtain rfl := Option.some.inj (hw.symm.trans hr2)
      rw [hh]
      exact (h.tracked k row hro).recorded hl (h.kept.committed k row hro) hre
  · intro t tx2 htx2
    obtain ⟨hev, hsn⟩ := begun_step h hp htx2
    rw [hb]
    exact ⟨hev.trans follows_trans hg, hsn⟩

/-! #### Outcomes -/

/-- A message with an outcome, and what the log tells of it, do not change. -/
theorem ended_step (hro : s.db.committed k = some row) (he : row.live = false)
    (choice : Choice T (Request W)) :
    (s.step choice).2.db.committed k = some row ∧ history k (s.step choice).2.log = history k s.log := by
  obtain ⟨hs, hh⟩ | ⟨_, _, _, hfr, -⟩ | ⟨_, _, row2, _, _, -, hr2, hl, -⟩ := message_step h choice k
  · exact ⟨hs.trans hro, hh⟩
  · cases hfr.symm.trans hro
  · obtain rfl := Option.some.inj (hr2.symm.trans hro)
    rw [he] at hl
    cases hl

end

omit [Fintype T] [DecidableEq T] [DecidableEq W] in
/-- No open transaction has taken a message with an outcome. -/
theorem not_taken_of_ended (h : Consistent s) (hr : s.db.committed k = some row)
    (he : row.live = false) (htx : s.db.running t = some tx) : tx.writes k = none := by
  cases hw : tx.writes k with
  | none => rfl
  | some written =>
    obtain ⟨message, -, hfr, -⟩ | ⟨row2, hr2, hl, -⟩ := (h.kept.running t tx htx).effect hw
    · cases hfr.symm.trans hr
    · obtain rfl := Option.some.inj (hr2.symm.trans hr)
      rw [he] at hl
      cases hl

/-! #### Order -/

omit [Fintype T] [DecidableEq T] [DecidableEq W] in
/-- **No message is claimed past a live one of its group** that was committed when the claim began. -/
theorem ended_before (h : Consistent s) (htx : s.db.running t = some tx) {c : Claim}
    (hc : tx.request.call = .claim c) {b : ℕ} {o : Message} (hw : tx.writes k = some row) (hlt : b < k)
    (ho : s.begun t b = some o) (hg : row.SameGroup o) :
    ∃ ended, s.db.committed b = some ended ∧ ended.live = false := by
  have hb := (h.begun t tx htx).2
  have has := h.kept.running t tx htx
  cases has with
  | first | notRenewed | notCompleted => cases hw
  | enqueued hc2 _ | renewed hc2 _ | completed hc2 _ | locked hc2 _ _ | failed hc2 _ => cases hc2.symm.trans hc
  | picking hc2 hp =>
    rename_i request c2 snapshot td left picked writes
    have hpc : k ∈ picked := by
      by_contra hn
      cases (hp.others k hn).symm.trans hw
    obtain ⟨row2, hr2, -, htk⟩ := hp.taken k hpc
    obtain rfl := Option.some.inj (htk.symm.trans hw)
    obtain ⟨m, hm, hf⟩ := hp.first k (mem_append_left td hpc)
    -- the message is of the group that it was of in the snapshot
    obtain ⟨row3, hr3, ⟨hsc, hco, hk⟩, -⟩ := hp.evolves k m hm
    obtain rfl := Option.some.inj (hr3.symm.trans hr2)
    obtain ⟨o2, ho2, ⟨hsc2, hco2, hk2⟩, -⟩ := hb snapshot td left picked rfl b o ho
    obtain ⟨hsc3, hc3, hk3⟩ := hg
    have he : o2.live = false := by
      by_contra hl
      have hbl : blocked snapshot k m = true := by
        rw [blocked, any_eq_true]
        refine ⟨b, mem_range.mpr hlt, ?_⟩
        rw [ho2, Option.any_some, Bool.and_eq_true, decide_eq_true_eq]
        exact ⟨⟨(hsc2.trans hsc3).trans hsc, (hco2.trans hc3).trans hco, (hk2.trans hk3).trans hk⟩, Bool.not_eq_false _ ▸ hl⟩
      rw [hf] at hbl
      cases hbl
    obtain ⟨o3, ho3, -, hs⟩ := hp.evolves b o2 ho2
    obtain rfl := hs he
    exact ⟨o3, ho3, he⟩

/-! #### Fences -/

/-- The fences stand, no lease is from the future of its worker, and the calls under way were made under
leases of the past, before the end of time. -/
structure Fences (s : State T W) : Prop where
  rows : ∀ k row, s.db.committed k = some row → row.live = true → Fenced (history k s.log) row
  clocks : ∀ worker lease, (worker, lease) ∈ leases s.log → ∀ stamp, lease.stamp = some stamp → stamp ≤ s.clock worker
  requests : ∀ t tx, s.db.running t = some tx → tx.request.now ≤ s.clock tx.request.worker ∧
    (∀ lease, tx.request.call.lease? = some lease → (tx.request.worker, lease) ∈ leases s.log ∧
      ∀ stamp, lease.stamp = some stamp → stamp ≤ tx.request.now) ∧
    ∀ failure, tx.request.call = .fail failure → tx.request.now < i64Max

/-- No failure is reported at the end of time. -/
def InTime : Choice T (Request W) → Prop
  | .start _ request => ∀ failure, request.call = .fail failure → request.now < i64Max
  | .advance _ => True
  | .abort _ => True

omit [Fintype T] [DecidableEq T] [DecidableEq W] in
theorem fences_empty (c : W → ℤ) : Fences (State.empty T c) where
  rows := fun _ _ hr => by cases hr
  clocks := fun _ _ hm => by cases hm
  requests := fun _ _ htx => by cases htx

omit [Fintype T] [DecidableEq T] in
/-- A clock does not go back. -/
theorem clock_le_readClock (hp : s.permits choice = true) (worker : W) : s.clock worker ≤ s.readClock choice worker := by
  cases choice with
  | start t request =>
    simp only [State.permits, Bool.and_eq_true, decide_eq_true_eq] at hp
    by_cases hw : worker = request.worker
    · subst hw
      rw [State.readClock, update_self]
      exact hp.1.2
    · rw [State.readClock, update_of_ne hw]
  | advance | abort => exact le_rfl

/-- The calls that are under way after a step. -/
theorem requests_step (h : Fences s) (hin : InTime choice) (hp : s.permits choice = true)
    {tx2 : Tx W} (htx2 : (s.step choice).2.db.running t = some tx2) :
    tx2.request.now ≤ s.readClock choice tx2.request.worker ∧
    (∀ lease, tx2.request.call.lease? = some lease → (tx2.request.worker, lease) ∈ leases s.log ∧
      ∀ stamp, lease.stamp = some stamp → stamp ≤ tx2.request.now) ∧
    ∀ f, tx2.request.call = .fail f → tx2.request.now < i64Max := by
  rw [step_db hp] at htx2
  obtain hb | ⟨request, rfl, rfl⟩ | ⟨locked, tx, htx, hn⟩ := running_step htx2
  · obtain ⟨hcl, hl, he⟩ := h.requests t tx2 hb
    exact ⟨hcl.trans (clock_le_readClock hp _), hl, he⟩
  · simp only [State.permits, Bool.and_eq_true, decide_eq_true_eq, Option.all_eq_true] at hp
    obtain ⟨⟨-, hcl⟩, hl⟩ := hp
    refine ⟨?_, fun lease hca => ?_, hin⟩
    · show request.now ≤ Function.update s.clock request.worker request.now request.worker
      rw [update_self]
    · exact ⟨hl lease hca, fun stamp hst => (h.clocks _ lease (hl lease hca) stamp hst).trans hcl⟩
  · obtain ⟨hcl, hl, he⟩ := h.requests t tx htx
    rw [(next_keeps hn).1]
    exact ⟨hcl.trans (clock_le_readClock hp _), hl, he⟩

/-- **The fences stand after a step.** -/
theorem fences_step (hc : Consistent s) (h : Fences s) (hin : InTime choice) : Fences (s.step choice).2 := by
  by_cases hp : s.permits choice = true
  swap
  · rw [step_of_not_permits hp]
    exact h
  have hcl : (s.step choice).2.clock = s.readClock choice := by rw [State.step, if_pos hp]
  have hg : ∀ entry, entry ∈ leases s.log → entry ∈ leases (s.step choice).2.log := by
    intro entry hm
    obtain ⟨-, hlo⟩ | ⟨locked, t, tx, -, -, -, -, hlo⟩ := step_rows s choice
    · rwa [hlo]
    · rw [hlo, leases_append]
      exact mem_append_left _ hm
  refine ⟨?_, ?_, ?_⟩
  · intro k row2 hr2 hl2
    obtain ⟨hs, hh⟩ | ⟨_, _, _, -, hw, hh⟩ | ⟨t, tx, row, written, event, htx, hro, hl, hw, hh, hre⟩ :=
      message_step hc choice k
    · rw [hh]
      exact h.rows k row2 (hs.symm.trans hr2) hl2
    · obtain rfl := Option.some.inj (hw.symm.trans hr2)
      rw [hh]
      refine ⟨fun stamp hst => ?_, fun _ worker lease hm => ?_⟩
      · cases hst
      · cases hm
    · obtain rfl := Option.some.inj (hw.symm.trans hr2)
      rw [hh]
      obtain ⟨-, hle, he⟩ := h.requests t tx htx
      refine (h.rows k row hro hl).recorded hre (fun lease hca => ?_) he hl2
      obtain ⟨hm, hn⟩ := hle lease hca
      refine ⟨mem_leases_history.mpr ⟨hm, ?_⟩, hn⟩
      exact (hre.effect.under hca).1
  · intro worker lease hm stamp hst
    rw [hcl]
    have hol : (worker, lease) ∈ leases s.log → stamp ≤ s.readClock choice worker := fun hm =>
      (h.clocks worker lease hm stamp hst).trans (clock_le_readClock hp worker)
    have hm := mem_leases_history.mpr ⟨hm, rfl⟩
    obtain ⟨-, hh⟩ | ⟨_, _, _, -, -, hh⟩ | ⟨t, tx, row, written, event, htx, -, -, -, hh, hre⟩ :=
      message_step hc choice lease.message
    · rw [hh] at hm
      exact hol (mem_leases_history.mp hm).1
    · rw [hh] at hm
      cases hm
    · rw [hh, leases_append, mem_append] at hm
      obtain hm | hm := hm
      · exact hol (mem_leases_history.mp hm).1
      · obtain ⟨rfl, hn⟩ := hre.handed hm
        obtain rfl := Option.some.inj (hn.symm.trans hst)
        exact (h.requests t tx htx).1.trans (clock_le_readClock hp _)
  · intro t tx2 htx2
    obtain ⟨hn, hle, he⟩ := requests_step h hin hp htx2
    rw [hcl]
    exact ⟨hn, fun lease hca => ⟨hg _ (hle lease hca).1, (hle lease hca).2⟩, he⟩

omit [Fintype T] [DecidableEq T] [DecidableEq W] in
/-- **An earlier holder has taken nothing.** -/
theorem not_taken_of_earlier (hc : Consistent s) (h : Fences s) (htx : s.db.running t = some tx) {l : Lease}
    (hca : tx.request.call.lease? = some l) (he : l.holder < claims (history l.message s.log)) (k : ℕ) :
    tx.writes k = none := by
  cases hw : tx.writes k with
  | none => rfl
  | some written =>
    obtain ⟨message, hen, -⟩ | ⟨row, hr, hl, hef⟩ := (hc.kept.running t tx htx).effect hw
    · rw [hen] at hca
      cases hca
    · obtain ⟨rfl, hst⟩ := hef.under hca
      obtain ⟨hm, -⟩ := (h.requests t tx htx).2.1 l hca
      have hh := (h.rows _ row hr hl).holder_eq (mem_leases_history.mpr ⟨hm, rfl⟩) hst
      exact absurd hh he.ne

/-! #### The claims of the queue -/

/-- What the queue owes its producers and consumers, in a state and in every continuation. -/
structure Delivers (s : State T W) : Prop where
  /-- At most one outcome. -/
  one_outcome : ∀ k row, s.db.committed k = some row →
    (row.completedAt = none ∨ row.deadLetteredAt = none) ∧ outcomes (history k s.log) ≤ 1
  /-- After its outcome a message is never claimed, or changed, or taken by a transaction. -/
  final : ∀ k row, s.db.committed k = some row → row.live = false → ∀ later : List (Choice T (Request W)),
    (Machine.run State.step s later).db.committed k = some row ∧
    history k (Machine.run State.step s later).log = history k s.log ∧
    ∀ t tx, (Machine.run State.step s later).db.running t = some tx → tx.writes k = none
  /-- The attempts are the failures that were reported as recorded. -/
  attempts : ∀ k row, s.db.committed k = some row → row.attempts = failures (history k s.log)
  /-- While a claim holds a message, the earlier ones of its group that were committed when the claim
  began are completed or dead-lettered. -/
  ordered : ∀ t tx claim, s.db.running t = some tx → tx.request.call = .claim claim → ∀ k row, tx.writes k = some row →
    ∀ b other, b < k → s.begun t b = some other → row.SameGroup other →
      ∃ ended, s.db.committed b = some ended ∧ ended.live = false

/-- Once a message has been claimed again, a call of an earlier holder has taken no row, and its next step
leaves the rows and the log as they are. -/
def FencedOff (s : State T W) : Prop :=
  ∀ t tx lease, s.db.running t = some tx → tx.request.call.lease? = some lease →
    lease.holder < claims (history lease.message s.log) →
      (∀ k, tx.writes k = none) ∧ (s.step (.advance t)).2.db.committed = s.db.committed ∧
        history lease.message (s.step (.advance t)).2.log = history lease.message s.log

theorem Consistent.delivers (h : Consistent s) : Delivers s where
  one_outcome := by
    intro k row hr
    refine ⟨(h.kept.committed k row hr).one_outcome, ?_⟩
    rw [(h.tracked k row hr).ended]
    split_ifs
    · exact Nat.zero_le 1
    · exact le_rfl
  final := by
    intro k row hr he l
    obtain ⟨hc, hr2, hh⟩ := Machine.run_of_along (P := fun _ _ => True) (I := fun s2 => Consistent s2 ∧
      s2.db.committed k = some row ∧ history k s2.log = history k s.log) (fun s2 choice h2 _ => by
        obtain ⟨hr3, hh⟩ := ended_step h2.1 h2.2.1 he choice
        exact ⟨consistent_step h2.1 choice, hr3, hh.trans h2.2.2⟩) ⟨h, hr, rfl⟩
      (Machine.along_of_forall_mem fun _ _ => trivial : Machine.Along _ _ _ l)
    exact ⟨hr2, hh, fun t tx htx => not_taken_of_ended hc hr2 he htx⟩
  attempts := fun k row hr => (h.tracked k row hr).counted
  ordered := fun t tx claim htx hc k row hw b other hlt ho hg =>
    ended_before h htx hc hw hlt ho hg

theorem Fences.fencedOff (hc : Consistent s) (h : Fences s) : FencedOff s := by
  intro t tx lease htx hca he
  have hbl := not_taken_of_earlier hc h htx hca he
  refine ⟨hbl, ?_⟩
  obtain ⟨hs, hl⟩ | ⟨locked, t2, tx2, heq, htx2, hco, hr, hl⟩ := step_rows s (.advance t)
  · exact ⟨hs, by rw [hl]⟩
  · obtain rfl := Choice.advance.inj heq
    obtain rfl := Option.some.inj (htx.symm.trans htx2)
    refine ⟨hr.trans (over_of_blank hbl), ?_⟩
    rw [hl, history_append]
    obtain ⟨-, hh⟩ | ⟨message, -, hw, -⟩ | ⟨row, written, event, -, -, hw, -⟩ :=
      recorded_commit s.log (hc.kept.running t tx htx) hco lease.message
    · rw [hh, append_nil]
    · cases (hbl _).symm.trans hw
    · cases (hbl _).symm.trans hw

/-- **The outbox delivers with fencing and in order.** In every schedule a message has one outcome at most
and is not claimed after it, its attempts are the failures on record, and no message is claimed past a
live one of its group; and as long as no failure is reported at the end of time, the calls of an earlier
holder change nothing once the message has been claimed again. -/
theorem outbox_delivers (clock : W → ℤ) (choices : List (Choice T (Request W))) :
    Delivers (Machine.run State.step (State.empty T clock) choices) ∧
      ((∀ choice ∈ choices, InTime choice) → FencedOff (Machine.run State.step (State.empty T clock) choices)) := by
  have hco : Consistent (Machine.run State.step (State.empty T clock) choices) :=
    Machine.run_of_step (fun _ choice h => consistent_step h choice) (consistent_empty clock)
  refine ⟨hco.delivers, fun hin => ?_⟩
  have hfe := Machine.run_of_along (I := fun s => Consistent s ∧ Fences s)
    (fun _ choice h hin => ⟨consistent_step h.1 choice, fences_step h.1 h.2 hin⟩)
    ⟨consistent_empty (T := T) clock, fences_empty clock⟩ (Machine.along_of_forall_mem hin)
  exact hfe.2.fencedOff hco

/-- **No message is lost, and none is held twice.** In every schedule what was committed stays committed, in its group and
unchanged after its outcome, and a message is in the hands of one open transaction at most. -/
theorem outbox_keeps (clock : W → ℤ) (choices later : List (Choice T (Request W))) :
    Evolves Follows (Machine.run State.step (State.empty T clock) choices).db.committed
        (Machine.run State.step (State.empty T clock) (choices ++ later)).db.committed ∧
      Exclusive (outboxProgram W) (Machine.run State.step (State.empty T clock) (choices ++ later)).db := by
  have hco : Consistent (Machine.run State.step (State.empty T clock) choices) :=
    Machine.run_of_step (fun _ choice h => consistent_step h choice) (consistent_empty clock)
  rw [Machine.run_append]
  generalize Machine.run State.step (State.empty T clock) choices = s at hco ⊢
  suffices hl : Consistent (Machine.run State.step s later) ∧
      Evolves Follows s.db.committed (Machine.run State.step s later).db.committed from ⟨hl.2, hl.1.kept.exclusive⟩
  refine Machine.run_of_step (I := fun s2 : State T W => Consistent s2 ∧ Evolves Follows s.db.committed s2.db.committed)
    (fun s2 choice h => ⟨consistent_step h.1 choice, ?_⟩) ⟨hco, Evolves.refl follows_refl _⟩
  by_cases hp : s2.permits choice = true
  · rw [step_db hp]
    exact h.2.trans follows_trans (guarantee_step outboxDiscipline (Evolves.refl follows_refl) h.1.kept choice)
  · rw [step_of_not_permits hp]
    exact h.2

end runs

/-! ### Runs of two workers -/

/-- A call, with all its statements. -/
def makes (worker : Bool) (now : ℤ) (call : Call) (statements : ℕ) : List (Choice Unit (Request Bool)) :=
  .start () ⟨worker, ⟨[], []⟩, now, call⟩ :: List.replicate statements (.advance ())

/-- A message that is claimed at one instant, claimed again at a later one, and completed by the first
holder. -/
def claimedTwice (first second : ℤ) (between : List (Choice Unit (Request Bool))) : List (Choice Unit (Request Bool)) :=
  makes false first (.enqueue 1 ⟨[], [], none⟩) 2 ++ makes false first (.claim ⟨[], 10, 1, 2⟩) 3 ++ between ++
    makes true second (.claim ⟨[], 10, 1, 2⟩) 3 ++ makes false second (.complete ⟨1, some first, 1⟩) 1

/-- A lease that has lapsed. -/
theorem lapsed_fenced :
    claims (history 1 (Machine.run State.step (State.empty Unit fun _ : Bool => 0) (claimedTwice 0 20 [])).log) = 2 ∧
      FencedOff (Machine.run State.step (State.empty Unit fun _ : Bool => 0) (claimedTwice 0 20 [])) := by
  refine ⟨by decide +kernel, (outbox_delivers _ _).2 ?_⟩
  simp [claimedTwice, makes, InTime]

/-- A failure at the end of time, when no retry lies in the future. -/
def failedAtTheEnd : List (Choice Unit (Request Bool)) :=
  makes false i64Max (.fail ⟨⟨1, some i64Max, 1⟩, [], ⟨3, 1⟩, 0⟩) 3

/-- **At the end of time an earlier holder is not fenced off**: the clocks stand, the message is claimed again
under the stamp that it had, and the first holder completes it. -/
theorem endOfTime_unfenced :
    ¬ FencedOff (Machine.run State.step (State.empty Unit fun _ : Bool => i64Max)
      (claimedTwice i64Max i64Max failedAtTheEnd)) := by
  intro hfe
  have hrun : ((Machine.run State.step (State.empty Unit fun _ : Bool => i64Max)
      (claimedTwice i64Max i64Max failedAtTheEnd)).db.running ()).any (fun tx =>
        tx.request.call = .complete ⟨1, some i64Max, 1⟩ && (tx.writes 1).isSome) = true := by decide +kernel
  have hcl : claims (history 1 (Machine.run State.step (State.empty Unit fun _ : Bool => i64Max)
      (claimedTwice i64Max i64Max failedAtTheEnd)).log) = 2 := by decide +kernel
  rw [Option.any_eq_true] at hrun
  obtain ⟨tx, htx, hte⟩ := hrun
  simp only [Bool.and_eq_true, decide_eq_true_eq] at hte
  have hbl := (hfe () tx ⟨1, some i64Max, 1⟩ htx (by rw [hte.1]; rfl) (by rw [hcl]; decide)).1 1
  rw [hbl] at hte
  cases hte.2

end IronAuth.Store.Outbox
