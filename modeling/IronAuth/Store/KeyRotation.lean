import IronAuth.Jose.KeySet
import IronAuth.Store.Clock

/-!
# The rotation of signing keys

The state machine that rotates the signing keys of one scope on a timer. A tick lists the keys once and
then, algorithm by algorithm, seeds a successor when the pre-publication point of the head has come,
retires the previous head, and records the keys that have expired. Each of these is a transaction of its
own. What they are is decided from the listing alone; the rows may be others by the time they are written.

The rows are those of one scope. Identifiers are numbers, compared as the database compares their texts,
and key material is left out: a tick takes from outside whether it could be made, or its existence
confirmed.
-/

namespace IronAuth.Store.KeyRotation

open Lib Lib.Timeline List
open Jose (JwsAlgorithm)

/-! ### The table -/

abbrev SigningKeyId := ℕ

inductive SigningKeyMaterialKind where
  | ed25519Seed | ecdsaPkcs8 | rsaPkcs1Der | remoteReference
  deriving DecidableEq

inductive StoreError where
  | invalid | encryption | database
  deriving DecidableEq

/-- A row of `signing_keys`, with instants in microseconds. `createdAt` is the database's own clock. -/
structure SigningKeyRow where
  id : SigningKeyId
  algorithm : JwsAlgorithm
  materialKind : SigningKeyMaterialKind
  publishAt : ℤ
  activateAt : ℤ
  retireAt : Option ℤ
  expireAt : Option ℤ
  createdAt : ℤ
  deriving DecidableEq

inductive Action where
  | signingKeyProvision | signingKeyPromoted | signingKeyRetiring | signingKeyRetired
  deriving DecidableEq

/-- The keys of a scope and what the audit log says of them. The identifier is the primary key. -/
structure SigningKeys where
  rows : List SigningKeyRow
  audit : List (Action × SigningKeyId)
  nodup : (rows.map SigningKeyRow.id).Nodup

/-- `ORDER BY created_at, id`. -/
def listedBefore (a b : SigningKeyRow) : Prop := a.createdAt < b.createdAt ∨ a.createdAt = b.createdAt ∧ a.id ≤ b.id

instance : DecidableRel listedBefore := fun a b =>
  inferInstanceAs (Decidable (a.createdAt < b.createdAt ∨ a.createdAt = b.createdAt ∧ a.id ≤ b.id))

/-- Every signing key of the scope, oldest first. -/
def SigningKeys.list (keys : SigningKeys) : List SigningKeyRow := keys.rows.insertionSort listedBefore

variable (id : SigningKeyId)

/-- A row with its retirement set, if it is the one that is named. -/
def SigningKeyRow.retireIf (retireAt expireAt : ℤ) (row : SigningKeyRow) : SigningKeyRow :=
  if row.id = id then { row with retireAt := some retireAt, expireAt := some expireAt } else row

@[simp]
theorem retireIf_id (ret e : ℤ) (row : SigningKeyRow) :
    (row.retireIf id ret e).id = row.id := by
  unfold SigningKeyRow.retireIf
  split <;> rfl

@[simp]
theorem retireIf_algorithm (ret e : ℤ) (row : SigningKeyRow) :
    (row.retireIf id ret e).algorithm = row.algorithm := by
  unfold SigningKeyRow.retireIf
  split <;> rfl

@[simp]
theorem retireIf_activateAt (ret e : ℤ) (row : SigningKeyRow) :
    (row.retireIf id ret e).activateAt = row.activateAt := by
  unfold SigningKeyRow.retireIf
  split <;> rfl

/-! ### Transactions -/

/-- The audited writes of a tick. -/
inductive Transaction where
  | provision (key : SigningKeyRow)
  | promote (pending outgoing : SigningKeyId) (now expire : ℤ)
  | markWithdrawn (id : SigningKeyId)
  deriving DecidableEq

/-- What a transaction makes of the rows. The update of `promote` names the row by its identifier alone. -/
def Transaction.apply : Transaction → List SigningKeyRow → List SigningKeyRow
  | .provision key, rows => rows ++ [key]
  | .promote _ outgoing now expire, rows => rows.map (SigningKeyRow.retireIf outgoing now expire)
  | .markWithdrawn _, rows => rows

theorem map_id_promote (ret e : ℤ) (r : List SigningKeyRow) :
    (r.map (SigningKeyRow.retireIf id ret e)).map SigningKeyRow.id = r.map SigningKeyRow.id := by
  rw [map_map]
  exact map_congr_left fun row _ => retireIf_id id ret e row

variable {key : SigningKeyRow} {k : SigningKeys} {transaction : Transaction}

theorem nodup_provision {r : List SigningKeyRow} (h : (r.map SigningKeyRow.id).Nodup)
    (hn : key.id ∉ r.map SigningKeyRow.id) : ((r ++ [key]).map SigningKeyRow.id).Nodup := by
  rw [map_append, map_singleton, nodup_append_comm, singleton_append, nodup_cons]
  exact ⟨hn, h⟩

/-- A transaction is committed, and says whether it wrote. An insert that repeats a primary key fails; a
withdrawal that the audit log has already is not recorded again. -/
def perform (keys : SigningKeys) : Transaction → Except StoreError (Bool × SigningKeys)
  | .provision key =>
    if h : key.id ∈ keys.rows.map SigningKeyRow.id then .error .database
    else .ok (true, ⟨keys.rows ++ [key], keys.audit ++ [(.signingKeyProvision, key.id)], nodup_provision keys.nodup h⟩)
  | .promote pending outgoing now expire =>
    .ok (true, ⟨keys.rows.map (SigningKeyRow.retireIf outgoing now expire),
      keys.audit ++ [(.signingKeyPromoted, pending), (.signingKeyRetiring, outgoing)],
      (map_id_promote outgoing now expire keys.rows).symm ▸ keys.nodup⟩)
  | .markWithdrawn id =>
    if (.signingKeyRetired, id) ∈ keys.audit then .ok (false, keys)
    else .ok (true, { keys with audit := keys.audit ++ [(.signingKeyRetired, id)] })

/-- A transaction that succeeds applies itself to the rows, and one that provisions a key has a new
identifier for it. -/
theorem perform_cases {next : SigningKeys} {tx : Transaction} {w : Bool}
    (h : perform k tx = .ok (w, next)) :
    next.rows = tx.apply k.rows ∧
      ∀ key, tx = .provision key → ∀ row ∈ k.rows, row.id ≠ key.id := by
  cases tx with
  | provision key =>
    simp only [perform] at h
    split at h
    · cases h
    · rename_i hn
      obtain ⟨-, rfl⟩ := Prod.mk.inj (Except.ok.inj h)
      refine ⟨rfl, ?_⟩
      intro other heq row hr hid
      cases heq
      exact hn (hid ▸ mem_map_of_mem hr)
  | promote pending outgoing now e =>
    obtain ⟨-, rfl⟩ := Prod.mk.inj (Except.ok.inj h)
    exact ⟨rfl, by simp⟩
  | markWithdrawn id =>
    simp only [perform] at h
    split at h
    all_goals
      obtain ⟨-, rfl⟩ := Prod.mk.inj (Except.ok.inj h)
      exact ⟨rfl, by simp⟩

/-! ### The machine -/

/-- The algorithms the rotation covers. -/
def algorithms : List (JwsAlgorithm × SigningKeyMaterialKind) :=
  [(.edDsa, .ed25519Seed), (.es256, .ecdsaPkcs8), (.rs256, .rsaPkcs1Der)]

structure RotationPolicy where
  cadenceSecs : ℕ
  prePublicationSecs : ℕ
  retirementBufferSecs : ℕ

inductive SeedMode where
  | localKeys | remoteReference

/-- A machine with its policy. `provisioner` says whether one was given. -/
structure RotationStateMachine where
  policy : RotationPolicy
  maxTokenLifetimeSecs : ℕ
  seedMode : SeedMode
  provisioner : Bool

/-- What a seeding takes from its environment: an identifier, whether the material could be generated,
whether the backend confirmed the key, the clock after that, and the database's clock. -/
structure Seeding where
  id : SigningKeyId
  generated : Bool
  confirmed : Bool
  clock : ℤ
  createdAt : ℤ

/-- A tick, at an instant in microseconds. -/
structure Tick where
  now : ℤ
  now_isI64 : IsI64 now
  seeding : JwsAlgorithm → Seeding

/-- Seconds to microseconds, saturating. -/
def micros (secs : ℕ) : ℤ := min i64Max (min (2 ^ 64 - 1) (secs * 1000000))

def RotationPolicy.cadence (policy : RotationPolicy) : ℤ := micros policy.cadenceSecs
def RotationPolicy.prePublication (policy : RotationPolicy) : ℤ := micros policy.prePublicationSecs

/-- The material of a successor, or why there is none. -/
def prepareMaterial (machine : RotationStateMachine) (seeding : Seeding) (kind : SigningKeyMaterialKind) :
    Except StoreError SigningKeyMaterialKind :=
  match machine.seedMode with
  | .remoteReference =>
    if machine.provisioner = false then .error .invalid
    else if seeding.confirmed = false then .error .invalid
    else .ok .remoteReference
  | .localKeys =>
    match kind with
    | .ed25519Seed => .ok kind
    | .ecdsaPkcs8 | .rsaPkcs1Der => if seeding.generated then .ok kind else .error .encryption
    | .remoteReference => .error .invalid

/-- When a successor becomes active: at the rotation instant, and not before it has been published for
the whole window since it was prepared. -/
def activation (policy : RotationPolicy) (rotation : ℤ) (floor : Option ℤ) (clock : ℤ) : Except StoreError ℤ :=
  match floor with
  | some tick => (Fallible.okOr (checkedAdd (max tick clock) policy.prePublication) .invalid).map (max rotation)
  | none => .ok rotation

def seedSuccessor (machine : RotationStateMachine) (seeding : Seeding) (algorithm : JwsAlgorithm) (kind : SigningKeyMaterialKind)
    (rotation : ℤ) (floor : Option ℤ) : Except StoreError SigningKeyRow := do
  let kind ← prepareMaterial machine seeding kind
  let activateAt ← activation machine.policy rotation floor seeding.clock
  return {
    id := seeding.id
    algorithm := algorithm
    materialKind := kind
    publishAt := saturatingSub activateAt machine.policy.prePublication
    activateAt := activateAt
    retireAt := none
    expireAt := none
    createdAt := seeding.createdAt }

/-! ### A tick -/

/-- The live head of an algorithm's keys. -/
def head (algoKeys : List SigningKeyRow) (now : ℤ) : Option SigningKeyRow :=
  maxByKey SigningKeyRow.activateAt (algoKeys.filter fun key => key.retireAt.isNone && decide (key.activateAt ≤ now))

def rotationInstant (machine : RotationStateMachine) (head : SigningKeyRow) : ℤ := saturatingAdd head.activateAt machine.policy.cadence

def seedDue (machine : RotationStateMachine) (head : SigningKeyRow) (now : ℤ) : Bool :=
  decide (saturatingSub (rotationInstant machine head) machine.policy.prePublication ≤ now)

def hasPending (algoKeys : List SigningKeyRow) (now : ℤ) : Bool :=
  algoKeys.any fun key => key.retireAt.isNone && decide (now < key.activateAt)

/-- The newest other key that is not retired. -/
def outgoing (algoKeys : List SigningKeyRow) (head : SigningKeyRow) : Option SigningKeyRow :=
  maxByKey SigningKeyRow.activateAt (algoKeys.filter fun key => key.retireAt.isNone && decide (key.id ≠ head.id))

def expireInstant (machine : RotationStateMachine) (now : ℤ) : ℤ :=
  saturatingAdd (saturatingAdd now (micros machine.maxTokenLifetimeSecs)) (micros machine.policy.retirementBufferSecs)

/-- A transaction to be committed, or the error that keeps it from being so. -/
abbrev Call := Except StoreError Transaction

def seedCalls (machine : RotationStateMachine) (tick : Tick) (algoKeys : List SigningKeyRow) (head : SigningKeyRow)
    (algorithm : JwsAlgorithm) (kind : SigningKeyMaterialKind) : List Call :=
  if seedDue machine head tick.now && !hasPending algoKeys tick.now then
    [(seedSuccessor machine (tick.seeding algorithm) algorithm kind (rotationInstant machine head) (some tick.now)).map .provision]
  else []

def promoteCalls (machine : RotationStateMachine) (now : ℤ) (algoKeys : List SigningKeyRow) (head : SigningKeyRow) : List Call :=
  match outgoing algoKeys head with
  | some outgoing =>
    if outgoing.activateAt < head.activateAt then [.ok (.promote head.id outgoing.id now (expireInstant machine now))] else []
  | none => []

def withdrawCalls (now : ℤ) (algoKeys : List SigningKeyRow) : List Call :=
  (algoKeys.filter fun key => key.expireAt.any fun expire => decide (expire ≤ now)).map fun key => .ok (.markWithdrawn key.id)

/-- What a tick does about one algorithm. Without a live head it does nothing. -/
def algorithmCalls (machine : RotationStateMachine) (tick : Tick) (lifecycles : List SigningKeyRow) (algorithm : JwsAlgorithm)
    (kind : SigningKeyMaterialKind) : List Call :=
  let algoKeys := lifecycles.filter fun key => decide (key.algorithm = algorithm)
  match head algoKeys tick.now with
  | none => []
  | some head =>
    seedCalls machine tick algoKeys head algorithm kind ++ promoteCalls machine tick.now algoKeys head ++
      withdrawCalls tick.now algoKeys

/-- Every call of a tick with its algorithm, in order. -/
def plan (machine : RotationStateMachine) (tick : Tick) (lifecycles : List SigningKeyRow) : List (JwsAlgorithm × Call) :=
  algorithms.flatMap fun entry => (algorithmCalls machine tick lifecycles entry.1 entry.2).map fun call => (entry.1, call)

structure RotationReport where
  provisioned : List (JwsAlgorithm × SigningKeyId)
  promoted : List (JwsAlgorithm × SigningKeyId)
  retiring : List (JwsAlgorithm × SigningKeyId)
  retired : List (JwsAlgorithm × SigningKeyId)
  deriving DecidableEq

/-- A report with one more transaction. -/
def RotationReport.record (report : RotationReport) (algorithm : JwsAlgorithm) (wrote : Bool) : Transaction → RotationReport
  | .provision key => { report with provisioned := report.provisioned ++ [(algorithm, key.id)] }
  | .promote pending outgoing _ _ =>
    { report with
      promoted := report.promoted ++ [(algorithm, pending)]
      retiring := report.retiring ++ [(algorithm, outgoing)] }
  | .markWithdrawn id => if wrote then { report with retired := report.retired ++ [(algorithm, id)] } else report

/-- The calls are made one after another. The first that fails ends the tick; what was committed stays. -/
def execute : List (JwsAlgorithm × Call) → RotationReport → SigningKeys → Except StoreError RotationReport × SigningKeys
  | [], report, keys => (.ok report, keys)
  | (_, .error error) :: _, _, keys => (.error error, keys)
  | (algorithm, .ok transaction) :: calls, report, keys =>
    match perform keys transaction with
    | .error error => (.error error, keys)
    | .ok (wrote, keys) => execute calls (report.record algorithm wrote transaction) keys

/-- One timer tick. -/
def advance (machine : RotationStateMachine) (keys : SigningKeys) (tick : Tick) : Except StoreError RotationReport × SigningKeys :=
  execute (plan machine tick keys.list) ⟨[], [], [], []⟩ keys

/-! ### What a tick has seen -/

variable {machine : RotationStateMachine} {tick : Tick} {listing : List SigningKeyRow} {algorithm : JwsAlgorithm}

/-- The listed keys of an algorithm. -/
abbrev keysOf (listing : List SigningKeyRow) (algorithm : JwsAlgorithm) : List SigningKeyRow :=
  listing.filter fun key => decide (key.algorithm = algorithm)

theorem mem_list {row : SigningKeyRow} : row ∈ k.list ↔ row ∈ k.rows := mem_insertionSort _

/-- A key is the head of an algorithm: it is activated and not retired, and no other such key is
activated later. -/
structure IsHead (listing : List SigningKeyRow) (algorithm : JwsAlgorithm) (now : ℤ) (key : SigningKeyRow) : Prop where
  mem : key ∈ listing
  algorithm_eq : key.algorithm = algorithm
  retireAt_eq : key.retireAt = none
  activateAt_le : key.activateAt ≤ now
  latest : ∀ other ∈ listing, other.algorithm = algorithm → other.retireAt = none → other.activateAt ≤ now →
    other.activateAt ≤ key.activateAt

theorem isHead_of_head {now : ℤ} (h : head (keysOf listing algorithm) now = some key) :
    IsHead listing algorithm now key := by
  have hm := mem_of_maxByKey h
  simp only [keysOf, mem_filter, decide_eq_true_eq, Bool.and_eq_true, Option.isNone_iff_eq_none] at hm
  obtain ⟨⟨hl, ha⟩, hrt, hac⟩ := hm
  refine ⟨hl, ha, hrt, hac, ?_⟩
  intro other ho hot ht hote
  apply le_of_maxByKey h
  simp [ho, hot, ht, hote]

/-- A key is the newest of an algorithm besides another that is not retired. -/
structure IsOutgoing (listing : List SigningKeyRow) (algorithm : JwsAlgorithm) (head key : SigningKeyRow) : Prop where
  mem : key ∈ listing
  algorithm_eq : key.algorithm = algorithm
  retireAt_eq : key.retireAt = none
  id_ne : key.id ≠ head.id
  latest : ∀ other ∈ listing, other.algorithm = algorithm → other.retireAt = none → other.id ≠ head.id →
    other.activateAt ≤ key.activateAt

theorem isOutgoing_of_outgoing {he : SigningKeyRow} (h : outgoing (keysOf listing algorithm) he = some key) :
    IsOutgoing listing algorithm he key := by
  have hm := mem_of_maxByKey h
  simp only [keysOf, mem_filter, decide_eq_true_eq, Bool.and_eq_true, Option.isNone_iff_eq_none] at hm
  obtain ⟨⟨hl, ha⟩, hrt, hid⟩ := hm
  refine ⟨hl, ha, hrt, hid, ?_⟩
  intro other ho hot hotr ht
  apply le_of_maxByKey h
  simp [ho, hot, hotr, ht]

theorem hasPending_eq_false_iff {now : ℤ} : hasPending (keysOf listing algorithm) now = false ↔
    ∀ key ∈ listing, key.algorithm = algorithm → key.retireAt = none → key.activateAt ≤ now := by
  simp only [hasPending, keysOf, any_eq_false, mem_filter, decide_eq_true_eq, Bool.and_eq_true,
    Option.isNone_iff_eq_none, not_and, not_lt, and_imp]

/-- A key as a tick seeds it: it is published for the whole window before it is active, and not before the
tick. -/
structure Seeded (machine : RotationStateMachine) (tick : Tick) (algorithm : JwsAlgorithm) (rotation : ℤ) (key : SigningKeyRow) :
    Prop where
  id_eq : key.id = (tick.seeding algorithm).id
  algorithm_eq : key.algorithm = algorithm
  retireAt_eq : key.retireAt = none
  expireAt_eq : key.expireAt = none
  now_le : tick.now ≤ key.publishAt
  activateAt_eq : key.activateAt = key.publishAt + machine.policy.prePublication
  rotation_le : rotation ≤ key.activateAt

theorem micros_nonneg (secs : ℕ) : 0 ≤ micros secs := by
  unfold micros i64Max
  omega

theorem seeded_of_seedSuccessor {k : SigningKeyMaterialKind} {r : ℤ} (hr : r ≤ i64Max)
    (h : seedSuccessor machine (tick.seeding algorithm) algorithm k r (some tick.now) = .ok key) :
    Seeded machine tick algorithm r key := by
  obtain ⟨k, -, h⟩ := Fallible.bind_eq_ok_iff.mp h
  obtain ⟨activateAt, ha, h⟩ := Fallible.bind_eq_ok_iff.mp h
  obtain ⟨p, hp, rfl⟩ := Fallible.map_eq_ok_iff.mp ha
  rw [Fallible.okOr_eq_ok_iff, checkedAdd] at hp
  split at hp
  · rename_i hf
    cases hp
    cases h
    have hw : 0 ≤ machine.policy.prePublication := micros_nonneg _
    have hn := tick.now_isI64
    have he : saturatingSub (max r (max tick.now (tick.seeding algorithm).clock + machine.policy.prePublication))
        machine.policy.prePublication =
          max r (max tick.now (tick.seeding algorithm).clock + machine.policy.prePublication) - machine.policy.prePublication := by
      unfold IsI64 at hn
      unfold saturatingSub
      omega
    refine ⟨rfl, rfl, rfl, rfl, ?_, ?_, ?_⟩
    · dsimp only
      omega
    · dsimp only
      omega
    · exact le_max_left _ _
  · cases hp

/-- A transaction that a tick makes for an algorithm, with what it was decided from. -/
inductive Planned (machine : RotationStateMachine) (tick : Tick) (listing : List SigningKeyRow) (algorithm : JwsAlgorithm) :
    Transaction → Prop
  | provision {current key : SigningKeyRow} (hhead : head (keysOf listing algorithm) tick.now = some current)
      (hpending : hasPending (keysOf listing algorithm) tick.now = false)
      (hseeded : Seeded machine tick algorithm (rotationInstant machine current) key) : Planned machine tick listing algorithm (.provision key)
  | promote {current older : SigningKeyRow} (hhead : head (keysOf listing algorithm) tick.now = some current)
      (holder : IsOutgoing listing algorithm current older) (hlt : older.activateAt < current.activateAt) :
      Planned machine tick listing algorithm (.promote current.id older.id tick.now (expireInstant machine tick.now))
  | markWithdrawn (id : SigningKeyId) : Planned machine tick listing algorithm (.markWithdrawn id)

theorem rotationInstant_le (machine : RotationStateMachine) (he : SigningKeyRow) : rotationInstant machine he ≤ i64Max := by
  unfold rotationInstant saturatingAdd i64Max
  omega

theorem planned_of_mem_algorithmCalls {k : SigningKeyMaterialKind}
    (h : .ok transaction ∈ algorithmCalls machine tick listing algorithm k) : Planned machine tick listing algorithm transaction := by
  unfold algorithmCalls at h
  dsimp only at h
  split at h
  · cases h
  · rename_i c hh
    rw [mem_append, mem_append] at h
    obtain (h | h) | h := h
    · unfold seedCalls at h
      split at h
      · rename_i hd
        rw [Bool.and_eq_true, Bool.not_eq_true'] at hd
        obtain ⟨key, hk, rfl⟩ := Fallible.map_eq_ok_iff.mp (mem_singleton.mp h).symm
        exact .provision hh hd.2 (seeded_of_seedSuccessor (rotationInstant_le machine c) hk)
      · cases h
    · unfold promoteCalls at h
      split at h
      · rename_i key hk
        split at h
        · rename_i hlt
          cases mem_singleton.mp h
          exact .promote hh (isOutgoing_of_outgoing hk) hlt
        · cases h
      · cases h
    · obtain ⟨key, -, hc⟩ := mem_map.mp h
      cases hc
      exact .markWithdrawn key.id

/-- Every transaction of a tick was decided from the listing. -/
theorem mem_plan (h : (algorithm, .ok transaction) ∈ plan machine tick listing) :
    Planned machine tick listing algorithm transaction := by
  obtain ⟨⟨_, kind⟩, -, hc⟩ := mem_flatMap.mp h
  obtain ⟨call, hm, heq⟩ := mem_map.mp hc
  cases heq
  exact planned_of_mem_algorithmCalls hm

end IronAuth.Store.KeyRotation
