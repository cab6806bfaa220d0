import IronAuth.Lib.Scripts

/-!
# Envelope keys of a scope

The key-encryption keys (KEKs) of one scope, each wrapped under a platform master key, and its
data-encryption keys (DEKs), each wrapped under a KEK: their provisioning, their rotation, the
crypto-shred, and the rewrapping of KEKs under another master.

A wrapped key is an exact seal: it opens under the key and the associated data that it was sealed
with, and under no others. A master key is known by its id, and the empty blob is no seal. The rows
remember the key that they were created with, which no statement reads. Versions are bounded, as
`i32` is; a rotation that would go past the bound fails. Identifiers of rows, instants and audit rows
are left out.

A rekey lists the rows under the old master and writes each back in a transaction of its own; a
request to rewrap a row carries the row as it was listed. The requests of a run that was cut anywhere
are a beginning of its list, so the requests here may carry any row.
-/

namespace IronAuth.Store.Envelope

open Lib.ReadCommitted Lib

/-! ### Seals -/

section seals

variable (M S : Type) (n : ℕ)

/-- The versions of keys; the first is 1. -/
abbrev Version := Fin (n + 2)

/-- A KEK sealed under a master key, with the version and the master's id as associated data. -/
structure WrappedKek where
  master : M
  version : Version n
  masterKeyId : M
  nonce : ℕ
  kek : S
  deriving DecidableEq

/-- A DEK sealed under a KEK, with its version as associated data. -/
structure WrappedDek where
  kek : S
  version : Version n
  nonce : ℕ
  dek : S

variable {M S n} [DecidableEq M] [DecidableEq S]

/-- `wrap_kek`, with the associated data of `kek_wrap_aad`. -/
def wrapKek (master : M) (version : Version n) (nonce : ℕ) (kek : S) : WrappedKek M S n :=
  ⟨master, version, master, nonce, kek⟩

/-- `unwrap_kek`, of a blob that may be empty. -/
def unwrapKek (master : M) (version : Version n) (masterKeyId : M) (wrapped : Option (WrappedKek M S n)) : Option S :=
  (wrapped.filter fun blob => blob.master = master ∧ blob.version = version ∧ blob.masterKeyId = masterKeyId).map
    WrappedKek.kek

/-- `wrap_dek`, with the associated data of `dek_wrap_aad`. -/
def wrapDek (kek : S) (version : Version n) (nonce : ℕ) (dek : S) : WrappedDek S n := ⟨kek, version, nonce, dek⟩

/-- `unwrap_dek`. -/
def unwrapDek (kek : S) (version : Version n) (wrapped : WrappedDek S n) : Option S :=
  if wrapped.kek = kek ∧ wrapped.version = version then some wrapped.dek else none

omit [DecidableEq S] in
theorem unwrapKek_wrapKek (m : M) (ver : Version n) (no : ℕ) (kek : S) :
    unwrapKek m ver m (some (wrapKek m ver no kek)) = some kek := by
  simp [unwrapKek, wrapKek]

theorem unwrapDek_wrapDek (kek : S) (ver : Version n) (no : ℕ) (dek : S) :
    unwrapDek kek ver (wrapDek kek ver no dek) = some dek := if_pos ⟨rfl, rfl⟩

omit [DecidableEq S] in
/-- What opens under a master key opens to what was sealed. -/
theorem unwrapKek_eq_some {ma : M} {ver : Version n} {m : M} {w : Option (WrappedKek M S n)} {kek : S}
    (h : unwrapKek ma ver m w = some kek) : ∃ b, w = some b ∧ b.kek = kek := by
  obtain ⟨b, hb, hk⟩ := Option.map_eq_some_iff.mp h
  exact ⟨b, (Option.filter_eq_some_iff.mp hb).1, hk⟩

end seals

/-! ### Rows and requests -/

inductive KekStatus where
  | active
  | retired
  | destroyed
  deriving DecidableEq

inductive DekStatus where
  | active
  | retired
  deriving DecidableEq

/-- A row of `tenant_keks`, with the key that it was created with. -/
structure KekRow (M S : Type) (n : ℕ) where
  masterKeyId : M
  wrappedKek : Option (WrappedKek M S n)
  status : KekStatus
  created : S

/-- A row of `tenant_deks`, with the key that it was created with. -/
structure DekRow (S : Type) (n : ℕ) where
  kekVersion : Version n
  wrappedDek : WrappedDek S n
  status : DekStatus
  created : S

/-- The keys of the rows: both tables are unique in the version. -/
inductive Key (n : ℕ) where
  | kek (version : Version n)
  | dek (version : Version n)
  deriving DecidableEq

abbrev Row (M S : Type) (n : ℕ) : Key n → Type
  | .kek _ => KekRow M S n
  | .dek _ => DekRow S n

/-- A new key: the master key at hand, the key, and a nonce for each seal. -/
structure Draw (M S : Type) (n : ℕ) where
  master : M
  fresh : S
  nonce : ℕ
  nonces : Version n → ℕ

/-- `KekRow` of the rekey: a row as it was listed. -/
structure ListedKek (M S : Type) (n : ℕ) where
  version : Version n
  status : KekStatus
  wrappedKek : Option (WrappedKek M S n)

inductive Request (M S : Type) (n : ℕ) where
  | provisionDek (draw : Draw M S n)
  | rotateDek (draw : Draw M S n)
  | rotateKek (draw : Draw M S n)
  | destroyKek
  | keksUnderMaster (source : M)
  | rewrapKek (source target : M) (row : ListedKek M S n) (nonce : ℕ)

inductive Answer (M S : Type) (n : ℕ) where
  | dekInserted
  | kekRotated
  | kekDestroyed
  | listed (rows : List (ListedKek M S n))
  | skippedDestroyed
  | rewrapped
  | contended

/-! ### Scripts -/

/-- Where a transaction stands. -/
inductive Control (M S : Type) (n : ℕ) where
  | firstDek (draw : Draw M S n)
  | lastDek (draw : Draw M S n)
  | fetchActiveKek (draw : Draw M S n) (version : Version n) (rotates : Bool)
  | activeDeks (draw : Draw M S n) (version kekVersion : Version n) (kek : S)
  | retireDeks (draw : Draw M S n) (version kekVersion : Version n) (kek : S) (rest : List (Version n))
  | insertDek (draw : Draw M S n) (version kekVersion : Version n) (kek : S)
  | activeKek (draw : Draw M S n)
  | insertKek (draw : Draw M S n) (old new : Version n)
  | listDeks (draw : Draw M S n) (old new : Version n)
  | fetchDek (draw : Draw M S n) (old new : Version n) (rest : List (Version n))
  | fetchKek (draw : Draw M S n) (old new version : Version n) (rest : List (Version n)) (kekVersion : Version n)
      (wrapped : WrappedDek S n)
  | rewrapDek (draw : Draw M S n) (old new version : Version n) (rest : List (Version n)) (dek : S)
  | retireKek (old : Version n)
  | probeKek
  | liveKeks
  | shredKeks (rest : List (Version n))
  | listKeks (source : M)
  | rewrapKek (source target : M) (row : ListedKek M S n) (nonce : ℕ)
  | failed
  | commit (answer : Answer M S n)

section scripts

variable {M S : Type} {n : ℕ} [DecidableEq M] [DecidableEq S]

/-- The versions that satisfy a condition, in ascending order. -/
def versions (p : Version n → Bool) : List (Version n) := (List.finRange (n + 2)).filter p

/-- `max(version)` under a condition. -/
def maxVersion (p : Version n → Bool) : Option (Version n) := (versions p).getLast?

/-- The version after this one. -/
def nextVersion (version : Version n) : Option (Version n) :=
  if h : version.val + 1 < n + 2 then some ⟨version.val + 1, h⟩ else none

variable (rows : Rows (Row M S n))

/-- `active_kek_version`. -/
def activeKekVersion : Option (Version n) :=
  maxVersion fun version => (rows (.kek version)).any fun row => row.status = .active

/-- `max_dek_version`. -/
def maxDekVersion : Option (Version n) := maxVersion fun version => (rows (.dek version)).isSome

/-- `fetch_kek_by_version`. -/
def fetchKekByVersion (master : M) (version : Version n) : Option S :=
  (rows (.kek version)).bind fun row => unwrapKek master version row.masterKeyId row.wrappedKek

/-- `fetch_active_kek`: the version and the key. -/
def fetchActiveKek (master : M) : Option (Version n × S) :=
  (activeKekVersion rows).bind fun version => (fetchKekByVersion rows master version).map fun kek => (version, kek)

/-- The row that `provision_dek` and `rotate_dek` insert. -/
def newDek (draw : Draw M S n) (version kekVersion : Version n) (kek : S) : DekRow S n :=
  ⟨kekVersion, wrapDek kek version draw.nonce draw.fresh, .active, draw.fresh⟩

/-- The row that `rotate_kek` inserts. -/
def newKek (draw : Draw M S n) (version : Version n) : KekRow M S n :=
  ⟨draw.master, some (wrapKek draw.master version draw.nonce draw.fresh), .active, draw.fresh⟩

/-- What the list of a rekey has of a row. -/
def listedKek (source : M) (version : Version n) : Option (ListedKek M S n) :=
  ((rows (.kek version)).filter fun row => row.masterKeyId = source).map fun row => ⟨version, row.status, row.wrappedKek⟩

/-- One row of `Rekey::run`, written back by `store_rewrapped_kek` if it is as it was listed. -/
def storeRewrappedKek (source target : M) (row : ListedKek M S n) (nonce : ℕ) : Statement (Row M S n) (Control M S n) :=
  if source = target then .fail
  else if row.status = .destroyed then .query fun _ => .commit .skippedDestroyed
  else
    match unwrapKek source row.version source row.wrappedKek with
    | some kek =>
      .update (.kek row.version)
        (fun current => current.wrappedKek = row.wrappedKek ∧ current.masterKeyId = source ∧ current.status = row.status)
        (fun current => { current with wrappedKek := some (wrapKek target row.version nonce kek), masterKeyId := target })
        (fun _ => .commit .rewrapped) (.commit .contended)
    | none => .fail

/-- The statements of the transactions. -/
def statement : Control M S n → Statement (Row M S n) (Control M S n)
  -- `provision_dek`
  | .firstDek draw => .query fun rows =>
    if (maxDekVersion rows).isSome then .failed else .fetchActiveKek draw 1 false
  -- `rotate_dek`
  | .lastDek draw => .query fun rows =>
    match (maxDekVersion rows).bind nextVersion with
    | some version => .fetchActiveKek draw version true
    | none => .failed
  -- a DEK that is provisioned has none before it to retire
  | .fetchActiveKek draw version rotates => .query fun rows =>
    match fetchActiveKek rows draw.master with
    | some (kekVersion, kek) =>
      if rotates then .activeDeks draw version kekVersion kek else .insertDek draw version kekVersion kek
    | none => .failed
  | .activeDeks draw version kekVersion kek => .query fun rows =>
    .retireDeks draw version kekVersion kek
      (versions fun version => (rows (.dek version)).any fun row => row.status = .active)
  | .retireDeks draw version kekVersion kek [] => .query fun _ => .insertDek draw version kekVersion kek
  | .retireDeks draw version kekVersion kek (next :: rest) =>
    .update (.dek next) (fun row => row.status = .active) (fun row => { row with status := .retired })
      (fun _ => .retireDeks draw version kekVersion kek rest) (.retireDeks draw version kekVersion kek rest)
  | .insertDek draw version kekVersion kek =>
    .insert (.dek version) (newDek draw version kekVersion kek) (.commit .dekInserted)
  -- `rotate_kek`
  | .activeKek draw => .query fun rows =>
    match activeKekVersion rows with
    | some old =>
      match nextVersion old with
      | some new => .insertKek draw old new
      | none => .failed
    | none => .failed
  | .insertKek draw old new => .insert (.kek new) (newKek draw new) (.listDeks draw old new)
  | .listDeks draw old new => .query fun rows =>
    .fetchDek draw old new (versions fun version => (rows (.dek version)).isSome)
  | .fetchDek _ old _ [] => .query fun _ => .retireKek old
  | .fetchDek draw old new (version :: rest) => .query fun rows =>
    match rows (.dek version) with
    | some row => .fetchKek draw old new version rest row.kekVersion row.wrappedDek
    | none => .failed
  | .fetchKek draw old new version rest kekVersion wrapped => .query fun rows =>
    match (fetchKekByVersion rows draw.master kekVersion).bind fun kek => unwrapDek kek version wrapped with
    | some dek => .rewrapDek draw old new version rest dek
    | none => .failed
  | .rewrapDek draw old new version rest dek =>
    .update (.dek version) (fun _ => true)
      (fun row => { row with wrappedDek := wrapDek draw.fresh version (draw.nonces version) dek, kekVersion := new })
      (fun _ => .fetchDek draw old new rest) (.fetchDek draw old new rest)
  | .retireKek old =>
    .update (.kek old) (fun _ => true) (fun row => { row with status := .retired }) (fun _ => .commit .kekRotated)
      (.commit .kekRotated)
  -- `destroy_kek`
  | .probeKek => .query fun rows =>
    if (maxVersion fun version => (rows (.kek version)).isSome).isSome then .liveKeks else .failed
  | .liveKeks => .query fun rows =>
    .shredKeks (versions fun version => (rows (.kek version)).any fun row => row.status ≠ .destroyed)
  | .shredKeks [] => .query fun _ => .commit .kekDestroyed
  | .shredKeks (version :: rest) =>
    .update (.kek version) (fun row => row.status ≠ .destroyed)
      (fun row => { row with wrappedKek := none, status := .destroyed }) (fun _ => .shredKeks rest) (.shredKeks rest)
  -- `keks_under_master`
  | .listKeks source => .query fun rows => .commit (.listed ((List.finRange (n + 2)).filterMap (listedKek rows source)))
  | .rewrapKek source target row nonce => storeRewrappedKek source target row nonce
  | .failed => .fail
  | .commit _ => .commit

/-- The first statement of a request. -/
def Request.control : Request M S n → Control M S n
  | .provisionDek draw => .firstDek draw
  | .rotateDek draw => .lastDek draw
  | .rotateKek draw => .activeKek draw
  | .destroyKek => .probeKek
  | .keksUnderMaster source => .listKeks source
  | .rewrapKek source target row nonce => .rewrapKek source target row nonce

/-- The transactions on the keys of a scope. -/
def envelopeProgram (M S : Type) (n : ℕ) [DecidableEq M] [DecidableEq S] :
    Program (Row M S n) (Script (Row M S n) (Control M S n)) (Request M S n) :=
  Lib.ReadCommitted.scripts statement Request.control

abbrev EnvelopeDatabase (M S : Type) (n : ℕ) (T : Type) := Database (Row M S n) T (Script (Row M S n) (Control M S n))

/-- After `provision_kek`: the scope has its KEK of day one. -/
def provisioned (draw : Draw M S n) (T : Type) : EnvelopeDatabase M S n T where
  committed
    | .kek version => if version = 1 then some (newKek draw 1) else none
    | .dek _ => none
  running := fun _ => none

end scripts

end IronAuth.Store.Envelope
