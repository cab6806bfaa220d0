import Mathlib.Data.Prod.Lex
import Mathlib.Data.List.Lex
import IronAuth.Lib.Fallible
import IronAuth.Lib.HashChain
import IronAuth.Lib.JsonBytes

/-!
# The sealed audit chain

Each entry of a chain seals one audit row: its hash covers the hash of the entry before it and the
canonical form of the row. `verify_chain_entries` walks the entries in the order of their positions and
then looks for rows that nothing seals in the range the sealer has passed.

Strings are their bytes, since the chain hashes bytes and Rust orders strings by them. SHA-256 is a
parameter.

## What is proved

* `chainLink_injective`: where the digest is injective, a link determines what it follows and the
  canonical fields of the row: the text of a canonical row is never the end of another's, so the two
  parts cannot be slid across the boundary between them.
* `verifyChainEntries_eq_ok_iff`: what an accepted chain is.
* `accepted_history_determined`: accepted chains of one length with one last hash seal the same rows.
-/

namespace IronAuth.Store.AuditChain

open Lib Lib.Fallible Lib.HashChain Lib.JsonBytes List

/-! ### Rows -/

/-- The fields of a row that are hashed. -/
structure CanonicalRow where
  auditId : Bytes
  action : Bytes
  actorKind : Bytes
  actorId : Bytes
  targetKind : Bytes
  targetId : Bytes
  correlationId : Bytes
  occurredMicros : ℤ
  detail : Option Bytes
  deriving DecidableEq

/-- The organization and the subject are for delivery, and are not hashed. -/
structure ChainedAuditRow extends CanonicalRow where
  organizationId : Option Bytes
  subjectId : Option Bytes
  deriving DecidableEq

/-- An optional string. -/
def optional : Option Bytes → Value
  | none => .null
  | some s => .string s

/-- The members of the canonical object, in the order in which they are written: that of their keys. -/
def CanonicalRow.canonical (row : CanonicalRow) : List (Bytes × Value) :=
  [(ascii "action", .string row.action),
    (ascii "actor_id", .string row.actorId),
    (ascii "actor_kind", .string row.actorKind),
    (ascii "audit_id", .string row.auditId),
    (ascii "correlation_id", .string row.correlationId),
    (ascii "detail", optional row.detail),
    (ascii "occurred_micros", .integer row.occurredMicros),
    (ascii "target_id", .string row.targetId),
    (ascii "target_kind", .string row.targetKind)]

/-- Where a row stands: its time, and its id among the rows of that time. -/
def CanonicalRow.position (row : CanonicalRow) : ℤ ×ₗ List ℕ := toLex (row.occurredMicros, row.auditId.map UInt8.toNat)

theorem optional_injective : Function.Injective optional := by
  intro s s' h
  cases s <;> cases s' <;> simp_all [optional]

theorem canonical_injective : Function.Injective CanonicalRow.canonical := by
  intro row row' h
  simp only [CanonicalRow.canonical, List.cons.injEq, Prod.mk.injEq, true_and, Value.string.injEq, Value.integer.injEq,
    and_true] at h
  obtain ⟨ha, hac, hack, hau, hc, hd, hm, ht, hta⟩ := h
  have hd := optional_injective hd
  cases row
  cases row'
  simp_all

/-- The first key of a canonical object begins with a letter. -/
theorem opens_canonical (row : CanonicalRow) : opens (object row.canonical) = true := by
  have hh : opensHere (object row.canonical) = true := by
    simp [CanonicalRow.canonical, object, members, member, quoted, escaped, escape, ascii, opensHere, closing]
  rw [object] at hh ⊢
  rw [opens, hh, Bool.true_or]

/-! ### Links -/

/-- The eight bytes of a length, the highest first. -/
def lengthBytes (n : ℕ) : Bytes := (List.range 8).map fun i => UInt8.ofNat (n / 2 ^ (8 * (7 - i)))

/-- `chain_link`. -/
def chainLink (sha256 : Bytes → Bytes) (previous : Bytes) (record : CanonicalRow) : Bytes :=
  hex (sha256 (previous ++ lengthBytes previous.length ++ object record.canonical))

/-- The bytes that are hashed determine what is followed and the row. -/
theorem preimage_injective {p p' : Bytes} {r record' : CanonicalRow}
    (h : p ++ lengthBytes p.length ++ object r.canonical =
      p' ++ lengthBytes p'.length ++ object record'.canonical) : p = p' ∧ r = record' := by
  -- One of the two texts ends the other, hence they are the same.
  have ht : p ++ lengthBytes p.length = p' ++ lengthBytes p'.length ∧
      object r.canonical = object record'.canonical := by
    rcases append_eq_append_iff.mp h with ⟨x, hx, ht⟩ | ⟨x, hx, ht⟩
    · have hn := object_suffix (opens_canonical record') ht
      rw [hn] at hx ht
      exact ⟨by simpa using hx.symm, ht⟩
    · have hn := object_suffix (opens_canonical r) ht
      rw [hn] at hx ht
      exact ⟨by simpa using hx, ht.symm⟩
  refine ⟨?_, canonical_injective (object_injective ht.2)⟩
  exact (append_inj' ht.1 (by simp [lengthBytes])).1

theorem chainLink_injective {sha256 : Bytes → Bytes} (hs : Function.Injective sha256) :
    Function.Injective2 (chainLink sha256) := by
  intro p p' record r' h
  exact preimage_injective (hs (hex_injective h))

/-! ### Entries -/

structure ChainEntry where
  seq : ℤ
  auditId : Bytes
  prevHash : Bytes
  recordHash : Bytes
  deriving DecidableEq

/-- Why a chain does not verify. -/
inductive ChainFault where
  | position (expected found : ℤ)
  | link (seq : ℤ)
  | missingRow (seq : ℤ) (auditId : Bytes)
  | tampered (seq : ℤ) (auditId : Bytes)
  | unchained (auditId : Bytes)
  deriving DecidableEq

structure ChainVerified where
  entries : ℕ
  deriving DecidableEq

/-- The rows by their ids, in the order of the ids. -/
abbrev RowMap := List (Bytes × ChainedAuditRow)

variable (sha256 : Bytes → Bytes) (rows : RowMap)

/-- What the walk checks at one entry. -/
def checkEntry (expectedSeq : ℤ) (expectedPrev : Option Bytes) (entry : ChainEntry) : Except ChainFault Unit := do
  refuseIf (entry.seq ≠ expectedSeq) (.position expectedSeq entry.seq)
  refuseIf (∃ previous ∈ expectedPrev, entry.prevHash ≠ previous) (.link entry.seq)
  let row ← okOr (rows.lookup entry.auditId) (.missingRow entry.seq entry.auditId)
  refuseIf (chainLink sha256 entry.prevHash row.toCanonicalRow ≠ entry.recordHash) (.tampered entry.seq entry.auditId)

/-- The walk over the entries; `sealed` collects the ids of the rows that are sealed. -/
def walk (expectedSeq : ℤ) (expectedPrev : Option Bytes) (sealed : List Bytes) : List ChainEntry → Except ChainFault (List Bytes)
  | [] => .ok sealed
  | entry :: entries => do
    checkEntry sha256 rows expectedSeq expectedPrev entry
    walk (expectedSeq + 1) (some entry.recordHash) (entry.auditId :: sealed) entries

/-- The row that the last entry seals. -/
def lastSealed (entries : List ChainEntry) : Option ChainedAuditRow :=
  entries.getLast?.bind fun entry => rows.lookup entry.auditId

/-- The first row that nothing seals in the range that the sealer has passed. -/
def unchained (entries : List ChainEntry) (sealed : List Bytes) : Option Bytes :=
  (lastSealed rows entries).bind fun last =>
    (rows.find? fun row => row.1 ∉ sealed ∧ row.2.position < last.position).map Prod.fst

def verifyChainEntries (entries : List ChainEntry) : Except ChainFault ChainVerified := do
  let firstSeq := (entries.head?.map ChainEntry.seq).getD 1
  let sealed ← walk sha256 rows firstSeq none [] entries
  match unchained rows entries sealed with
  | some auditId => .error (.unchained auditId)
  | none => .ok ⟨entries.length⟩

/-- The entries that `seal_pending` inserts for the rows that it read, behind the head that it read. -/
def sealFrom (seq : ℤ) (prev : Bytes) : List ChainedAuditRow → List ChainEntry
  | [] => []
  | row :: pending =>
    ⟨seq + 1, row.auditId, prev, chainLink sha256 prev row.toCanonicalRow⟩ ::
      sealFrom (seq + 1) (chainLink sha256 prev row.toCanonicalRow) pending

/-! ### Accepted chains -/

/-- The positions are dense. -/
def Dense : ℤ → List ChainEntry → Prop
  | _, [] => True
  | seq, entry :: entries => entry.seq = seq ∧ Dense (seq + 1) entries

/-- An entry with the row that it seals. -/
def block (pair : ChainEntry × ChainedAuditRow) : Block Bytes CanonicalRow :=
  ⟨pair.1.prevHash, pair.2.toCanonicalRow, pair.1.recordHash⟩

/-- The pairs are the entries, each with the row of its id. -/
structure Pairs (entries : List ChainEntry) (pairs : List (ChainEntry × ChainedAuditRow)) : Prop where
  entries : pairs.map Prod.fst = entries
  rows : ∀ pair ∈ pairs, rows.lookup pair.1.auditId = some pair.2

variable {sha256 rows} {entries : List ChainEntry}

variable {pairs : List (ChainEntry × ChainedAuditRow)}

theorem Pairs.nil_iff : Pairs rows [] pairs ↔ pairs = [] := by
  constructor
  · intro h
    exact map_eq_nil_iff.mp h.entries
  · rintro rfl
    exact ⟨rfl, by simp⟩

variable {e : ChainEntry} {s : List Bytes}

theorem Pairs.cons_iff :
    Pairs rows (e :: entries) pairs ↔
      ∃ row rest, pairs = (e, row) :: rest ∧ rows.lookup e.auditId = some row ∧ Pairs rows entries rest := by
  constructor
  · rintro ⟨he, hr⟩
    obtain ⟨pair, rest, rfl, rfl, hre⟩ := map_eq_cons_iff.mp he
    rw [forall_mem_cons] at hr
    exact ⟨pair.2, rest, rfl, hr.1, hre, hr.2⟩
  · rintro ⟨row, rest, rfl, hro, hre⟩
    exact ⟨by rw [map_cons, hre.entries], forall_mem_cons.mpr ⟨hro, hre.rows⟩⟩

theorem checkEntry_eq_ok_iff {es : ℤ} {ep : Option Bytes} :
    checkEntry sha256 rows es ep e = .ok () ↔
      e.seq = es ∧ (∀ p ∈ ep, e.prevHash = p) ∧
        ∃ row, rows.lookup e.auditId = some row ∧ e.recordHash = chainLink sha256 e.prevHash row.toCanonicalRow := by
  simp only [checkEntry, bind_eq_ok_iff, exists_unit_iff, refuseIf_eq_ok_iff, okOr_eq_ok_iff]
  push Not
  simp [eq_comm (a := e.recordHash)]

theorem walk_eq_ok_iff {es : ℤ} {e : Option Bytes} {r : List Bytes} :
    walk sha256 rows es e s entries = .ok r ↔
      Dense es entries ∧ r = (entries.map ChainEntry.auditId).reverse ++ s ∧
        ∃ pairs, Pairs rows entries pairs ∧ Linked (chainLink sha256) e (pairs.map block) := by
  induction entries generalizing es e s with
  | nil => simp [walk, Dense, Pairs.nil_iff, Linked, eq_comm]
  | cons entry entries ih =>
    simp only [walk, check_bind_eq_ok_iff, checkEntry_eq_ok_iff, ih, Dense, Pairs.cons_iff]
    constructor
    · rintro ⟨⟨hs, hp, row, hr, hh⟩, hd, hre, pairs, hpr, hl⟩
      refine ⟨⟨hs, hd⟩, by simp [hre], _, ⟨row, pairs, rfl, hr, hpr⟩, hp, hh, hl⟩
    · rintro ⟨⟨hs, hd⟩, hre, _, ⟨row, pairs, rfl, hr, hpr⟩, hp, hh, hl⟩
      exact ⟨⟨hs, hp, row, hr, hh⟩, hd, by simp [hre], pairs, hpr, hl⟩

/-- No row that nothing seals stands before the last row that is sealed. -/
def UnsealedAfter (rows : RowMap) (entries : List ChainEntry) : Prop :=
  ∀ last ∈ lastSealed rows entries, ∀ row ∈ rows, row.1 ∉ entries.map ChainEntry.auditId → last.position ≤ row.2.position

theorem unchained_eq_none_iff (hs : ∀ id, id ∈ s ↔ id ∈ entries.map ChainEntry.auditId) :
    unchained rows entries s = none ↔ UnsealedAfter rows entries := by
  unfold unchained UnsealedAfter
  cases lastSealed rows entries with
  | none => simp
  | some last => simp [hs]

theorem verifyChainEntries_eq_ok_iff {v : ChainVerified} : verifyChainEntries sha256 rows entries = .ok v ↔
    Dense ((entries.head?.map ChainEntry.seq).getD 1) entries ∧
      (∃ pairs, Pairs rows entries pairs ∧ Linked (chainLink sha256) none (pairs.map block)) ∧
      UnsealedAfter rows entries ∧ v = ⟨entries.length⟩ := by
  simp only [verifyChainEntries, bind_eq_ok_iff, walk_eq_ok_iff]
  constructor
  · rintro ⟨s, ⟨hd, rfl, hp⟩, hvf⟩
    split at hvf
    · cases hvf
    · rename_i hn
      refine ⟨hd, hp, (unchained_eq_none_iff (by simp)).mp hn, ?_⟩
      exact (Except.ok.inj hvf).symm
  · rintro ⟨hd, hp, ha, rfl⟩
    refine ⟨_, ⟨hd, rfl, hp⟩, ?_⟩
    rw [(unchained_eq_none_iff (by simp)).mpr ha]

/-- The canonical fields of the rows that are sealed, entry by entry. -/
def sealedRows (rows : RowMap) (entries : List ChainEntry) : List (Option CanonicalRow) :=
  entries.map fun entry => (rows.lookup entry.auditId).map ChainedAuditRow.toCanonicalRow

theorem Pairs.sealedRows (h : Pairs rows entries pairs) :
    sealedRows rows entries = (pairs.map block).map fun b => some b.record := by
  rw [AuditChain.sealedRows, ← h.entries, map_map, map_map]
  refine map_congr_left fun pair hp => ?_
  simp [h.rows pair hp, block]

theorem Pairs.lastHash (h : Pairs rows entries pairs) :
    (pairs.map block).getLast?.map Block.hash = entries.getLast?.map ChainEntry.recordHash := by
  rw [← h.entries, ← List.getLast?_map, ← List.getLast?_map, map_map, map_map]
  rfl

/-- **An accepted chain commits to its history.** Two accepted chains of one length with one last hash seal the same
rows, position by position and in every field that is hashed; and a row that is not sealed stands at or behind the last
one that is. -/
theorem accepted_history_determined {sha256 : Bytes → Bytes} (hsha : Function.Injective sha256) {rows rows' : RowMap}
    {entries entries' : List ChainEntry} {verified verified' : ChainVerified}
    (h : verifyChainEntries sha256 rows entries = .ok verified) (h' : verifyChainEntries sha256 rows' entries' = .ok verified')
    (hlen : entries.length = entries'.length)
    (hlast : entries.getLast?.map ChainEntry.recordHash = entries'.getLast?.map ChainEntry.recordHash) :
    sealedRows rows entries = sealedRows rows' entries' ∧ none ∉ sealedRows rows entries ∧
      UnsealedAfter rows entries ∧ UnsealedAfter rows' entries' := by
  obtain ⟨-, ⟨pairs, hpa, hli⟩, haf, -⟩ := verifyChainEntries_eq_ok_iff.mp h
  obtain ⟨-, ⟨pai', hpa', hli'⟩, haf', -⟩ := verifyChainEntries_eq_ok_iff.mp h'
  have hbl : pairs.map block = pai'.map block := by
    refine hli.determined (chainLink_injective hsha) hli' ?_ ?_
    · rw [← hpa.entries, ← hpa'.entries] at hlen
      simpa using hlen
    · rw [hpa.lastHash, hpa'.lastHash, hlast]
  refine ⟨?_, ?_, haf, haf'⟩
  · rw [hpa.sealedRows, hpa'.sealedRows, hbl]
  · rw [hpa.sealedRows]
    simp

/-- An audit row with this id and time. -/
def auditRow (id : String) (occurredMicros : ℤ) : ChainedAuditRow where
  auditId := ascii id
  action := ascii "client.update"
  actorKind := ascii "service"
  actorId := ascii "svc"
  targetKind := ascii "client"
  targetId := ascii "cli"
  correlationId := ascii "req"
  occurredMicros := occurredMicros
  detail := none
  organizationId := none
  subjectId := none

/-- Two rows that are sealed and a later one that is not. -/
def sampleRows (organization : Option Bytes) : RowMap :=
  [("aud_1", 5), ("aud_2", 7), ("aud_3", 9)].map fun row =>
    (ascii row.1, { auditRow row.1 row.2 with organizationId := organization })

/-- The organization of a row is not hashed, hence two maps that differ in it have one chain. -/
theorem sample_history_determined :
    sealedRows (sampleRows none) (sealFrom id 0 [] [auditRow "aud_1" 5, auditRow "aud_2" 7]) =
      sealedRows (sampleRows (some (ascii "org"))) (sealFrom id 0 [] [auditRow "aud_1" 5, auditRow "aud_2" 7]) := by
  have hno : verifyChainEntries id (sampleRows none) (sealFrom id 0 [] [auditRow "aud_1" 5, auditRow "aud_2" 7]) =
      .ok ⟨2⟩ := by decide +kernel
  have hso : verifyChainEntries id (sampleRows (some (ascii "org")))
      (sealFrom id 0 [] [auditRow "aud_1" 5, auditRow "aud_2" 7]) = .ok ⟨2⟩ := by decide +kernel
  exact (accepted_history_determined Function.injective_id hno hso rfl rfl).1

end IronAuth.Store.AuditChain
