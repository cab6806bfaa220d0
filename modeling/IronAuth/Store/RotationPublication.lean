import IronAuth.Store.RotationTicks

/-!
# The rotation and the published keys

The issuer serves and signs from the stored lifecycles: it loads the rows of a scope into a key set. A
tick writes the retirement of a key when it comes to it, which may be late, and until then the key is not
retired in any state that the issuer can load. So what a key has signed it signed before its retirement,
and the expiry that is written with that is far enough off for the key's tokens.

A tick publishes a successor not before its own instant. A copy of the keys that was fetched within the
pre-publication window before the successor signs was therefore fetched after the tick.
-/

namespace IronAuth.Store.KeyRotation

open Lib Lib.Timeline Lib.Machine List
open Jose (JwsAlgorithm KeySet SigningKey KeyLifecycle isActive isPublished)

/-! ### The issuer's key set -/

/-- `system_time_from_micros`, in nanoseconds. What an `i64` of microseconds can be always fits. -/
def systemTimeFromMicros (micros : ℤ) : ℤ := micros * 1000

/-- The key of a row. Its identifier is the `kid`. -/
def SigningKeyRow.signingKey (row : SigningKeyRow) : SigningKey SigningKeyId := ⟨some row.id, row.algorithm⟩

def SigningKeyRow.lifecycle (row : SigningKeyRow) : KeyLifecycle where
  publishAt := systemTimeFromMicros row.publishAt
  activateAt := systemTimeFromMicros row.activateAt
  retireAt := row.retireAt.map systemTimeFromMicros
  expireAt := row.expireAt.map systemTimeFromMicros

/-- The key set that the issuer loads. A row whose key cannot be reconstructed is skipped. -/
def keySet (loads : SigningKeyId → Bool) (keys : SigningKeys) : KeySet SigningKeyId :=
  KeySet.fromLifecycles ((keys.list.filter fun row => loads row.id).map fun row => (row.signingKey, row.lifecycle))

/-- When a tick takes place. -/
def Tick.date (tick : Tick) : ℤ := systemTimeFromMicros tick.now

/-- The keys as of an instant: after the ticks up to it. -/
abbrev keysAt (machine : RotationStateMachine) (keys : SigningKeys) (ticks : List Tick) (now : ℤ) : SigningKeys :=
  asOf (advance machine) Tick.date keys ticks now

variable {machine : RotationStateMachine} {loads : SigningKeyId → Bool} {keys : SigningKeys}

theorem mem_keySet {mng : Jose.ManagedKey SigningKeyId} :
    mng ∈ (keySet loads keys).keys ↔
      ∃ row ∈ keys.rows, loads row.id = true ∧ mng = ⟨row.signingKey, row.lifecycle⟩ := by
  simp only [keySet, KeySet.fromLifecycles, map_map, mem_map, mem_filter, mem_list, Function.comp_apply, and_assoc,
    eq_comm]

variable {row : SigningKeyRow}

/-- A row that is published in time and has not expired is among the published keys. -/
theorem mem_publishedSigningKeys (hr : row ∈ keys.rows) (hl : loads row.id = true) {now : ℤ}
    (hp : systemTimeFromMicros row.publishAt ≤ now)
    (he : ∀ expireAt, row.expireAt = some expireAt → now < systemTimeFromMicros expireAt) :
    row.signingKey ∈ (keySet loads keys).publishedSigningKeys now := by
  refine mem_map.mpr ⟨⟨row.signingKey, row.lifecycle⟩, mem_filter.mpr ⟨mem_keySet.mpr ⟨row, hr, hl, rfl⟩, ?_⟩, rfl⟩
  rw [isPublished, Bool.and_eq_true, decide_eq_true_eq]
  refine ⟨hp, ?_⟩
  cases hc : row.expireAt with
  | none => simp [SigningKeyRow.lifecycle, hc]
  | some expireAt => simpa [SigningKeyRow.lifecycle, hc] using he expireAt hc

/-! ### A row over time -/

/-- A row that a tick retires. -/
def SigningKeyRow.retire (machine : RotationStateMachine) (now : ℤ) (row : SigningKeyRow) : SigningKeyRow :=
  { row with retireAt := some now, expireAt := some (expireInstant machine now) }

/-- A row later on: as it was, or retired since, at an instant that meets a condition. -/
inductive RowEvolves (machine : RotationStateMachine) (R : ℤ → Prop) (before : SigningKeyRow) : SigningKeyRow → Prop
  | same : RowEvolves machine R before before
  | retired {now : ℤ} (hopen : before.retireAt = none) (h : R now) : RowEvolves machine R before (before.retire machine now)

variable {R : ℤ → Prop}

variable {a b : SigningKeyRow}

theorem RowEvolves.trans {c : SigningKeyRow} (hab : RowEvolves machine R a b) (hbc : RowEvolves machine R b c) :
    RowEvolves machine R a c := by
  cases hab with
  | same => exact hbc
  | retired ho h =>
    cases hbc with
    | same => exact .retired ho h
    | retired ho2 => cases ho2

section

variable (h : RowEvolves machine R a b)

include h

theorem RowEvolves.imp {R2 : ℤ → Prop}
    (hR : ∀ now, R now → R2 now) : RowEvolves machine R2 a b := by
  cases h with
  | same => exact .same
  | retired ho h => exact .retired ho (hR _ h)

theorem RowEvolves.publishAt_eq : b.publishAt = a.publishAt := by
  cases h <;> rfl

theorem RowEvolves.id_eq : b.id = a.id := by
  cases h <;> rfl

theorem RowEvolves.signingKey_eq :
    b.signingKey = a.signingKey := by
  cases h <;> rfl

end

variable {tick : Tick}

/-- A tick may retire a row that is not retired yet. -/
theorem TickEffect.evolves {a : JwsAlgorithm} {s r : Option SigningKeyRow} {next : SigningKeys}
    (h : TickEffect machine tick keys a s r next) (hr : row ∈ keys.rows) :
    RowEvolves machine (· = tick.now) row
      (r.elim row fun o => row.retireIf o.id tick.now (expireInstant machine tick.now)) := by
  cases r with
  | none => exact .same
  | some o =>
    obtain ⟨head, -, holder, -⟩ := h.of_retired o rfl
    simp only [Option.elim_some, SigningKeyRow.retireIf]
    split
    · rename_i hid
      obtain rfl := eq_of_id_eq keys hr (mem_list.mp holder.mem) hid
      exact .retired holder.retireAt_eq rfl
    · exact .same

/-- A row that is there stays. -/
theorem evolves_of_mem_advance (machine : RotationStateMachine) (tick : Tick) (hr : row ∈ keys.rows) :
    ∃ later ∈ (advance machine keys tick).2.rows, RowEvolves machine (· = tick.now) row later := by
  obtain ⟨s, retired, he, -⟩ :=
    exists_tickEffect machine tick keys (append_nil _).symm ⟨[], [], [], []⟩ row.algorithm
  refine ⟨_, ?_, he.evolves hr⟩
  have hm : row ∈ keysOf keys.rows row.algorithm := mem_filter.mpr ⟨hr, by simp⟩
  refine mem_of_mem_filter (p := fun key => decide (key.algorithm = row.algorithm)) ?_
  show _ ∈ keysOf _ row.algorithm
  rw [advance, he.keysOf_eq]
  cases retired with
  | none => exact mem_append_left _ hm
  | some o => exact mem_append_left _ (mem_map_of_mem hm)

/-- A key that a tick has seeded: it is published for the window before it is active. -/
structure Provisioned (machine : RotationStateMachine) (row : SigningKeyRow) : Prop where
  retireAt_eq : row.retireAt = none
  expireAt_eq : row.expireAt = none
  activateAt_eq : row.activateAt = row.publishAt + machine.policy.prePublication

/-- A row that is there after a tick was there before it, or was seeded, and is published from then on at
the earliest. -/
theorem exists_of_mem_advance (hro : row ∈ (advance machine keys tick).2.rows) :
    (∃ e ∈ keys.rows, RowEvolves machine (· = tick.now) e row) ∨
      tick.now ≤ row.publishAt ∧ Provisioned machine row := by
  obtain ⟨s, retired, he, -⟩ :=
    exists_tickEffect machine tick keys (append_nil _).symm ⟨[], [], [], []⟩ row.algorithm
  have hm : row ∈ keysOf (advance machine keys tick).2.rows row.algorithm := mem_filter.mpr ⟨hro, by simp⟩
  rw [advance, he.keysOf_eq, mem_append] at hm
  obtain ho | hsd := hm
  · left
    cases retired with
    | none => exact ⟨row, mem_of_mem_filter ho, .same⟩
    | some o =>
      obtain ⟨e, hea, rfl⟩ := mem_map.mp ho
      have hr := mem_of_mem_filter hea
      exact ⟨e, hr, he.evolves hr⟩
  · right
    obtain ⟨-, -, -, head, -, hk⟩ := he.of_seeded row (Option.mem_toList.mp hsd)
    exact ⟨hk.now_le, hk.retireAt_eq, hk.expireAt_eq, hk.activateAt_eq⟩

/-! ### Runs -/

/-- The keys of a scope on its first day: each is published when it becomes active. -/
def DayOne (keys : SigningKeys) : Prop :=
  ∀ row ∈ keys.rows, row.publishAt = row.activateAt ∧ row.retireAt = none ∧ row.expireAt = none

instance (keys : SigningKeys) : Decidable (DayOne keys) :=
  inferInstanceAs (Decidable (∀ row ∈ keys.rows, row.publishAt = row.activateAt ∧ row.retireAt = none ∧ row.expireAt = none))

/-- What is known of a row as of an instant: its retirement is not still to come, it expires only if it is
retired, it is published before it is active, and for the whole window unless it is of the first day. -/
structure Lawful (machine : RotationStateMachine) (first : SigningKeys) (now : ℤ) (row : SigningKeyRow) : Prop where
  retireAt_le : ∀ retireAt, row.retireAt = some retireAt → systemTimeFromMicros retireAt ≤ now
  expireAt_eq : row.retireAt = none → row.expireAt = none
  publishAt_le : row.publishAt ≤ row.activateAt
  origin : (∃ day ∈ first.rows, RowEvolves machine (fun _ => True) day row) ∨
    row.activateAt = row.publishAt + machine.policy.prePublication

theorem Lawful.retire {now : ℤ} (h : Lawful machine keys now row) (ho : row.retireAt = none) {ret : ℤ}
    (hle : systemTimeFromMicros ret ≤ now) : Lawful machine keys now (row.retire machine ret) where
  retireAt_le := by
    rintro _ ⟨⟩
    exact hle
  expireAt_eq := by simp [SigningKeyRow.retire]
  publishAt_le := h.publishAt_le
  origin := by
    refine h.origin.imp_left ?_
    rintro ⟨day, hd, hev⟩
    exact ⟨day, hd, hev.trans (.retired ho trivial)⟩

variable {ticks : List Tick} {now : ℤ}

theorem lawful_keysAt (hd : DayOne keys) : ∀ row ∈ (keysAt machine keys ticks now).rows, Lawful machine keys now row := by
  refine asOf_induction (I := fun l : SigningKeys => ∀ row ∈ l.rows, Lawful machine keys now row)
    (P := fun _ _ => True) (t := now) ?_ ?_ (along_of_forall_mem fun _ _ => trivial)
  · intro l tick ht _ hl row hr
    obtain ⟨e, he, hev⟩ | ⟨-, hp⟩ := exists_of_mem_advance hr
    · have hb := hl e he
      cases hev with
      | same => exact hb
      | retired ho h => exact hb.retire ho (h ▸ ht)
    · have hw : 0 ≤ machine.policy.prePublication := micros_nonneg _
      refine ⟨by simp [hp.retireAt_eq], fun _ => hp.expireAt_eq, ?_, .inr hp.activateAt_eq⟩
      rw [hp.activateAt_eq]
      omega
  · intro row hr
    obtain ⟨hpu, hrt, hx⟩ := hd row hr
    exact ⟨by simp [hrt], fun _ => hx, hpu.le, .inl ⟨row, hr, .same⟩⟩

/-- A row is there later on, and was not retired before the instant it was seen at. -/
theorem evolves_keysAt (hs : ticks.Pairwise fun a b => a.date ≤ b.date) {l : ℤ} (hl : now ≤ l)
    (hr : row ∈ (keysAt machine keys ticks now).rows) :
    ∃ after ∈ (keysAt machine keys ticks l).rows, RowEvolves machine (now < systemTimeFromMicros ·) row after := by
  refine asOf_later (P := fun _ _ => True) (t := now)
    (I := fun l : SigningKeys => ∃ after ∈ l.rows, RowEvolves machine (now < systemTimeFromMicros ·) row after)
    hs hl ?_ (along_of_forall_mem fun _ _ => trivial) ⟨row, hr, .same⟩
  rintro l tick ht - - ⟨after, ha, hev⟩
  obtain ⟨a2, ha2, hev2⟩ := evolves_of_mem_advance machine tick ha
  exact ⟨a2, ha2, hev.trans (hev2.imp fun _ heq => heq ▸ ht)⟩

/-- A row was there earlier, or is not published until after that. -/
theorem exists_evolves_keysAt (hs : ticks.Pairwise fun a b => a.date ≤ b.date) {e : ℤ}
    (he : e ≤ now) (hr : row ∈ (keysAt machine keys ticks now).rows) :
    (∃ before ∈ (keysAt machine keys ticks e).rows, RowEvolves machine (fun _ => True) before row) ∨
      e < systemTimeFromMicros row.publishAt := by
  revert row
  refine asOf_later (P := fun _ _ => True) (t := e)
    (I := fun l : SigningKeys => ∀ {row}, row ∈ l.rows →
      (∃ before ∈ (keysAt machine keys ticks e).rows, RowEvolves machine (fun _ => True) before row) ∨
        e < systemTimeFromMicros row.publishAt)
    hs he ?_ (along_of_forall_mem fun _ _ => trivial) (fun hr => .inl ⟨_, hr, .same⟩)
  intro l tick ht _ _ hla row hr
  obtain ⟨before, hb, hev⟩ | ⟨hn, -⟩ := exists_of_mem_advance hr
  · obtain ⟨first, hf, hev1⟩ | hl := hla hb
    · exact .inl ⟨first, hf, hev1.trans (hev.imp fun _ _ => trivial)⟩
    · exact .inr (hev.publishAt_eq ▸ hl)
  · right
    unfold Tick.date at ht
    unfold systemTimeFromMicros at ht ⊢
    omega

/-- **The rotation never orphans a token.** The key that signs at an instant is published at every time from
then on until a token expires that lives for as long as a token may, and it is in every copy of the
published keys that was fetched within the pre-publication window before, unless it is a key of the first
day. -/
theorem rotation_keeps_keys (machine : RotationStateMachine) (loads : SigningKeyId → Bool) (keys : SigningKeys) (hdayOne : DayOne keys)
    (ticks : List Tick) (hsorted : ticks.Pairwise fun a b => a.date ≤ b.date) (algorithm : JwsAlgorithm) (now : ℤ)
    (key : SigningKey SigningKeyId)
    (hsigner : (keySet loads (keysAt machine keys ticks now)).activeSignerFor now algorithm = some key) :
    (∀ expiry ≤ now + systemTimeFromMicros (micros machine.maxTokenLifetimeSecs), expiry ≤ systemTimeFromMicros i64Max →
      ∀ later, now ≤ later → later < expiry → key ∈ (keySet loads (keysAt machine keys ticks later)).publishedSigningKeys later) ∧
    ((∃ day ∈ keys.rows, day.signingKey = key ∧ day.publishAt = day.activateAt) ∨
      ∀ fetchedAt ≤ now, now - systemTimeFromMicros machine.policy.prePublication ≤ fetchedAt →
        key ∈ (keySet loads (keysAt machine keys ticks fetchedAt)).publishedSigningKeys fetchedAt) := by
  rw [KeySet.activeSignerFor, Option.map_eq_some_iff] at hsigner
  obtain ⟨managed, hman, rfl⟩ := hsigner
  have hme := mem_of_maxByKey hman
  rw [mem_filter, Bool.and_eq_true, isActive, Bool.and_eq_true, decide_eq_true_eq] at hme
  obtain ⟨hme, -, hac, hrt⟩ := hme
  obtain ⟨row, hrow, hlo, rfl⟩ := mem_keySet.mp hme
  have hac : systemTimeFromMicros row.activateAt ≤ now := of_decide_eq_true hac
  have hre : ∀ retireAt, row.retireAt = some retireAt → now < systemTimeFromMicros retireAt := by
    intro retireAt heq
    simpa [SigningKeyRow.lifecycle, heq] using hrt
  have hla := lawful_keysAt hdayOne row hrow
  -- The key is not retired in the state that it is taken from.
  have hpe : row.retireAt = none := by
    cases hcase : row.retireAt with
    | none => rfl
    | some retireAt => exact absurd (hre retireAt hcase) (not_lt.mpr (hla.retireAt_le retireAt hcase))
  have hub := hla.publishAt_le
  refine ⟨?_, ?_⟩
  · intro expiry hexp hmax later hat hli
    obtain ⟨after, haf, hev⟩ := evolves_keysAt hsorted hat hrow
    rw [← hev.signingKey_eq]
    apply mem_publishedSigningKeys haf (hev.id_eq ▸ hlo)
    · rw [hev.publishAt_eq]
      unfold systemTimeFromMicros at hac ⊢
      omega
    · intro expireAt hxp
      cases hev with
      | same => cases (hla.expireAt_eq hpe).symm.trans hxp
      | retired _ hft =>
        cases hxp
        have hb := micros_nonneg machine.policy.retirementBufferSecs
        unfold systemTimeFromMicros at *
        unfold expireInstant saturatingAdd
        omega
  · obtain ⟨day, hday, hev⟩ | hwindow := hla.origin
    · exact .inl ⟨day, hday, hev.signingKey_eq.symm, (hdayOne day hday).1⟩
    · right
      intro fetchedAt hfe hwi
      have hpu : systemTimeFromMicros row.publishAt ≤ fetchedAt := by
        unfold systemTimeFromMicros at *
        omega
      obtain ⟨before, hbe, hev⟩ | hlate := exists_evolves_keysAt hsorted hfe hrow
      · cases hev with
        | same =>
          apply mem_publishedSigningKeys hbe hlo hpu
          simp [hla.expireAt_eq hpe]
        | retired => cases hpe
      · exact absurd hpu (not_le.mpr hlate)

/-- A machine that rotates every ten seconds, publishes a key two seconds ahead, and has tokens of three. -/
def quickMachine : RotationStateMachine := ⟨⟨10, 2, 1⟩, 3, .localKeys, false⟩

/-- The key `0`, which is active from the epoch on. -/
def firstRow : SigningKeyRow := ⟨0, .edDsa, .ed25519Seed, 0, 0, none, none, 0⟩

/-- A scope with one key. -/
def firstDay : SigningKeys := ⟨[firstRow], [], by decide⟩

/-- A tick at which the clock reads the tick's instant, with an identifier for a successor. -/
def tickAt (now : ℤ) (h : IsI64 now) (id : SigningKeyId) : Tick := ⟨now, h, fun _ => ⟨id, true, true, now, now⟩⟩

/-- The second key is seeded nine seconds after the epoch. It signs after twelve seconds, and a copy of the keys
that is two seconds old then has it. -/
theorem second_key_known :
    (⟨some 1, .edDsa⟩ : SigningKey SigningKeyId) ∈
      (keySet (fun _ => true) (keysAt quickMachine firstDay [tickAt 9000000 (by decide) 1] 10000000000)).publishedSigningKeys
        10000000000 := by
  have h := (rotation_keeps_keys quickMachine (fun _ => true) firstDay (by decide) [tickAt 9000000 (by decide) 1] (by simp)
    .edDsa 12000000000 ⟨some 1, .edDsa⟩ (by decide)).2
  exact h.resolve_left (by decide) 10000000000 (by decide) (by decide)

end IronAuth.Store.KeyRotation
