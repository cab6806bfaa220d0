import IronAuth.Store.RotationPublication

/-!
# Timers on several nodes

Every node runs the timer, and no lease keeps them apart: the pass is held to be idempotent. But a tick
acts on a listing, and what it then writes it writes without looking again. Two ticks that have listed the
same head both provision a successor for it, and a promotion that comes late writes the retirement of a
key once more.

A step is a listing or one transaction. Between those of one node those of the others may come, in any
order.
-/

namespace IronAuth.Store.KeyRotation

open Lib Lib.Timeline Lib.Machine List
open Jose (JwsAlgorithm)

/-! ### Nodes -/

/-- A tick under way: the listing it took, and the calls it still has to make. -/
structure Running where
  tick : Tick
  listing : List SigningKeyRow
  rest : List (JwsAlgorithm × Call)

structure System (N : Type) where
  keys : SigningKeys
  running : N → Option Running

inductive Turn (N : Type) where
  | list (node : N) (tick : Tick)
  | call (node : N)

/-- A transaction that was committed, with the head that its tick had listed. -/
structure Committed where
  algorithm : JwsAlgorithm
  head : Option SigningKeyId
  transaction : Transaction

variable {N : Type} [DecidableEq N] {machine : RotationStateMachine}

/-- A node goes on with other keys in the table. -/
def System.put (system : System N) (node : N) (running : Option Running) (keys : SigningKeys) : System N :=
  ⟨keys, fun other => if other = node then running else system.running other⟩

/-- A node begins a tick, or makes the next call of the one that it is at. A call that fails ends the tick. -/
def turn (machine : RotationStateMachine) (system : System N) : Turn N → Option Committed × System N
  | .list node tick =>
    (none, system.put node (some ⟨tick, system.keys.list, plan machine tick system.keys.list⟩) system.keys)
  | .call node =>
    match system.running node with
    | some ⟨tick, listing, (algorithm, .ok transaction) :: rest⟩ =>
      match perform system.keys transaction with
      | .ok (_, keys) =>
        (some ⟨algorithm, (head (keysOf listing algorithm) tick.now).map SigningKeyRow.id, transaction⟩,
          system.put node (some ⟨tick, listing, rest⟩) keys)
      | .error _ => (none, system.put node none system.keys)
    | _ => (none, system.put node none system.keys)

/-- No node is at a tick. -/
def start (keys : SigningKeys) : System N := ⟨keys, fun _ => none⟩

/-- The head that a successor is provisioned for. -/
def Committed.predecessor (committed : Committed) : List SigningKeyId :=
  match committed.transaction with
  | .provision _ => committed.head.toList
  | .promote .. | .markWithdrawn _ => []

def predecessors (entry : Turn N × Option Committed) : List SigningKeyId := entry.2.elim [] Committed.predecessor

omit [DecidableEq N] in
theorem count_predecessors_le_one (e : Turn N × Option Committed) (id : SigningKeyId) : (predecessors e).count id ≤ 1 := by
  refine count_le_length.trans ?_
  obtain ⟨-, answer⟩ := e
  cases answer with
  | none => exact Nat.zero_le 1
  | some committed =>
    rw [predecessors, Option.elim_some, Committed.predecessor]
    split
    · exact Option.length_toList_le
    · exact Nat.zero_le 1
    · exact Nat.zero_le 1

/-- Each key has one successor at most, and one that was rotated out has one: a key that is retired, or beside
which there is a later one. -/
def OneSuccessor (machine : RotationStateMachine) (keys : SigningKeys) (turns : List (Turn N)) : Prop :=
  (∀ id, ((transcript (turn machine) (start keys) turns).flatMap predecessors).count id ≤ 1) ∧
    ∀ row ∈ (run (turn machine) (start keys) turns).keys.rows,
      (row.retireAt ≠ none ∨ ∃ later ∈ (run (turn machine) (start keys) turns).keys.rows,
        later.algorithm = row.algorithm ∧ row.activateAt < later.activateAt) →
      ((transcript (turn machine) (start keys) turns).flatMap predecessors).count row.id = 1

/-- A key that is retired stays as it is. -/
def KeepsRetirement (machine : RotationStateMachine) (keys : SigningKeys) (turns : List (Turn N)) : Prop :=
  ∀ before after, turns = before ++ after → ∀ row ∈ (run (turn machine) (start keys) before).keys.rows, row.retireAt ≠ none →
    row ∈ (run (turn machine) (start keys) turns).keys.rows

/-! ### The condition -/

/-- The algorithm whose keys the next call of a tick writes. -/
def Running.writes (running : Running) : Option JwsAlgorithm :=
  match running.rest with
  | (algorithm, .ok (.provision _)) :: _ => some algorithm
  | (algorithm, .ok (.promote ..)) :: _ => some algorithm
  | _ => none

/-- The keys of an algorithm are still those that a tick has listed, but for one that it has provisioned
itself. -/
structure UpToDate (running : Running) (algorithm : JwsAlgorithm) (keys : SigningKeys) : Prop where
  kept : ∀ row ∈ running.listing, row.algorithm = algorithm → row ∈ keys.rows
  known : ∀ row ∈ keys.rows, row.algorithm = algorithm → row ∈ running.listing ∨ row.id = (running.tick.seeding algorithm).id

instance (running : Running) (algorithm : JwsAlgorithm) (keys : SigningKeys) : Decidable (UpToDate running algorithm keys) :=
  decidable_of_iff ((∀ row ∈ running.listing, row.algorithm = algorithm → row ∈ keys.rows) ∧
    ∀ row ∈ keys.rows, row.algorithm = algorithm → row ∈ running.listing ∨ row.id = (running.tick.seeding algorithm).id)
    ⟨fun h => ⟨h.1, h.2⟩, fun h => ⟨h.kept, h.known⟩⟩

/-- A successor is activated later than its head: there is a window or a cadence. -/
def Advances (machine : RotationStateMachine) (tick : Tick) : Prop :=
  0 < machine.policy.prePublication ∨ 0 < machine.policy.cadence ∧ tick.now < i64Max

instance (machine : RotationStateMachine) (tick : Tick) : Decidable (Advances machine tick) :=
  inferInstanceAs (Decidable (0 < machine.policy.prePublication ∨ 0 < machine.policy.cadence ∧ tick.now < i64Max))

/-- A tick that is about to write an algorithm's keys has an up-to-date listing of them. -/
def Undisturbed (machine : RotationStateMachine) (system : System N) : Turn N → Prop
  | .list _ tick => Advances machine tick
  | .call node => ∀ running ∈ system.running node, ∀ algorithm ∈ running.writes, UpToDate running algorithm system.keys

instance (machine : RotationStateMachine) (system : System N) : ∀ input, Decidable (Undisturbed machine system input)
  | .list _ tick => inferInstanceAs (Decidable (Advances machine tick))
  | .call node =>
    inferInstanceAs (Decidable (∀ running ∈ system.running node, ∀ algorithm ∈ running.writes, UpToDate running algorithm system.keys))

/-! ### What a turn does -/

/-- A turn changes a node only, or commits the next transaction of its tick. -/
theorem turn_cases (machine : RotationStateMachine) (s : System N) (inp : Turn N) :
    (∃ node running, turn machine s inp = (none, s.put node running s.keys) ∧
        (running = none ∨ ∃ tick, inp = .list node tick ∧
          running = some ⟨tick, s.keys.list, plan machine tick s.keys.list⟩)) ∨
      ∃ node tick listing algorithm transaction rest w keys, inp = .call node ∧
        s.running node = some ⟨tick, listing, (algorithm, .ok transaction) :: rest⟩ ∧
        perform s.keys transaction = .ok (w, keys) ∧
        turn machine s inp =
          (some ⟨algorithm, (head (keysOf listing algorithm) tick.now).map SigningKeyRow.id, transaction⟩,
            s.put node (some ⟨tick, listing, rest⟩) keys) := by
  cases inp with
  | list node tick => exact .inl ⟨node, _, rfl, .inr ⟨tick, rfl, rfl⟩⟩
  | call node =>
    unfold turn
    dsimp only
    split
    · rename_i tick listing algorithm transaction rest hr
      split
      · rename_i w keys hpf
        exact .inr ⟨node, tick, listing, algorithm, transaction, rest, w, keys, rfl, hr, hpf, rfl⟩
      · exact .inl ⟨node, none, rfl, .inl rfl⟩
    · exact .inl ⟨node, none, rfl, .inl rfl⟩

/-- The keys of each algorithm are activated at different instants, and the last of them is not retired. -/
structure Linear (rows : List SigningKeyRow) : Prop where
  distinct : ∀ a ∈ rows, ∀ b ∈ rows, a.algorithm = b.algorithm → a.activateAt = b.activateAt → a = b
  covered : ∀ row ∈ rows, ∃ open' ∈ rows, open'.algorithm = row.algorithm ∧ open'.retireAt = none ∧ row.activateAt ≤ open'.activateAt

/-- What a turn changes when its tick has not been disturbed, with the keys that get a successor: one comes after
the latest key of its algorithm, or a key is retired that has a later one beside it, or all stays as it is. -/
inductive Change (keys : SigningKeys) : List SigningKeyId → List SigningKeyRow → Prop
  | provision {current key : SigningKeyRow} (hcurrent : current ∈ keys.rows) (halgorithm : key.algorithm = current.algorithm)
      (hopen : key.retireAt = none)
      (hlatest : ∀ row ∈ keys.rows, row.algorithm = current.algorithm → row.activateAt ≤ current.activateAt)
      (hlt : current.activateAt < key.activateAt) : Change keys [current.id] (keys.rows ++ [key])
  | promote {current older : SigningKeyRow} (now expire : ℤ) (hcurrent : current ∈ keys.rows) (hcurrentOpen : current.retireAt = none)
      (holder : older ∈ keys.rows) (hopen : older.retireAt = none) (halgorithm : older.algorithm = current.algorithm)
      (hlt : older.activateAt < current.activateAt) : Change keys [] (keys.rows.map (SigningKeyRow.retireIf older.id now expire))
  | same : Change keys [] keys.rows

variable {a : JwsAlgorithm} {row : SigningKeyRow}

/-- What a tick writes whose listing is up to date. -/
theorem change_of_planned {keys next : SigningKeys} {t : Tick} {listing : List SigningKeyRow}
    {tx : Transaction} {r : List (JwsAlgorithm × Call)} {wr : Bool} (hl : Linear keys.rows) (ha : Advances machine t)
    (hp : Planned machine t listing a tx)
    (hup : ∀ w ∈ Running.writes ⟨t, listing, (a, .ok tx) :: r⟩,
      UpToDate ⟨t, listing, (a, .ok tx) :: r⟩ w keys)
    (hpf : perform keys tx = .ok (wr, next)) :
    Change keys (Committed.predecessor ⟨a, (head (keysOf listing a) t.now).map SigningKeyRow.id, tx⟩)
      next.rows := by
  obtain ⟨hr, hn⟩ := perform_cases hpf
  rw [hr]
  cases hp with
  | @provision c key hh hpd hsd =>
    have hu := hup a rfl
    have hc := isHead_of_head hh
    rw [hh, Option.map_some]
    refine .provision (hu.kept c hc.mem hc.algorithm_eq)
      (hsd.algorithm_eq.trans hc.algorithm_eq.symm) hsd.retireAt_eq ?_ ?_
    swap
    · have hpn := hsd.now_le
      have hat := hsd.activateAt_eq
      have hr := hsd.rotation_le
      have hn := hc.activateAt_le
      obtain h | ⟨hcu, hm⟩ := ha
      · omega
      · unfold rotationInstant saturatingAdd at hr
        omega
    intro row hro hal
    rw [hc.algorithm_eq] at hal
    obtain ⟨latest, hla, hlaa, hlao, hle⟩ := hl.covered row hro
    rw [hal] at hlaa
    -- The identifier of the successor is new, so every key of the algorithm was listed.
    have hli : latest ∈ listing :=
      (hu.known latest hla hlaa).resolve_right fun hid => hn key rfl latest hla (hid.trans hsd.id_eq.symm)
    have hac := hasPending_eq_false_iff.mp hpd latest hli hlaa hlao
    exact hle.trans (hc.latest latest hli hlaa hlao hac)
  | @promote c o hh holder hlt =>
    have hu := hup a rfl
    have hc := isHead_of_head hh
    exact .promote _ _ (hu.kept c hc.mem hc.algorithm_eq) hc.retireAt_eq
      (hu.kept o holder.mem holder.algorithm_eq) holder.retireAt_eq
      (holder.algorithm_eq.trans hc.algorithm_eq.symm) hlt
  | markWithdrawn id => exact .same

/-! ### A turn -/

/-- The calls that a tick still has to make were decided from its listing. -/
structure Ready (machine : RotationStateMachine) (running : Running) : Prop where
  advances : Advances machine running.tick
  planned : ∀ algorithm transaction, (algorithm, .ok transaction) ∈ running.rest →
    Planned machine running.tick running.listing algorithm transaction

/-- What holds while no tick is disturbed. -/
structure Steady (machine : RotationStateMachine) (system : System N) : Prop where
  linear : Linear system.keys.rows
  ready : ∀ node running, system.running node = some running → Ready machine running

theorem turn_change {s : System N} (h : Steady machine s) {inp : Turn N} (hi : Undisturbed machine s inp) :
    Change s.keys (predecessors (inp, (turn machine s inp).1)) (turn machine s inp).2.keys.rows := by
  obtain ⟨node, running, ht, -⟩ |
    ⟨node, tick, listing, algorithm, transaction, rest, wrote, keys, rfl, hr, hpf, ht⟩ := turn_cases machine s inp
  · rw [ht]
    exact .same
  · rw [ht]
    have hre := h.ready node _ hr
    exact change_of_planned h.linear hre.advances (hre.planned algorithm transaction mem_cons_self)
      (hi _ hr) hpf

/-- A key that is promoted over is not the last. -/
theorem Change.linear {keys : SigningKeys} {ids : List SigningKeyId} {rows : List SigningKeyRow} (h : Change keys ids rows)
    (hli : Linear keys.rows) : Linear rows := by
  cases h with
  | same => exact hli
  | @provision c key hcu hal ho hla hlt =>
    have hbe : ∀ row ∈ keys.rows, row.algorithm = key.algorithm → row.activateAt < key.activateAt := by
      intro row hro heq
      exact (hla row hro (heq.trans hal)).trans_lt hlt
    constructor
    · simp only [mem_append, mem_singleton]
      rintro a (ha | rfl) b (hb | rfl) hab hac
      · exact hli.distinct a ha b hb hab hac
      · exact absurd hac (hbe a ha hab).ne
      · exact absurd hac (hbe b hb hab.symm).ne'
      · rfl
    · simp only [mem_append, mem_singleton]
      rintro row (hro | rfl)
      · obtain ⟨last, hl, hr⟩ := hli.covered row hro
        exact ⟨last, .inl hl, hr⟩
      · exact ⟨row, .inr rfl, rfl, ho, le_rfl⟩
  | @promote c o now e hcu hu holder ho hal hlt =>
    have hs : ∀ row ∈ keys.rows, row ≠ o → row.retireIf o.id now e = row := by
      intro row hro hne
      exact if_neg fun hid => hne (eq_of_id_eq keys hro holder hid)
    constructor
    · simp only [mem_map]
      rintro _ ⟨a, ha, rfl⟩ _ ⟨b, hb, rfl⟩ hab hac
      rw [hli.distinct a ha b hb (by simpa using hab) (by simpa using hac)]
    · simp only [mem_map]
      rintro _ ⟨row, hro, rfl⟩
      rw [retireIf_algorithm, retireIf_activateAt]
      obtain ⟨last, hl, hlas, hlao, hle⟩ := hli.covered row hro
      by_cases hc : last = o
      · subst hc
        have hne : c ≠ last := fun heq => hlt.ne (heq ▸ rfl)
        exact ⟨c, ⟨c, hcu, hs c hcu hne⟩, hal.symm.trans hlas,
          hu, hle.trans hlt.le⟩
      · exact ⟨last, ⟨last, hl, hs last hl hc⟩, hlas, hlao, hle⟩

theorem Steady.turn {s : System N} (h : Steady machine s) {inp : Turn N} (hi : Undisturbed machine s inp) :
    Steady machine (turn machine s inp).2 := by
  have hp : ∀ node (next : Option Running) keys, (∀ running, next = some running → Ready machine running) →
      ∀ other running, (s.put node next keys).running other = some running → Ready machine running := by
    intro node next keys hn other running hr
    simp only [System.put] at hr
    split at hr
    · exact hn running hr
    · exact h.ready other running hr
  refine ⟨(turn_change h hi).linear h.linear, ?_⟩
  obtain ⟨node, next, ht, hn⟩ |
    ⟨node, tick, listing, algorithm, transaction, rest, wrote, keys, rfl, hr, -, ht⟩ := turn_cases machine s inp
  · rw [ht]
    apply hp
    rintro running rfl
    obtain hn | ⟨tick, rfl, hn⟩ := hn
    · cases hn
    · cases hn
      exact ⟨hi, fun _ _ => mem_plan⟩
  · rw [ht]
    apply hp
    rintro running ⟨⟩
    have hre := h.ready node _ hr
    exact ⟨hre.advances, fun algorithm transaction hm => hre.planned algorithm transaction (mem_cons_of_mem _ hm)⟩

/-! ### Successors -/

/-- A key has a later one beside it. -/
def Superseded (id : SigningKeyId) (rows : List SigningKeyRow) : Prop :=
  ∃ row ∈ rows, row.id = id ∧ ∃ later ∈ rows, later.algorithm = row.algorithm ∧ row.activateAt < later.activateAt

variable {keys : SigningKeys} {ids : List SigningKeyId} {rows : List SigningKeyRow} {id : SigningKeyId}

section

variable (h : Change keys ids rows)

include h

/-- A key that has a later one beside it keeps it. -/
theorem Change.superseded (hid : Superseded id keys.rows) : Superseded id rows := by
  obtain ⟨row, hr, hid, l, hl, ha, hlt⟩ := hid
  cases h with
  | same => exact ⟨row, hr, hid, l, hl, ha, hlt⟩
  | provision => exact ⟨row, mem_append_left _ hr, hid, l, mem_append_left _ hl, ha, hlt⟩
  | promote =>
    exact ⟨_, mem_map_of_mem hr, by simpa using hid, _, mem_map_of_mem hl, by simpa using ha, by simpa using hlt⟩

/-- A key that gets a successor had no later one beside it, and has then. -/
theorem Change.superseded_of_mem (hid : id ∈ ids) : ¬ Superseded id keys.rows ∧ Superseded id rows := by
  cases h with
  | same | promote => cases hid
  | @provision c key hc ha ho hla hlt =>
    obtain rfl := mem_singleton.mp hid
    constructor
    · rintro ⟨row, hr, heq, l, ht, hs, hl⟩
      obtain rfl := eq_of_id_eq keys hr hc heq
      exact absurd hl (not_lt.mpr (hla l ht hs))
    · exact ⟨c, mem_append_left _ hc, rfl, key, mem_append_right _ (mem_singleton_self key), ha, hlt⟩

/-- A key that has a later one beside it had so before, or has just got its successor. -/
theorem Change.superseded_or_mem (hli : Linear keys.rows) (hid : Superseded id rows) :
    Superseded id keys.rows ∨ id ∈ ids := by
  cases h with
  | same => exact .inl hid
  | promote =>
    simp only [Superseded, mem_map] at hid
    obtain ⟨_, ⟨row, hr, rfl⟩, hid, _, ⟨l, hla, rfl⟩, ha, hlt⟩ := hid
    exact .inl ⟨row, hr, by simpa using hid, l, hla, by simpa using ha, by simpa using hlt⟩
  | @provision c key hc ha ho ht hlt =>
    simp only [Superseded, mem_append, mem_singleton] at hid
    obtain ⟨row, hr | rfl, hid, l, hla | rfl, hs, hl⟩ := hid
    · exact .inl ⟨row, hr, hid, l, hla, hs, hl⟩
    · by_cases heq : row = c
      · exact .inr (mem_singleton.mpr (heq ▸ hid.symm))
      · have hro : row.algorithm = c.algorithm := hs.symm.trans ha
        have hne : row.activateAt ≠ c.activateAt := fun h => heq (hli.distinct row hr c hc hro h)
        exact .inl ⟨row, hr, hid, c, hc, hro.symm, lt_of_le_of_ne (ht row hr hro) hne⟩
    · exact absurd (hl.trans_le (ht l hla (hs.trans ha))) (not_lt.mpr hlt.le)
    · exact absurd hl (lt_irrefl _)

/-- A key that is retired stays as it is: only one that is not is promoted over. -/
theorem Change.mem_of_retired (hr : row ∈ keys.rows) (hre : row.retireAt ≠ none) :
    row ∈ rows := by
  cases h with
  | same => exact hr
  | provision => exact mem_append_left _ hr
  | @promote c o now e hc hcu holder ho =>
    refine mem_map.mpr ⟨row, hr, if_neg fun hid => hre ?_⟩
    rw [eq_of_id_eq keys hr holder hid, ho]

end

/-- A key that is retired has a later one beside it. -/
theorem Linear.superseded {rows : List SigningKeyRow} (h : Linear rows) (hr : row ∈ rows) (hre : row.retireAt ≠ none) :
    Superseded row.id rows := by
  obtain ⟨last, hl, ha, ho, hle⟩ := h.covered row hr
  refine ⟨row, hr, rfl, last, hl, ha, lt_of_le_of_ne hle fun heq => hre ?_⟩
  rw [h.distinct row hr last hl ha.symm heq, ho]

/-! ### Runs -/

theorem eq_of_algorithm_eq (ho : (keys.rows.map SigningKeyRow.algorithm).Nodup) {a b : SigningKeyRow} (ha : a ∈ keys.rows)
    (hb : b ∈ keys.rows) (h : a.algorithm = b.algorithm) : a = b := inj_on_of_nodup_map ho ha hb h

theorem not_superseded_start (ho : (keys.rows.map SigningKeyRow.algorithm).Nodup) (id : SigningKeyId) : ¬ Superseded id keys.rows := by
  rintro ⟨row, hr, -, l, hl, ha, hlt⟩
  rw [eq_of_algorithm_eq ho hl hr ha] at hlt
  exact absurd hlt (lt_irrefl _)

/-- **The timers of several nodes converge** when no tick writes an algorithm's keys that another has written since
it listed them, and the rotation has a window or a cadence: a key has one successor at most, exactly one if it was
rotated out, and its retirement and its expiry stay as they were first written. -/
theorem timers_converge (machine : RotationStateMachine) (keys : SigningKeys) (hdayOne : DayOne keys)
    (hone : (keys.rows.map SigningKeyRow.algorithm).Nodup) (turns : List (Turn N))
    (halong : Along (turn machine) (Undisturbed machine) (start keys) turns) :
    OneSuccessor machine keys turns ∧ KeepsRetirement machine keys turns := by
  have hst : Steady machine (start keys : System N) :=
    { linear :=
        { distinct := fun _ ha _ hb hal _ => eq_of_algorithm_eq hone ha hb hal
          covered := fun row hr => ⟨row, hr, rfl, (hdayOne row hr).2.1, le_rfl⟩ }
      ready := by simp [start] }
  have hte : ∀ sys (inp : Turn N), Steady machine sys → Undisturbed machine sys inp →
      Steady machine (turn machine sys inp).2 := fun _ _ h hin => h.turn hin
  have hmo : ∀ id, ((transcript (turn machine) (start keys) turns).flatMap predecessors).count id ≤ 1 := by
    intro id
    refine count_flatMap_le_one_of_along (I := Steady machine) (Q := fun sys : System N => ¬ Superseded id sys.keys.rows)
      hte ?_ ?_ (fun sys inp _ => count_predecessors_le_one _ id) hst halong
    · intro sys inp h hin hid
      exact not_not.mpr ((turn_change h hin).superseded (not_not.mp hid))
    · intro sys inp h hin hid
      exact ((turn_change h hin).superseded_of_mem hid).imp_right not_not.mpr
  refine ⟨⟨hmo, ?_⟩, ?_⟩
  · intro row hrow hro
    have hend : Steady machine (run (turn machine) (start keys) turns) := run_of_along hte hst halong
    have hsu : Superseded row.id (run (turn machine) (start keys) turns).keys.rows := by
      obtain hre | ⟨lat, hla⟩ := hro
      · exact hend.linear.superseded hrow hre
      · exact ⟨row, hrow, rfl, lat, hla⟩
    have hgi := exists_mem_transcript_of_along (I := Steady machine) (Q := fun sys : System N => Superseded row.id sys.keys.rows)
      (p := fun entry => row.id ∈ predecessors entry) hte
      (fun sys inp h hin hid => (turn_change h hin).superseded_or_mem h.linear hid) hst halong hsu
    have hmem := mem_flatMap.mpr (hgi.resolve_left (not_superseded_start hone row.id))
    exact le_antisymm (hmo row.id) (count_pos_iff.mpr hmem)
  · rintro before after rfl row hrow hre
    rw [run_append]
    obtain ⟨hbe, haf⟩ := along_append.mp halong
    have hmid : Steady machine (run (turn machine) (start keys) before) := run_of_along hte hst hbe
    refine (run_of_along (I := fun sys : System N => Steady machine sys ∧ row ∈ sys.keys.rows) ?_ ⟨hmid, hrow⟩ haf).2
    rintro sys inp ⟨h, hmem⟩ hin
    exact ⟨h.turn hin, (turn_change h hin).mem_of_retired hmem hre⟩

/-- Two nodes tick one after the other: the first seeds a key, and the second hands over to it. -/
def apart : List (Turn ℕ) := [.list 0 (tickAt 9000000 (by decide) 1), .call 0, .list 1 (tickAt 12000000 (by decide) 2), .call 1]

theorem apart_converges : OneSuccessor quickMachine firstDay apart ∧ KeepsRetirement quickMachine firstDay apart :=
  timers_converge quickMachine firstDay (by decide) (by decide) apart (by decide)

/-- Two nodes list the keys at twelve and at thirteen seconds, before either has retired the first key, and again at
twenty seconds, before either has seeded the third. -/
def overlapping : List (Turn ℕ) :=
  [.list 0 (tickAt 9000000 (by decide) 1), .call 0, .list 0 (tickAt 12000000 (by decide) 2), .list 1 (tickAt 13000000 (by decide) 2), .call 0,
    .call 1, .list 0 (tickAt 20000000 (by decide) 2), .list 1 (tickAt 20000000 (by decide) 3), .call 0, .call 1]

/-- The first key, which was retired at twelve seconds, is retired at thirteen; and the second has two successors. -/
theorem overlapping_ticks_diverge :
    DayOne firstDay ∧ (firstDay.rows.map SigningKeyRow.algorithm).Nodup ∧ ¬ OneSuccessor quickMachine firstDay overlapping ∧
      ¬ KeepsRetirement quickMachine firstDay overlapping := by
  refine ⟨by decide, by decide, fun h => ?_, fun h => ?_⟩
  · exact absurd (h.1 1) (by decide)
  · exact absurd (h (overlapping.take 5) (overlapping.drop 5) rfl (firstRow.retire quickMachine 12000000) (by decide) (by decide)) (by decide)

end IronAuth.Store.KeyRotation
