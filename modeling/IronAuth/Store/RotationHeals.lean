import IronAuth.Store.RotationPublication

/-!
# Ticks that stop

A tick may stop after any of its transactions: the timer crashed, or the database failed. The next tick
takes up what it finds. It retires one key at most, the newest besides the head; and while a successor is
pending the newest is the successor, which is not to be retired, and so it retires none.

A tick that finds two activated keys and a rotation due provisions a successor before it retires the older
key. If it stops in between, the older key stays, and so it does when the ticks after it complete.
-/

namespace IronAuth.Store.KeyRotation

open Lib Lib.Timeline Lib.Machine List Option
open Jose (JwsAlgorithm)

/-- A tick, and after how many transactions it stops, if it does. -/
structure Attempt where
  tick : Tick
  stop : Option ℕ

/-- A tick is run up to where it stops. It answers only if it does not. -/
def attempt (machine : RotationStateMachine) (keys : SigningKeys) (input : Attempt) :
    Option (Except StoreError RotationReport) × SigningKeys :=
  match input.stop with
  | none => (some (advance machine keys input.tick).1, (advance machine keys input.tick).2)
  | some stop => (none, (execute ((plan machine input.tick keys.list).take stop) ⟨[], [], [], []⟩ keys).2)

/-- Each algorithm that has an activated key has exactly one that is activated and not retired. -/
def OneCurrent (keys : SigningKeys) (now : ℤ) : Prop :=
  ∀ algorithm, (∃ row ∈ keys.rows, row.algorithm = algorithm ∧ row.activateAt ≤ now) →
    ∃! row, row ∈ keys.rows ∧ row.algorithm = algorithm ∧ row.activateAt ≤ now ∧ row.retireAt = none

/-- The tick does not stop between the seeding of a successor and a promotion that it still has to make for
the same algorithm. -/
def StopsCleanly (machine : RotationStateMachine) (keys : SigningKeys) (input : Attempt) : Prop :=
  ∀ stop, input.stop = some stop → ∀ algorithm key head older,
    (algorithm, .ok (.provision key)) ∈ (plan machine input.tick keys.list).take stop →
    okCall (handoff machine input.tick algorithm head older) ∉ (plan machine input.tick keys.list).drop stop

variable {machine : RotationStateMachine} {keys : SigningKeys} {algorithm : JwsAlgorithm}

/-! ### The shape of an algorithm's keys -/

/-- The keys of an algorithm since an instant: there are none, or one is not retired, or two are not and
follow each other. -/
inductive Shape (algorithm : JwsAlgorithm) (rows : List SigningKeyRow) (since : ℤ) : Prop
  | empty (h : rows = [])
  | alone {key : SigningKeyRow} (hkey : key ∈ rows) (hopen : key.retireAt = none)
      (honly : ∀ row ∈ rows, row.retireAt = none → row = key) (hactive : key.activateAt ≤ since ∨ rows = [key])
  | pair {key next : SigningKeyRow} (hrotates : Rotates algorithm) (hkey : key ∈ rows) (hopen : key.retireAt = none)
      (hnext : next ∈ rows) (hnextOpen : next.retireAt = none) (honly : ∀ row ∈ rows, row.retireAt = none → row = key ∨ row = next)
      (hactive : key.activateAt ≤ since) (hlt : key.activateAt < next.activateAt)

/-- There is one activated key that is not retired. -/
def Current (rows : List SigningKeyRow) (now : ℤ) : Prop := ∃! row, row ∈ rows ∧ row.activateAt ≤ now ∧ row.retireAt = none

variable {row key l : SigningKeyRow} {now s : ℤ}

theorem mem_keysOf_list : row ∈ keysOf keys.rows algorithm ↔ row ∈ keys.list ∧ row.algorithm = algorithm := by
  rw [keysOf, mem_filter, decide_eq_true_eq, mem_list]

theorem IsHead.mem_keysOf (h : IsHead keys.list algorithm now key) : key ∈ keysOf keys.rows algorithm :=
  mem_keysOf_list.mpr ⟨h.mem, h.algorithm_eq⟩

theorem IsOutgoing.mem_keysOf {he : SigningKeyRow} (h : IsOutgoing keys.list algorithm he key) :
    key ∈ keysOf keys.rows algorithm :=
  mem_keysOf_list.mpr ⟨h.mem, h.algorithm_eq⟩

theorem IsHead.le {o : SigningKeyRow} (h : IsHead keys.list algorithm now key)
    (hot : o ∈ keysOf keys.rows algorithm) (ho : o.retireAt = none) (ha : o.activateAt ≤ now) :
    o.activateAt ≤ key.activateAt :=
  h.latest o (mem_keysOf_list.mp hot).1 (mem_keysOf_list.mp hot).2 ho ha

variable {tick : Tick} {seeded retired : Option SigningKeyRow} {next : SigningKeys}

section

variable (h : TickEffect machine tick keys algorithm seeded retired next)

include h

/-- What the keys of an algorithm are after a tick. -/
theorem TickEffect.mem_iff :
    row ∈ keysOf next.rows algorithm ↔
      (∃ e ∈ keysOf keys.rows algorithm,
        row = retired.elim e fun o => e.retireIf o.id tick.now (expireInstant machine tick.now)) ∨ row ∈ seeded := by
  rw [h.keysOf_eq, mem_append, mem_toList]
  cases retired with
  | none => simp
  | some o => simp [eq_comm]

/-- A successor is activated after the tick that seeds it, if there is a window. -/
theorem TickEffect.lt_activateAt
    (hw : 0 < machine.policy.prePublication) (hk : key ∈ seeded) : tick.now < key.activateAt := by
  obtain ⟨-, -, -, head, -, hsd⟩ := h.of_seeded key hk
  have hn := hsd.now_le
  have ha := hsd.activateAt_eq
  omega

theorem TickEffect.retireAt_seeded
    (hk : key ∈ seeded) : key.retireAt = none := by
  obtain ⟨-, -, -, head, -, hsd⟩ := h.of_seeded key hk
  exact hsd.retireAt_eq

/-- Where all that a tick leaves besides one activated key is what it has seeded, that key is the current one. -/
theorem TickEffect.shape_of_current
    (hw : 0 < machine.policy.prePublication) (hk : key ∈ keysOf next.rows algorithm)
    (ho : key.retireAt = none) (ha : key.activateAt ≤ tick.now)
    (hon : ∀ row ∈ keysOf next.rows algorithm, row.retireAt = none → row = key ∨ row ∈ seeded) :
    Shape algorithm (keysOf next.rows algorithm) tick.now ∧ Current (keysOf next.rows algorithm) tick.now := by
  constructor
  · cases seeded with
    | none => exact .alone hk ho (fun row hr hro => (hon row hr hro).resolve_right (by simp)) (.inl ha)
    | some s =>
      refine .pair (h.of_seeded s rfl).1 hk ho (h.mem_iff.mpr (.inr rfl)) (h.retireAt_seeded rfl) ?_ ha
        (ha.trans_lt (h.lt_activateAt hw rfl))
      intro row hr hro
      exact (hon row hr hro).imp_right fun hs => (some.inj hs).symm
  · refine ⟨key, ⟨hk, ha, ho⟩, ?_⟩
    rintro row ⟨hr, hroa, hro⟩
    refine (hon row hr hro).resolve_right fun hs => ?_
    exact absurd (h.lt_activateAt hw hs) (not_lt.mpr hroa)

end

/-- A tick leaves the keys as they are if it seeds none and retires none. -/
theorem TickEffect.keysOf_eq_self (h : TickEffect machine tick keys algorithm none none next) :
    keysOf next.rows algorithm = keysOf keys.rows algorithm := by
  rw [h.keysOf_eq]
  simp

/-- Without a head it does neither. -/
theorem TickEffect.keysOf_eq_of_no_head (h : TickEffect machine tick keys algorithm seeded retired next)
    (hno : ∀ head, ¬ IsHead keys.list algorithm tick.now head) : keysOf next.rows algorithm = keysOf keys.rows algorithm := by
  have hsd : seeded = none := by
    refine eq_none_iff_forall_not_mem.mpr fun s hs => ?_
    obtain ⟨-, -, -, head, hh, -⟩ := h.of_seeded s hs
    exact hno head hh
  have hr : retired = none := by
    refine eq_none_iff_forall_not_mem.mpr fun o holder => ?_
    obtain ⟨head, hh, -⟩ := h.of_retired o holder
    exact hno head hh
  subst hsd hr
  exact h.keysOf_eq_self

section pair

variable (hk : key ∈ keysOf keys.rows algorithm) (ho : key.retireAt = none) (hl : l ∈ keysOf keys.rows algorithm)
  (hla : l.retireAt = none) (hon : ∀ row ∈ keysOf keys.rows algorithm, row.retireAt = none → row = key ∨ row = l)
  (hlt : key.activateAt < l.activateAt)

include hk ho hl hla hon hlt

/-- Of two keys that are not retired, the later is to be promoted when its time has come. -/
theorem promoteDue_of_pair (hn : l.activateAt ≤ now) : PromoteDue keys.list algorithm now := by
  obtain ⟨ha, hlaa⟩ := mem_keysOf_list.mp hl
  obtain ⟨hke, hkea⟩ := mem_keysOf_list.mp hk
  cases hh : head (keysOf keys.list algorithm) now with
  | none =>
    have he := filter_eq_nil_iff.mp (maxByKey_eq_none_iff.mp hh) l
      (mem_filter.mpr ⟨ha, decide_eq_true hlaa⟩)
    simp [hla, hn] at he
  | some first =>
    have hf := isHead_of_head hh
    have hle := hf.le hl hla hn
    obtain rfl | rfl := hon first hf.mem_keysOf hf.retireAt_eq
    · omega
    have hne : key.id ≠ first.id := by
      intro hid
      rw [eq_of_id_eq keys (mem_list.mp hke) (mem_list.mp ha) hid] at hlt
      omega
    cases hou : outgoing (keysOf keys.list algorithm) first with
    | none =>
      have he := filter_eq_nil_iff.mp (maxByKey_eq_none_iff.mp hou) key
        (mem_filter.mpr ⟨hke, decide_eq_true hkea⟩)
      simp [ho, hne] at he
    | some o =>
      have holder := isOutgoing_of_outgoing hou
      obtain rfl | rfl := hon o holder.mem_keysOf holder.retireAt_eq
      · exact ⟨first, o, hh, hou, hlt⟩
      · exact absurd rfl holder.id_ne

/-- With two keys that are not retired, a tick retires the older once the later is activated; only then may
it seed another. -/
theorem Shape.step_pair (hr : Rotates algorithm) (hke : key.activateAt ≤ tick.now)
    (h : TickEffect machine tick keys algorithm seeded retired next) (hw : 0 < machine.policy.prePublication)
    (hc : retired = none → PromoteDue keys.list algorithm tick.now → seeded = none) :
    Shape algorithm (keysOf next.rows algorithm) tick.now ∧
      ((retired = none → ¬ PromoteDue keys.list algorithm tick.now) → Current (keysOf next.rows algorithm) tick.now) := by
  have hi : l.id ≠ key.id := by
    intro hid
    rw [eq_of_id_eq keys (mem_of_mem_filter hl) (mem_of_mem_filter hk) hid] at hlt
    omega
  by_cases hn : l.activateAt ≤ tick.now
  · have hd := promoteDue_of_pair hk ho hl hla hon hlt hn
    cases retired with
    | none =>
      have hsd := hc rfl hd
      subst hsd
      rw [h.keysOf_eq_self]
      exact ⟨.pair hr hk ho hl hla hon hke hlt, fun hno => absurd hd (hno rfl)⟩
    | some o =>
      obtain ⟨head, hh, holder, hol⟩ := h.of_retired o rfl
      -- The key that is retired is the older of the two.
      have heq : o = key := by
        obtain rfl | rfl := hon o holder.mem_keysOf holder.retireAt_eq
        · rfl
        · obtain rfl | rfl := hon head hh.mem_keysOf hh.retireAt_eq <;> omega
      subst heq
      have hst : l ∈ keysOf next.rows algorithm := h.mem_iff.mpr (.inl ⟨l, hl, (if_neg hi).symm⟩)
      have hal := h.shape_of_current hw hst hla hn ?_
      · exact ⟨hal.1, fun _ => hal.2⟩
      · intro row hro hroo
        obtain ⟨e, he, rfl⟩ | hs := h.mem_iff.mp hro
        · left
          by_cases hid : e.id = o.id
          · rw [elim_some, SigningKeyRow.retireIf, if_pos hid] at hroo
            cases hroo
          · rw [elim_some, SigningKeyRow.retireIf, if_neg hid] at hroo ⊢
            exact (hon e he hroo).resolve_left fun heq => hid (heq ▸ rfl)
        · exact .inr hs
  · -- The later key is pending, so the tick does nothing.
    have hsd : seeded = none := by
      refine eq_none_iff_forall_not_mem.mpr fun se hs => ?_
      obtain ⟨-, -, hpd, -⟩ := h.of_seeded se hs
      obtain ⟨hm, halg⟩ := mem_keysOf_list.mp hl
      exact hn (hasPending_eq_false_iff.mp hpd l hm halg hla)
    have hre : retired = none := by
      refine eq_none_iff_forall_not_mem.mpr fun o holder => ?_
      obtain ⟨head, hh, hou, hol⟩ := h.of_retired o holder
      have hhe := hh.activateAt_le
      have hne := hou.id_ne
      obtain rfl | rfl := hon head hh.mem_keysOf hh.retireAt_eq
      · obtain rfl | rfl := hon o hou.mem_keysOf hou.retireAt_eq
        · exact hne rfl
        · omega
      · exact hn hhe
    subst hsd hre
    rw [h.keysOf_eq_self]
    refine ⟨.pair hr hk ho hl hla hon hke hlt, fun _ => ⟨key, ⟨hk, hke, ho⟩, ?_⟩⟩
    rintro row ⟨hro, hroa, hroo⟩
    refine (hon row hro hroo).resolve_right fun heq => hn (heq ▸ hroa)

end pair

/-- The keys of an algorithm keep their shape from tick to tick, and a tick that leaves no promotion out
leaves one current key. -/
theorem Shape.step (hsh : Shape algorithm (keysOf keys.rows algorithm) s) (hsi : s ≤ tick.now)
    (h : TickEffect machine tick keys algorithm seeded retired next) (hw : 0 < machine.policy.prePublication)
    (hc : retired = none → Rotates algorithm → PromoteDue keys.list algorithm tick.now → seeded = none) :
    Shape algorithm (keysOf next.rows algorithm) tick.now ∧
      ((retired = none → Rotates algorithm → ¬ PromoteDue keys.list algorithm tick.now) →
        (∃ row ∈ keysOf next.rows algorithm, row.activateAt ≤ tick.now) → Current (keysOf next.rows algorithm) tick.now) := by
  cases hsh with
  | empty he =>
    have hno : ∀ head, ¬ IsHead keys.list algorithm tick.now head := by
      intro head hh
      have hm := hh.mem_keysOf
      rw [he] at hm
      cases hm
    rw [h.keysOf_eq_of_no_head hno, he]
    exact ⟨.empty rfl, by simp⟩
  | alone hk ho hon ha =>
    rename_i key
    have hr : retired = none := by
      refine eq_none_iff_forall_not_mem.mpr fun o holder => ?_
      obtain ⟨head, hh, hou, -⟩ := h.of_retired o holder
      apply hou.id_ne
      rw [hon o hou.mem_keysOf hou.retireAt_eq, hon head hh.mem_keysOf hh.retireAt_eq]
    subst hr
    by_cases hn : key.activateAt ≤ tick.now
    · -- The tick may seed a successor.
      have hal := h.shape_of_current hw (h.mem_iff.mpr (.inl ⟨key, hk, rfl⟩)) ho hn ?_
      · exact ⟨hal.1, fun _ _ => hal.2⟩
      · intro row hro hroo
        obtain ⟨e, he, rfl⟩ | hs := h.mem_iff.mp hro
        · exact .inl (hon _ he hroo)
        · exact .inr hs
    · -- The key is not activated yet, and it is the only one there has been.
      have hone := ha.resolve_left fun hle => hn (hle.trans hsi)
      have hno : ∀ head, ¬ IsHead keys.list algorithm tick.now head := by
        intro head hh
        exact hn (hon head hh.mem_keysOf hh.retireAt_eq ▸ hh.activateAt_le)
      rw [h.keysOf_eq_of_no_head hno, hone]
      refine ⟨.alone mem_cons_self ho (by simp) (.inr rfl), fun _ => ?_⟩
      rintro ⟨row, hro, hle⟩
      exact absurd (mem_singleton.mp hro ▸ hle) hn
  | pair hr hk ho hn hne hon ha hlt =>
    have hs := Shape.step_pair hk ho hn hne hon hlt hr (ha.trans hsi) h hw fun hre => hc hre hr
    exact ⟨hs.1, fun hnot _ => hs.2 fun hre => hnot hre hr⟩

/-! ### Runs -/

/-- What a tick does that may stop. -/
theorem attempt_effect (machine : RotationStateMachine) (keys : SigningKeys) (inp : Attempt) (algorithm : JwsAlgorithm) :
    ∃ seeded retired, TickEffect machine inp.tick keys algorithm seeded retired (attempt machine keys inp).2 ∧
      (retired = none → Rotates algorithm → PromoteDue keys.list algorithm inp.tick.now →
        (∀ r, (attempt machine keys inp).1 ≠ some (.ok r)) ∧ (StopsCleanly machine keys inp → seeded = none)) := by
  obtain ⟨tick, stop⟩ := inp
  cases stop with
  | none =>
    obtain ⟨seeded, retired, he, hl⟩ :=
      exists_tickEffect machine tick keys (append_nil _).symm ⟨[], [], [], []⟩ algorithm
    refine ⟨seeded, retired, he, fun hr hro hd => ?_⟩
    obtain ⟨hf, hsd⟩ := hl hr hro hd
    refine ⟨fun r heq => hf rfl r (some.inj heq), fun _ => ?_⟩
    by_contra hne
    obtain ⟨s, head, o, -, hm⟩ := hsd hne
    cases hm
  | some stop =>
    obtain ⟨seeded, retired, he, hl⟩ :=
      exists_tickEffect machine tick keys (take_append_drop stop _).symm ⟨[], [], [], []⟩ algorithm
    refine ⟨seeded, retired, he, fun hr hro hd => ⟨by simp [attempt], fun hc => ?_⟩⟩
    by_contra hne
    obtain ⟨s, head, o, hp, hh⟩ := (hl hr hro hd).2 hne
    exact hc stop rfl algorithm s head o hp hh

/-- With one key for each algorithm, the keys have their shape from the first. -/
theorem shape_dayOne (hd : DayOne keys) (ho : (keys.rows.map SigningKeyRow.algorithm).Nodup) (algorithm : JwsAlgorithm)
    (since : ℤ) : Shape algorithm (keysOf keys.rows algorithm) since := by
  have ha : ∀ row ∈ keysOf keys.rows algorithm, row ∈ keys.rows ∧ row.algorithm = algorithm := by
    intro row hro
    rwa [keysOf, mem_filter, decide_eq_true_eq] at hro
  have hs : (keysOf keys.rows algorithm).map SigningKeyRow.algorithm |>.Nodup := ho.sublist (filter_sublist.map _)
  cases hc : keysOf keys.rows algorithm with
  | nil => exact .empty rfl
  | cons key rest =>
    rw [hc] at ha hs
    -- A second key would have the same algorithm.
    have hr : rest = [] := by
      cases rest with
      | nil => rfl
      | cons other rest =>
        rw [map_cons, map_cons, nodup_cons, (ha key (by simp)).2, (ha other (by simp)).2] at hs
        exact absurd mem_cons_self hs.1
    subst hr
    exact .alone mem_cons_self (hd key (ha key (by simp)).1).2.1 (by simp) (.inr rfl)

/-- A run still to come from keys that have their shape. -/
structure Healing (machine : RotationStateMachine) (keys : SigningKeys) (attempts : List Attempt) : Prop where
  sorted : attempts.Pairwise fun a b => a.tick.now < b.tick.now
  clean : Along (attempt machine) (StopsCleanly machine) keys attempts
  shape : ∃ since, (∀ input ∈ attempts, since ≤ input.tick.now) ∧ ∀ algorithm, Shape algorithm (keysOf keys.rows algorithm) since

/-- In a run in which no tick stops between the seeding of a key and the promotion that it still has to make, every tick that
completes leaves one current key for each algorithm that has an activated one. -/
theorem tick_heals (machine : RotationStateMachine) (hwindow : 0 < machine.policy.prePublicationSecs) (keys : SigningKeys)
    (hdayOne : DayOne keys) (hone : (keys.rows.map SigningKeyRow.algorithm).Nodup) (attempts : List Attempt)
    (hsorted : attempts.Pairwise fun a b => a.tick.now < b.tick.now)
    (hclean : Along (attempt machine) (StopsCleanly machine) keys attempts) :
    Along (attempt machine) (fun keys input => ∀ report, (attempt machine keys input).1 = some (.ok report) →
      OneCurrent (attempt machine keys input).2 input.tick.now) keys attempts := by
  have hmi : 0 < machine.policy.prePublication := by
    unfold RotationPolicy.prePublication micros i64Max
    omega
  refine along_of_invariant (I := Healing machine) ?_ ⟨hsorted, hclean, ?_⟩
  · rintro keys input attempts ⟨hsorted, hclean, sin, hsi, hsh⟩
    obtain ⟨hfi, hsorted⟩ := pairwise_cons.mp hsorted
    have hst : ∀ algorithm, Shape algorithm (keysOf (attempt machine keys input).2.rows algorithm) input.tick.now ∧
        ∀ report, (attempt machine keys input).1 = some (.ok report) →
          (∃ row ∈ keysOf (attempt machine keys input).2.rows algorithm, row.activateAt ≤ input.tick.now) →
            Current (keysOf (attempt machine keys input).2.rows algorithm) input.tick.now := by
      intro algorithm
      obtain ⟨seeded, retired, hef, hle⟩ := attempt_effect machine keys input algorithm
      have hne := (hsh algorithm).step (hsi input mem_cons_self) hef hmi
        fun hre hro hdue => (hle hre hro hdue).2 hclean.1
      exact ⟨hne.1, fun report hep => hne.2 fun hre hro hdue => (hle hre hro hdue).1 report hep⟩
    refine ⟨?_, hsorted, hclean.2, input.tick.now, fun lat hlater => (hfi lat hlater).le, fun algorithm => (hst algorithm).1⟩
    rintro report hep algorithm ⟨row, hrow, hal, hac⟩
    have hcu := (hst algorithm).2 report hep ⟨row, mem_filter.mpr ⟨hrow, decide_eq_true hal⟩, hac⟩
    simpa only [Current, keysOf, mem_filter, decide_eq_true_eq, and_assoc] using hcu
  · cases attempts with
    | nil => exact ⟨0, by simp, fun algorithm => shape_dayOne hdayOne hone algorithm 0⟩
    | cons input attempts =>
      refine ⟨input.tick.now, ?_, fun algorithm => shape_dayOne hdayOne hone algorithm _⟩
      intro lat hlater
      obtain rfl | hlater := mem_cons.mp hlater
      · exact le_rfl
      · exact ((pairwise_cons.mp hsorted).1 lat hlater).le

/-- A tick that runs to its end, after a number of seconds. -/
def fullTick (secs : ℤ) (h : IsI64 (secs * 1000000)) (id : SigningKeyId) : Attempt := ⟨tickAt (secs * 1000000) h id, none⟩

/-- Two ticks that complete: the first seeds a key, and the second hands over to it. -/
theorem full_ticks_heal :
    Along (attempt quickMachine) (fun keys input => ∀ report, (attempt quickMachine keys input).1 = some (.ok report) →
      OneCurrent (attempt quickMachine keys input).2 input.tick.now) firstDay [fullTick 9 (by decide) 1, fullTick 12 (by decide) 2] :=
  tick_heals quickMachine (by decide) firstDay (by decide) (by decide) [fullTick 9 (by decide) 1, fullTick 12 (by decide) 2]
    (by simp [fullTick, tickAt]) ⟨by simp [StopsCleanly, fullTick], by simp [StopsCleanly, fullTick], trivial⟩

/-- A tick at twenty-one seconds finds the first key still there and the third due. It stops after it has provisioned
the third. -/
def lingering : List Attempt :=
  [fullTick 9 (by decide) 1, ⟨tickAt 21000000 (by decide) 2, some 1⟩, fullTick 22 (by decide) 3]

/-- The key that the first tick seeds. -/
def secondRow : SigningKeyRow := ⟨1, .edDsa, .ed25519Seed, 9000000, 11000000, none, none, 9000000⟩

/-- The next tick completes, and leaves the first key and the second activated and not retired. -/
theorem stopped_tick_lingers :
    DayOne firstDay ∧ (firstDay.rows.map SigningKeyRow.algorithm).Nodup ∧
      lingering.Pairwise (fun a b => a.tick.now < b.tick.now) ∧
      ¬ Along (attempt quickMachine) (fun keys input => ∀ report, (attempt quickMachine keys input).1 = some (.ok report) →
        OneCurrent (attempt quickMachine keys input).2 input.tick.now) firstDay lingering := by
  refine ⟨by decide, by decide, by simp [lingering, fullTick, tickAt], fun h => ?_⟩
  have hcu := h.2.2.1 ⟨[], [], [], []⟩ (by decide) .edDsa
  obtain ⟨row, -, hun⟩ := hcu ⟨firstRow, by decide, by decide, by decide⟩
  have hfi := hun firstRow ⟨by decide, by decide, by decide, by decide⟩
  have hse := hun secondRow ⟨by decide, by decide, by decide, by decide⟩
  exact absurd (hfi.trans hse.symm) (by decide)

end IronAuth.Store.KeyRotation
