import IronAuth.Store.KeyRotation

/-!
# What a tick does

A tick acts on the listing that it took at its start, and while no other tick runs the listing stays
true of an algorithm's keys until the tick writes them itself. So all that a tick can do to the keys of
an algorithm is to seed a successor, and after that to retire the newest other key: both, one of them, or
neither. A tick that stops may have done the first and not the second.
-/

namespace IronAuth.Store.KeyRotation

open Lib Lib.Timeline List
open Jose (JwsAlgorithm)

variable {machine : RotationStateMachine} {tick : Tick} {listing : List SigningKeyRow} {algorithm : JwsAlgorithm}

/-! ### Transactions one after another -/

/-- Transactions that were committed one after another. -/
inductive Performed : List (JwsAlgorithm × Transaction) → SigningKeys → SigningKeys → Prop
  | nil (keys : SigningKeys) : Performed [] keys keys
  | cons {algorithm : JwsAlgorithm} {transaction : Transaction} {rest : List (JwsAlgorithm × Transaction)} {wrote : Bool}
      {keys mid next : SigningKeys} (h : perform keys transaction = .ok (wrote, mid)) (hrest : Performed rest mid next) :
      Performed ((algorithm, transaction) :: rest) keys next

/-- A transaction as a tick calls it. -/
def okCall (entry : JwsAlgorithm × Transaction) : JwsAlgorithm × Call := (entry.1, .ok entry.2)

/-- A tick makes its calls up to the end, or up to one that fails. A promotion does not fail. -/
theorem exists_performed (c : List (JwsAlgorithm × Call)) (r : RotationReport) (k : SigningKeys) :
    ∃ done, Performed done k (execute c r k).2 ∧
      (done.map okCall = c ∨
        (∀ r', (execute c r k).1 ≠ .ok r') ∧
          ∃ algorithm call rest, c = done.map okCall ++ (algorithm, call) :: rest ∧
            ∀ pending outgoing now e, call ≠ .ok (.promote pending outgoing now e)) := by
  induction c generalizing r k with
  | nil => exact ⟨[], .nil k, .inl rfl⟩
  | cons entry c ih =>
    obtain ⟨algorithm, call⟩ := entry
    cases call with
    | error error => exact ⟨[], .nil k, .inr ⟨by simp [execute], algorithm, .error error, c, rfl, by simp⟩⟩
    | ok transaction =>
      cases hpf : perform k transaction with
      | error error =>
        have he : execute ((algorithm, .ok transaction) :: c) r k = (.error error, k) := by
          simp [execute, hpf]
        rw [he]
        refine ⟨[], .nil k, .inr ⟨by simp, algorithm, .ok transaction, c, rfl, ?_⟩⟩
        rintro pending outgoing now e heq
        cases heq
        cases hpf
      | ok re =>
        obtain ⟨w, mid⟩ := re
        have he : execute ((algorithm, .ok transaction) :: c) r k =
            execute c (r.record algorithm w transaction) mid := by
          simp [execute, hpf]
        rw [he]
        obtain ⟨done, hd, hen⟩ := ih (r.record algorithm w transaction) mid
        refine ⟨(algorithm, transaction) :: done, .cons hpf hd, ?_⟩
        obtain ha | ⟨hf, a', call, rest, hcl, hc⟩ := hen
        · exact .inl (by rw [map_cons, ha]; rfl)
        · exact .inr ⟨hf, a', call, rest, by rw [map_cons, hcl]; rfl, hc⟩

/-! ### One algorithm's keys -/

/-- The rows that were listed are still there, whatever their retirement is. -/
def StillThere (listing rows : List SigningKeyRow) : Prop :=
  ∀ listed ∈ listing, ∃ row ∈ rows, row.id = listed.id ∧ row.algorithm = listed.algorithm

theorem StillThere.apply {r : List SigningKeyRow} (h : StillThere listing r) (tx : Transaction) :
    StillThere listing (tx.apply r) := by
  intro listed hl
  obtain ⟨row, hr, hid, ha⟩ := h listed hl
  cases tx with
  | provision key => exact ⟨row, mem_append_left _ hr, hid, ha⟩
  | promote pending outgoing now e => exact ⟨_, mem_map_of_mem hr, by simpa using hid, by simpa using ha⟩
  | markWithdrawn id => exact ⟨row, hr, hid, ha⟩

theorem eq_of_id_eq (k : SigningKeys) {a b : SigningKeyRow} (ha : a ∈ k.rows) (hb : b ∈ k.rows) (h : a.id = b.id) : a = b :=
  inj_on_of_nodup_map k.nodup ha hb h

variable {a : List (JwsAlgorithm × Call)} {k next : SigningKeys} {done : List (JwsAlgorithm × Transaction)}
   {c : Call} {kind : SigningKeyMaterialKind} {key : SigningKeyRow}

/-- A transaction that a tick makes for an algorithm applies itself to that algorithm's keys, and leaves
the others alone. -/
theorem keysOf_apply {o : JwsAlgorithm} {tx : Transaction}
    (hp : Planned machine tick listing o tx) (ht : StillThere listing k.rows) :
    keysOf (tx.apply k.rows) algorithm =
      if o = algorithm then tx.apply (keysOf k.rows algorithm) else keysOf k.rows algorithm := by
  cases hp with
  | provision _ _ hsd =>
    simp only [Transaction.apply, keysOf, filter_append, filter_singleton, hsd.algorithm_eq]
    split <;> simp_all
  | promote _ hk _ =>
    simp only [Transaction.apply, keysOf, filter_map, Function.comp_def, retireIf_algorithm]
    split
    · rfl
    · rename_i hne
      refine (map_congr_left fun row hr => if_neg fun hid => hne ?_).trans (map_id _)
      rw [mem_filter, decide_eq_true_eq] at hr
      obtain ⟨row2, hr2, hid2, ha⟩ := ht _ hk.mem
      rw [← hr.2, eq_of_id_eq k hr.1 hr2 (hid.trans hid2.symm), ha, hk.algorithm_eq]
  | markWithdrawn id => simp [Transaction.apply]

/-- An entry that is for an algorithm. -/
def isFor {β : Type} (algorithm : JwsAlgorithm) (entry : JwsAlgorithm × β) : Bool := entry.1 = algorithm

@[simp]
theorem isFor_iff {β : Type} {entry : JwsAlgorithm × β} : isFor algorithm entry ↔ entry.1 = algorithm := decide_eq_true_iff

/-- Of what a tick commits, the transactions of an algorithm are all that its keys see. -/
theorem Performed.keysOf_eq (h : Performed done k next)
    (algorithm : JwsAlgorithm) (hp : ∀ entry ∈ done, Planned machine tick listing entry.1 entry.2) (ht : StillThere listing k.rows) :
    keysOf next.rows algorithm =
      (done.filter (isFor algorithm)).foldl (fun rows entry => entry.2.apply rows) (keysOf k.rows algorithm) := by
  induction h with
  | nil k => rfl
  | @cons o transaction rest w k mid next hpf _ ih =>
    have hh := hp (o, transaction) mem_cons_self
    obtain ⟨hr, -⟩ := perform_cases hpf
    rw [ih (fun entry he => hp entry (mem_cons_of_mem _ he)) (hr ▸ ht.apply transaction), hr,
      keysOf_apply hh ht, filter_cons]
    split <;> simp_all

/-! ### The calls for one algorithm -/

/-- The rotation covers an algorithm. -/
def Rotates (algorithm : JwsAlgorithm) : Prop := ∃ kind, (algorithm, kind) ∈ algorithms

/-- The calls that a tick makes for an algorithm stand together. -/
theorem filter_plan (machine : RotationStateMachine) (tick : Tick) (listing : List SigningKeyRow) (algorithm : JwsAlgorithm) :
    (∃ kind, (algorithm, kind) ∈ algorithms ∧ (plan machine tick listing).filter (isFor algorithm) =
        (algorithmCalls machine tick listing algorithm kind).map fun call => (algorithm, call)) ∨
      ¬ Rotates algorithm ∧ (plan machine tick listing).filter (isFor algorithm) = [] := by
  have hf : ∀ o kind, ((algorithmCalls machine tick listing o kind).map fun call => (o, call)).filter
      (isFor algorithm) =
        if o = algorithm then (algorithmCalls machine tick listing o kind).map (fun call => (o, call)) else [] := by
    intro o kind
    split
    · exact filter_eq_self.mpr (by simp_all)
    · exact filter_eq_nil_iff.mpr (by simp_all)
  cases algorithm <;> simp [plan, algorithms, Rotates, filter_append, hf]

/-- The algorithms of a tick's calls come in order. -/
def place : JwsAlgorithm → ℕ
  | .edDsa => 0
  | .es256 => 1
  | _ => 2

theorem pairwise_plan (machine : RotationStateMachine) (tick : Tick) (listing : List SigningKeyRow) :
    (plan machine tick listing).Pairwise fun a b => place a.1 ≤ place b.1 := by
  have hb : ∀ o kind, ((algorithmCalls machine tick listing o kind).map fun call => (o, call)).Pairwise
      fun a b => place a.1 ≤ place b.1 := by
    intro o kind
    rw [pairwise_map]
    exact pairwise_of_forall fun _ _ => le_rfl
  simp only [plan, algorithms, flatMap_cons, flatMap_nil, append_nil, pairwise_append]
  refine ⟨hb _ _, ⟨hb _ _, hb _ _, ?_⟩, ?_⟩
  · simp [place]
  · simp [place]

theorem rotates_of_mem_plan (h : (algorithm, c) ∈ plan machine tick listing) : Rotates algorithm := by
  obtain ⟨⟨_, kind⟩, hm, hc⟩ := mem_flatMap.mp h
  obtain ⟨_, -, heq⟩ := mem_map.mp hc
  cases heq
  exact ⟨kind, hm⟩

theorem map_prefix_append {α β : Type*} {f : α → β} {l : List α} {A B : List β} (h : l.map f <+: A ++ B) :
    ∃ l1 l2, l = l1 ++ l2 ∧ l1.map f <+: A ∧ l2.map f <+: B ∧ (l2 = [] ∨ l1.map f = A) := by
  obtain ⟨rest, hr⟩ := h
  obtain ⟨more, rfl, -⟩ | ⟨more, hl, hB⟩ := append_eq_append_iff.mp hr
  · exact ⟨l, [], (append_nil l).symm, prefix_append _ _, nil_prefix, .inl rfl⟩
  · obtain ⟨l1, l2, rfl, rfl, rfl⟩ := map_eq_append_iff.mp hl
    exact ⟨l1, l2, rfl, prefix_rfl, hB ▸ prefix_append _ _, .inr rfl⟩

/-- The calls for an algorithm with a head: to seed, to promote, and then those that leave the rows alone. -/
theorem algorithmCalls_eq (h : head (keysOf listing algorithm) tick.now = some key) :
    algorithmCalls machine tick listing algorithm kind =
      seedCalls machine tick (keysOf listing algorithm) key algorithm kind ++
        promoteCalls machine tick.now (keysOf listing algorithm) key ++ withdrawCalls tick.now (keysOf listing algorithm) := by
  simp [algorithmCalls, h]

theorem seedCalls_cases (machine : RotationStateMachine) (tick : Tick) (a : List SigningKeyRow) (he : SigningKeyRow)
    (algorithm : JwsAlgorithm) (kind : SigningKeyMaterialKind) :
    seedCalls machine tick a he algorithm kind = [] ∨
      ∃ seeded : Except StoreError SigningKeyRow, seedCalls machine tick a he algorithm kind = [seeded.map .provision] := by
  unfold seedCalls
  split
  · exact .inr ⟨_, rfl⟩
  · exact .inl rfl

/-- An older key is to be retired. -/
def PromoteDue (listing : List SigningKeyRow) (algorithm : JwsAlgorithm) (now : ℤ) : Prop :=
  ∃ key older, head (keysOf listing algorithm) now = some key ∧ outgoing (keysOf listing algorithm) key = some older ∧
    older.activateAt < key.activateAt

theorem promoteCalls_cases (machine : RotationStateMachine) (listing : List SigningKeyRow) (algorithm : JwsAlgorithm) {now : ℤ}
    (hh : head (keysOf listing algorithm) now = some key) :
    promoteCalls machine now (keysOf listing algorithm) key = [] ∧ ¬ PromoteDue listing algorithm now ∨
      ∃ older, IsOutgoing listing algorithm key older ∧ older.activateAt < key.activateAt ∧
        promoteCalls machine now (keysOf listing algorithm) key =
          [.ok (.promote key.id older.id now (expireInstant machine now))] := by
  unfold promoteCalls
  cases ho : outgoing (keysOf listing algorithm) key with
  | none =>
    left
    refine ⟨rfl, ?_⟩
    rintro ⟨key2, older, hh2, holder, -⟩
    cases hh.symm.trans hh2
    cases ho.symm.trans holder
  | some older =>
    dsimp only
    split
    · rename_i hlt
      exact .inr ⟨older, isOutgoing_of_outgoing ho, hlt, rfl⟩
    · rename_i hn
      left
      refine ⟨rfl, ?_⟩
      rintro ⟨key2, o2, hh2, h2, hlt⟩
      cases hh.symm.trans hh2
      cases ho.symm.trans h2
      exact hn hlt

/-- What a tick that begins with some keys did about an algorithm: it may have seeded a key, and it may have
retired one. -/
structure TickEffect (machine : RotationStateMachine) (tick : Tick) (keys : SigningKeys) (algorithm : JwsAlgorithm)
    (seeded retired : Option SigningKeyRow) (next : SigningKeys) : Prop where
  keysOf_eq : keysOf next.rows algorithm =
    (retired.elim (keysOf keys.rows algorithm) fun older =>
      (keysOf keys.rows algorithm).map (SigningKeyRow.retireIf older.id tick.now (expireInstant machine tick.now))) ++ seeded.toList
  of_seeded : ∀ key ∈ seeded, Rotates algorithm ∧ (∀ row ∈ keys.rows, row.id ≠ key.id) ∧
    hasPending (keysOf keys.list algorithm) tick.now = false ∧
    ∃ head, IsHead keys.list algorithm tick.now head ∧ Seeded machine tick algorithm (rotationInstant machine head) key
  of_retired : ∀ older ∈ retired, ∃ head, IsHead keys.list algorithm tick.now head ∧
    IsOutgoing keys.list algorithm head older ∧ older.activateAt < head.activateAt

/-- An identifier that is provisioned is one that no row had. -/
theorem Performed.id_ne (h : Performed done k next)
    (hk : (algorithm, .provision key) ∈ done) : ∀ row ∈ k.rows, row.id ≠ key.id := by
  induction h with
  | nil k => cases hk
  | @cons o transaction rest w k mid next hpf _ ih =>
    obtain ⟨hr, hn⟩ := perform_cases hpf
    obtain heq | hre := mem_cons.mp hk
    · cases heq
      exact hn key rfl
    · intro row hro
      have ht : StillThere k.rows k.rows := fun listed hl => ⟨listed, hl, rfl, rfl⟩
      obtain ⟨l, hla, hid, -⟩ := ht.apply transaction row hro
      rw [← hid]
      exact ih hre l (hr ▸ hla)

theorem foldl_apply_of_withdraw (h : ∀ entry ∈ done, ∃ id, entry.2 = .markWithdrawn id)
    (rows : List SigningKeyRow) : done.foldl (fun rows entry => entry.2.apply rows) rows = rows := by
  induction done with
  | nil => rfl
  | cons entry done ih =>
    obtain ⟨id, hid⟩ := h entry mem_cons_self
    rw [foldl_cons, hid]
    exact ih fun entry he => h entry (mem_cons_of_mem _ he)

theorem map_prefix_singleton {α β : Type*} {f : α → β} {l : List α} {b : β} (h : l.map f <+: [b]) : l = [] ∨ ∃ a, l = [a] ∧ f a = b := by
  cases l with
  | nil => exact .inl rfl
  | cons a l =>
    rw [map_cons, cons_prefix_cons, prefix_nil, map_eq_nil_iff] at h
    exact .inr ⟨a, by rw [h.2], h.1⟩

/-- The transaction that retires a key in favour of the head. -/
def handoff (machine : RotationStateMachine) (tick : Tick) (algorithm : JwsAlgorithm) (head older : SigningKeyRow) :
    JwsAlgorithm × Transaction :=
  (algorithm, .promote head.id older.id tick.now (expireInstant machine tick.now))

/-- As far as a tick gets with an algorithm's calls, it seeds first, retires then, and leaves the rows alone
after that. What it does not retire, though it should, it had not come to. -/
theorem exists_parts (hh : head (keysOf listing algorithm) tick.now = some key)
    (h : done.map okCall <+: (algorithmCalls machine tick listing algorithm kind).map fun call => (algorithm, call)) :
    ∃ seeded retired : Option SigningKeyRow, ∃ rest,
      done = (seeded.map fun se => (algorithm, Transaction.provision se)).toList ++
        (retired.map (handoff machine tick algorithm key)).toList ++ rest ∧
      (∀ entry ∈ rest, ∃ id, entry.2 = .markWithdrawn id) ∧
      (∀ older ∈ retired, IsOutgoing listing algorithm key older ∧ older.activateAt < key.activateAt) ∧
      (retired = none → PromoteDue listing algorithm tick.now → rest = []) := by
  rw [algorithmCalls_eq hh, map_append, map_append] at h
  obtain ⟨both, rest, rfl, hb, hr, he⟩ := map_prefix_append h
  obtain ⟨s, ha, rfl, hse, hha, -⟩ := map_prefix_append hb
  have hw : ∀ entry ∈ rest, ∃ id, entry.2 = .markWithdrawn id := by
    intro entry hen
    have hc := hr.subset (mem_map_of_mem hen)
    simp only [withdrawCalls, map_map, mem_map, Function.comp_apply] at hc
    obtain ⟨row, -, heq⟩ := hc
    exact ⟨row.id, (Except.ok.inj (Prod.mk.inj heq).2).symm⟩
  have hsd : ∃ seeded : Option SigningKeyRow, s = (seeded.map fun se => (algorithm, Transaction.provision se)).toList := by
    obtain hn | ⟨outcome, ho⟩ := seedCalls_cases machine tick (keysOf listing algorithm) key algorithm kind
    · rw [hn, map_nil, prefix_nil, map_eq_nil_iff] at hse
      exact ⟨none, hse⟩
    · rw [ho, map_singleton] at hse
      obtain hem | ⟨entry, hen, hc⟩ := map_prefix_singleton hse
      · exact ⟨none, hem⟩
      · obtain ⟨se, -, hs⟩ := Fallible.map_eq_ok_iff.mp (Prod.mk.inj hc).2.symm
        exact ⟨some se, by rw [hen, Option.map_some, Option.toList_some, hs, ← (Prod.mk.inj hc).1]⟩
  obtain ⟨seeded, rfl⟩ := hsd
  obtain ⟨hn, hno⟩ | ⟨older, holder, hlt, ho⟩ := promoteCalls_cases machine listing algorithm hh
  · rw [hn, map_nil, prefix_nil, map_eq_nil_iff] at hha
    exact ⟨seeded, none, rest, by rw [hha]; rfl, hw, by simp, fun _ hd => absurd hd hno⟩
  · rw [ho, map_singleton] at hha
    obtain hem | ⟨entry, hen, hc⟩ := map_prefix_singleton hha
    · refine ⟨seeded, none, rest, by rw [hem]; rfl, hw, by simp, fun _ _ => he.resolve_right fun hal => ?_⟩
      -- With the promotion still to come the calls before it are not all made.
      rw [hem, append_nil, ho, map_singleton] at hal
      have hl := hse.length_le
      rw [hal, length_append, length_singleton] at hl
      omega
    · refine ⟨seeded, some older, rest, ?_, hw, ?_, by simp⟩
      · rw [hen, Option.map_some, Option.toList_some, handoff, ← (Prod.mk.inj hc).1,
          ← Except.ok.inj (Prod.mk.inj hc).2]
      · rintro _ ⟨⟩
        exact ⟨holder, hlt⟩

theorem filter_map_okCall (done : List (JwsAlgorithm × Transaction)) :
    (done.map okCall).filter (isFor algorithm) =
      (done.filter (isFor algorithm)).map okCall := by
  rw [filter_map]
  rfl

/-- What stands in a plan between two calls for one algorithm is a call for it too. -/
theorem eq_of_between {pre : List (JwsAlgorithm × Call)} {owner : JwsAlgorithm} {first l : Call}
    (hp : plan machine tick listing = pre ++ (owner, c) :: a) (hf : (algorithm, first) ∈ pre)
    (hl : (algorithm, l) ∈ a) : owner = algorithm := by
  have hs := pairwise_plan machine tick listing
  rw [hp, pairwise_append, pairwise_cons] at hs
  obtain ⟨-, ⟨ha, -⟩, hb⟩ := hs
  have hle : place algorithm ≤ place owner := hb _ hf _ mem_cons_self
  have hge : place owner ≤ place algorithm := ha _ hl
  obtain ⟨_, ho⟩ : Rotates owner := rotates_of_mem_plan (hp ▸ mem_append_right _ mem_cons_self)
  obtain ⟨_, hal⟩ : Rotates algorithm := rotates_of_mem_plan (hp ▸ mem_append_left _ hf)
  have heq := hge.antisymm hle
  revert ho hal heq
  cases owner <;> cases algorithm <;> simp [algorithms, place]

/-- A promotion was not made if at most a seeding was made for the algorithm. -/
theorem handoff_not_mem {older : SigningKeyRow} {seeded : Option SigningKeyRow}
    (hps : (done.filter (isFor algorithm)) = (seeded.map fun s => (algorithm, Transaction.provision s)).toList) :
    okCall (handoff machine tick algorithm key older) ∉ done.map okCall := by
  intro hme
  have hm : okCall (handoff machine tick algorithm key older) ∈
      (done.map okCall).filter (isFor algorithm) := mem_filter.mpr ⟨hme, by simp [okCall, handoff]⟩
  rw [filter_map_okCall, hps] at hm
  cases seeded <;> simp [okCall, handoff] at hm

/-- What a tick does about an algorithm, wherever it ends. If it leaves a promotion out, it did not come to
its end; and if it has seeded a key all the same, it was stopped in between. -/
theorem exists_tickEffect (machine : RotationStateMachine) (tick : Tick) (k : SigningKeys) {calls re : List (JwsAlgorithm × Call)}
    (hp : plan machine tick k.list = calls ++ re) (r : RotationReport) (algorithm : JwsAlgorithm) :
    ∃ seeded retired, TickEffect machine tick k algorithm seeded retired (execute calls r k).2 ∧
      (retired = none → Rotates algorithm → PromoteDue k.list algorithm tick.now →
        (re = [] → ∀ r', (execute calls r k).1 ≠ .ok r') ∧
        (seeded ≠ none → ∃ s head older, (algorithm, .ok (.provision s)) ∈ calls ∧
          okCall (handoff machine tick algorithm head older) ∈ re)) := by
  obtain ⟨done, hd, he⟩ := exists_performed calls r k
  have hm : done.map okCall <+: calls := by
    obtain ha | ⟨-, o, call, more, hcl, -⟩ := he
    · exact ha ▸ prefix_rfl
    · exact hcl ▸ prefix_append _ _
  have hpl : ∀ entry ∈ done, Planned machine tick k.list entry.1 entry.2 := by
    intro entry hen
    apply mem_plan
    rw [hp]
    exact mem_append_left _ (hm.subset (mem_map_of_mem hen))
  have hk := hd.keysOf_eq algorithm hpl fun listed hl => ⟨listed, mem_list.mp hl, rfl, rfl⟩
  have hfi : (done.filter (isFor algorithm)).map okCall <+:
      (plan machine tick k.list).filter (isFor algorithm) := by
    rw [← filter_map_okCall, hp]
    exact (hm.trans (prefix_append _ _)).filter _
  -- Nothing is done about an algorithm that the rotation does not cover, or that has no head.
  have hn : (done.filter (isFor algorithm)) = [] →
      TickEffect machine tick k algorithm none none (execute calls r k).2 := by
    intro hem
    rw [hem] at hk
    exact ⟨by simpa using hk, by simp, by simp⟩
  obtain ⟨kind, hki, hb⟩ | ⟨hr, hb⟩ := filter_plan machine tick k.list algorithm
  swap
  · rw [hb, prefix_nil, map_eq_nil_iff] at hfi
    exact ⟨none, none, hn hfi, fun _ h => absurd h hr⟩
  cases hh : head (keysOf k.list algorithm) tick.now with
  | none =>
    simp only [hb, algorithmCalls, hh, map_nil, prefix_nil, map_eq_nil_iff] at hfi
    refine ⟨none, none, hn hfi, ?_⟩
    rintro - - ⟨key, older, hke, -⟩
    cases hh.symm.trans hke
  | some key =>
    rw [hb] at hfi
    obtain ⟨seeded, retired, others, hps, ho, hre, hsk⟩ := exists_parts hh hfi
    have hs : ∀ s ∈ seeded, (algorithm, Transaction.provision s) ∈ done := by
      rintro s ⟨⟩
      refine mem_of_mem_filter (p := isFor algorithm) ?_
      rw [hps]
      simp
    refine ⟨seeded, retired, ⟨?_, ?_, ?_⟩, ?_⟩
    · rw [hk, hps, foldl_append, foldl_append, foldl_apply_of_withdraw ho]
      cases seeded with
      | none => cases retired <;> simp [handoff, Transaction.apply]
      | some seed =>
        cases retired with
        | none => simp [Transaction.apply]
        | some older =>
          have hne := hd.id_ne (hs seed rfl) older (mem_list.mp (hre older rfl).1.mem)
          have hse : seed.retireIf older.id tick.now (expireInstant machine tick.now) = seed := if_neg hne.symm
          simp [handoff, Transaction.apply, hse]
    · intro s hme
      have hpr := hs s hme
      cases hpl _ hpr with
      | provision hhe hpd hsd =>
        exact ⟨⟨kind, hki⟩, hd.id_ne hpr, hpd, _, isHead_of_head hhe, hsd⟩
    · exact fun older hme => ⟨key, isHead_of_head hh, hre older hme⟩
    · rintro rfl - hdu
      obtain ⟨-, hno⟩ | ⟨older, -, -, hprm⟩ := promoteCalls_cases machine k.list algorithm hh
      · exact absurd hdu hno
      rw [hsk rfl hdu, Option.map_none, Option.toList_none, append_nil, append_nil] at hps
      have hca : okCall (handoff machine tick algorithm key older) ∈ plan machine tick k.list := by
        refine mem_of_mem_filter (p := isFor algorithm) ?_
        rw [hb, algorithmCalls_eq hh, hprm]
        simp [okCall, handoff]
      have hnod : okCall (handoff machine tick algorithm key older) ∉ done.map okCall := handoff_not_mem hps
      refine ⟨?_, ?_⟩
      · rintro rfl r' hok
        rw [append_nil] at hp
        obtain ha | ⟨hf, -⟩ := he
        · exact hnod (ha ▸ hp ▸ hca)
        · exact hf r' hok
      · intro hso
        obtain ⟨s, rfl⟩ := Option.ne_none_iff_exists'.mp hso
        refine ⟨s, key, older, hm.subset (mem_map_of_mem (f := okCall) (hs s rfl)), ?_⟩
        refine (mem_append.mp (hp ▸ hca)).resolve_left ?_
        obtain ha | ⟨-, o, call, more, heq, hc⟩ := he
        · exact ha ▸ hnod
        · rw [heq]
          rw [heq, append_assoc, cons_append] at hp
          rw [mem_append, mem_cons]
          rintro (hme | hme | hme)
          · exact hnod hme
          · exact hc _ _ _ _ (Prod.mk.inj hme).2.symm
          · -- what stands between the seeding and the promotion is for the same algorithm, and there is nothing
            obtain rfl := eq_of_between hp (mem_map_of_mem (f := okCall) (hs s rfl)) (mem_append_left _ hme)
            rw [hp, filter_append, filter_map_okCall, hps, filter_cons_of_pos (by simp), algorithmCalls_eq hh, hprm] at hb
            obtain hn | ⟨outcome, ho⟩ := seedCalls_cases machine tick (keysOf k.list o) key o kind
            · simp [hn, okCall] at hb
            · simp only [ho, okCall, Option.map_some, Option.toList_some, map_cons, map_nil, nil_append, cons_append,
                List.cons.injEq, Prod.mk.injEq, true_and] at hb
              exact hc _ _ _ _ hb.2.1

end IronAuth.Store.KeyRotation
