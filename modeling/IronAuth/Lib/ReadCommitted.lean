import Mathlib.Data.Fintype.Basic
import Mathlib.Logic.Function.Basic
import IronAuth.Lib.Machine

/-!
# Transactions under READ COMMITTED

A database is its committed rows together with the transactions that are open. A transaction
sees its own writes over what is committed at the moment; what it has written it holds, and a
statement that would write a row held by another transaction waits. A commit puts the writes
over the committed rows, an abort drops them.

A program says what the next statement of a transaction does. A scheduler picks the transaction
whose statement comes next, so that a list of its choices is an interleaving.
-/

namespace IronAuth.Lib.ReadCommitted

open Option Function

variable {K : Type} {V : K → Type} {T X Q : Type}

/-- The rows that are there, by their keys. -/
abbrev Rows (V : K → Type) := (k : K) → Option (V k)

/-- What a transaction sees: what it has written, over what is committed. -/
def Rows.over (writes committed : Rows V) : Rows V := fun k => (writes k).or (committed k)

variable {writes committed : Rows V} {k : K}

theorem over_of_some {row : V k} (h : writes k = some row) :
    writes.over committed k = some row := by
  rw [Rows.over, h]
  rfl

theorem over_of_none (h : writes k = none) : writes.over committed k = committed k := by
  rw [Rows.over, h, none_or]

theorem over_of_blank (h : ∀ k, writes k = none) : writes.over committed = committed :=
  funext fun k => over_of_none (h k)

theorem over_eq_none_iff :
    writes.over committed k = none ↔ writes k = none ∧ committed k = none := or_eq_none_iff

theorem over_update [DecidableEq K] {row : V k} :
    Rows.over (Function.update writes k (some row)) committed = Function.update (writes.over committed) k (some row) := by
  funext k2
  by_cases hk : k2 = k
  · subst hk
    rw [update_self, over_of_some (update_self ..)]
  · simp [Rows.over, update_of_ne hk]

/-! ### Rows that evolve -/

/-- The rows stay there, each related to what it was. -/
def Evolves (R : (k : K) → V k → V k → Prop) (before after : Rows V) : Prop :=
  ∀ k row, before k = some row → ∃ row2, after k = some row2 ∧ R k row row2

section evolves

variable {R : (k : K) → V k → V k → Prop} {writes committed before middle after : Rows V}

theorem Evolves.refl (hr : ∀ k row, R k row row) (rows : Rows V) : Evolves R rows rows :=
  fun k row hro => ⟨row, hro, hr k row⟩

theorem Evolves.trans (ht : ∀ k row row2 row3, R k row row2 → R k row2 row3 → R k row row3)
    (h : Evolves R before middle) (h2 : Evolves R middle after) : Evolves R before after := by
  intro k row hr
  obtain ⟨row2, hr2, hR⟩ := h k row hr
  obtain ⟨row3, hr3, hR2⟩ := h2 k row2 hr2
  exact ⟨row3, hr3, ht k row row2 row3 hR hR2⟩

/-- A row that is there evolves, and the others stay. -/
theorem Evolves.update [DecidableEq K] (hr : ∀ k row, R k row row) {k : K} {row : V k}
    (h : ∀ old, before k = some old → R k old row) : Evolves R before (Function.update before k (some row)) := by
  intro k2 old ho
  by_cases hk : k2 = k
  · subst hk
    exact ⟨row, update_self .., h old ho⟩
  · exact ⟨old, (update_of_ne hk ..).trans ho, hr k2 old⟩

/-- What a transaction writes evolves from what is committed after the commit of another, if that
commit left the rows that it holds alone. -/
theorem Evolves.over_of_same (hr : ∀ k row, R k row row) (h : Evolves R committed (writes.over committed))
    (hs : ∀ k, (writes k).isSome → after k = committed k) : Evolves R after (writes.over after) := by
  intro k row hro
  cases hws : writes k with
  | none => exact ⟨row, (over_of_none hws).trans hro, hr k row⟩
  | some row2 =>
    obtain ⟨row3, hr3, hR⟩ := h k row ((hs k (by rw [hws]; rfl)).symm.trans hro)
    rw [over_of_some hws] at hr3
    exact ⟨row3, (over_of_some hws).trans hr3, hR⟩

/-- What a transaction sees evolves with what is committed. -/
theorem Evolves.over (hr : ∀ k row, R k row row) (h : Evolves R committed after) :
    Evolves R (writes.over committed) (writes.over after) := by
  intro k row hro
  cases hws : writes k with
  | none =>
    rw [over_of_none hws] at hro ⊢
    exact h k row hro
  | some row2 =>
    rw [over_of_some hws] at hro ⊢
    exact ⟨row, hro, hr k row⟩

end evolves

/-- The committed rows and the open transactions. -/
structure Database (V : K → Type) (T X : Type) where
  committed : Rows V
  running : T → Option X

/-- What the next statement of a transaction comes to. -/
inductive Outcome (X : Type) where
  | wait
  | fail
  | next (tx : X)
  | commit

/-- A scheduler's choice. -/
inductive Choice (T Q : Type) where
  | start (t : T) (request : Q)
  | advance (t : T)
  | abort (t : T)

/-- A program: what a transaction has written, how one begins, and what its next statement does
when these rows are held by others and those are committed. -/
structure Program (V : K → Type) (X Q : Type) where
  writes : X → Rows V
  begins : Q → X
  next : (K → Bool) → Rows V → X → Outcome X

section statements

variable (locked : K → Bool) (rows : Rows V) (k : K)

/-- An `UPDATE` of one row, guarded by its `WHERE` clause. -/
def guardedUpdate (guard : V k → Bool) (hit : V k → Outcome X) (miss : Outcome X) : Outcome X :=
  if locked k then .wait
  else
    match (rows k).filter guard with
    | some row => hit row
    | none => miss

/-- An `UPDATE`, or a `SELECT` with a lock, that waits only for a row it has found: one that does not
match is passed over whoever holds it. -/
def findUpdate (guard : V k → Bool) (hit : V k → Outcome X) (miss : Outcome X) : Outcome X :=
  match (rows k).filter guard with
  | some row => if locked k then .wait else hit row
  | none => miss

/-- An `INSERT` under a unique key. -/
def insertUnique (hit : Outcome X) : Outcome X :=
  if locked k then .wait else if (rows k).isSome then .fail else hit

variable {locked rows k}

variable {g : V k → Bool} {hit : V k → Outcome X} {m : Outcome X}

theorem guardedUpdate_eq_next {tx : X}
    (h : guardedUpdate locked rows k g hit m = .next tx) :
    locked k = false ∧ ((∃ row, rows k = some row ∧ g row = true ∧ hit row = .next tx) ∨
      (∀ row, rows k = some row → g row = false) ∧ m = .next tx) := by
  unfold guardedUpdate at h
  split_ifs at h with hl
  refine ⟨Bool.eq_false_iff.mpr hl, ?_⟩
  cases hro : (rows k).filter g with
  | some row =>
    rw [hro] at h
    obtain ⟨hr, hgd⟩ := filter_eq_some_iff.mp hro
    exact .inl ⟨row, hr, hgd, h⟩
  | none =>
    rw [hro] at h
    refine .inr ⟨fun row hr => ?_, h⟩
    rw [hr, filter_eq_none_iff] at hro
    exact Bool.eq_false_iff.mpr (hro row rfl)

/-- What holds after the update of a row that matches, and when none does, holds after the statement. -/
theorem guardedUpdate_next {hit : V k → X} {miss tx : X} {P : X → Prop}
    (h : guardedUpdate locked rows k g (fun row => .next (hit row)) (.next miss) = .next tx)
    (hh : locked k = false → ∀ row, rows k = some row → g row = true → P (hit row))
    (hm : (∀ row, rows k = some row → g row = false) → P miss) : P tx := by
  obtain ⟨hl, ⟨row, hr, hg, h⟩ | ⟨hno, h⟩⟩ := guardedUpdate_eq_next h
  · cases h
    exact hh hl row hr hg
  · cases h
    exact hm hno

theorem guardedUpdate_ne_commit
    (hh : ∀ row, hit row ≠ .commit) (hm : m ≠ .commit) : guardedUpdate locked rows k g hit m ≠ .commit := by
  unfold guardedUpdate
  split_ifs
  · simp
  · split
    · exact hh _
    · exact hm

/-- A row that matches and is free is hit; otherwise none is, or the statement waits. -/
theorem findUpdate_eq {miss o : Outcome X}
    (h : findUpdate locked rows k g hit miss = o) :
    o = .wait ∨ (∃ row, rows k = some row ∧ g row = true ∧ locked k = false ∧ o = hit row) ∨ o = miss := by
  unfold findUpdate at h
  cases hro : (rows k).filter g with
  | none =>
    rw [hro] at h
    exact .inr (.inr h.symm)
  | some row =>
    obtain ⟨hr, hgd⟩ := filter_eq_some_iff.mp hro
    rw [hro] at h
    split_ifs at h with hl
    · exact .inl h.symm
    · exact .inr (.inl ⟨row, hr, hgd, Bool.eq_false_iff.mpr hl, h.symm⟩)

theorem insertUnique_eq_next {hit : Outcome X} {tx : X} (h : insertUnique locked rows k hit = .next tx) :
    locked k = false ∧ rows k = none ∧ hit = .next tx := by
  unfold insertUnique at h
  split_ifs at h with hl hs
  exact ⟨Bool.eq_false_iff.mpr hl, not_isSome_iff_eq_none.mp hs, h⟩

theorem insertUnique_ne_commit {hit : Outcome X} (hh : hit ≠ .commit) : insertUnique locked rows k hit ≠ .commit := by
  unfold insertUnique
  split_ifs
  · simp
  · simp
  · exact hh

end statements

section machine

variable [Fintype T] [DecidableEq T] (program : Program V X Q) (db : Database V T X)

/-- Another transaction holds the row. -/
def Locked (t : T) (k : K) : Prop :=
  ∃ other, other ≠ t ∧ (db.running other).any (fun tx => (program.writes tx k).isSome) = true

instance (t : T) (k : K) : Decidable (Locked program db t k) :=
  inferInstanceAs (Decidable (∃ other, other ≠ t ∧ (db.running other).any (fun tx => (program.writes tx k).isSome) = true))

/-- The transaction moves on, or is closed. -/
def Database.set (t : T) (tx : Option X) : Database V T X := { db with running := Function.update db.running t tx }

/-- The writes of a transaction become visible. -/
def Database.commit (t : T) (tx : X) : Database V T X where
  committed := (program.writes tx).over db.committed
  running := Function.update db.running t none

/-- One choice of the scheduler, with the transaction that it commits. -/
def step : Choice T Q → Option X × Database V T X
  | .start t request => (none, if (db.running t).isNone then db.set t (some (program.begins request)) else db)
  | .abort t => (none, db.set t none)
  | .advance t =>
    match db.running t with
    | none => (none, db)
    | some tx =>
      match program.next (fun k => decide (Locked program db t k)) db.committed tx with
      | .wait => (none, db)
      | .fail => (none, db.set t none)
      | .next tx => (none, db.set t (some tx))
      | .commit => (some tx, db.commit program t tx)

/-- Everything that a step can do: nothing that shows, closing a transaction, opening one, a
statement, or a commit. -/
theorem step_cases (c : Choice T Q) :
    step program db c = (none, db) ∨
    (∃ t, step program db c = (none, db.set t none)) ∨
    (∃ t request, c = .start t request ∧ step program db c = (none, db.set t (some (program.begins request)))) ∨
    (∃ t tx next, db.running t = some tx ∧
      program.next (fun k => decide (Locked program db t k)) db.committed tx = .next next ∧
        step program db c = (none, db.set t (some next))) ∨
    ∃ t tx, c = .advance t ∧ db.running t = some tx ∧
      program.next (fun k => decide (Locked program db t k)) db.committed tx = .commit ∧
        step program db c = (some tx, db.commit program t tx) := by
  cases c with
  | start t request =>
    by_cases h : (db.running t).isNone
    · exact .inr (.inr (.inl ⟨t, request, rfl, by simp only [step, if_pos h]⟩))
    · exact .inl (by simp only [step, if_neg h])
  | abort t => exact .inr (.inl ⟨t, rfl⟩)
  | advance t =>
    cases hr : db.running t with
    | none => exact .inl (by simp only [step, hr])
    | some tx =>
      cases hn : program.next (fun k => decide (Locked program db t k)) db.committed tx with
      | wait => exact .inl (by simp only [step, hr, hn])
      | fail => exact .inr (.inl ⟨t, by simp only [step, hr, hn]⟩)
      | next next => exact .inr (.inr (.inr (.inl ⟨t, tx, next, hr, hn, by simp only [step, hr, hn]⟩)))
      | commit => exact .inr (.inr (.inr (.inr ⟨t, tx, rfl, hr, hn, by simp only [step, hr, hn]⟩)))

/-- What a step does to the committed rows: nothing, or a commit. -/
theorem step_committed (c : Choice T Q) :
    ((step program db c).1 = none ∧ (step program db c).2.committed = db.committed) ∨
    ∃ t tx, db.running t = some tx ∧
      program.next (fun k => decide (Locked program db t k)) db.committed tx = .commit ∧
        (step program db c).1 = some tx ∧ (step program db c).2.committed = (program.writes tx).over db.committed := by
  obtain hs | ⟨t, hs⟩ | ⟨t, request, -, hs⟩ | ⟨t, tx, next, htx, hn, hs⟩ | ⟨t, tx, -, htx, hc, hs⟩ :=
    step_cases program db c
  iterate 4 exact .inl (by rw [hs]; exact ⟨rfl, rfl⟩)
  exact .inr ⟨t, tx, htx, hc, by rw [hs]; exact ⟨rfl, rfl⟩⟩

end machine

/-! ### Rows that are held -/

section held

variable [DecidableEq T] (program : Program V X Q) (db : Database V T X)

/-- No row is held by two transactions. -/
def Exclusive : Prop :=
  ∀ t other tx tx2 k, db.running t = some tx → db.running other = some tx2 →
    (program.writes tx k).isSome → (program.writes tx2 k).isSome → t = other

variable {program db}

variable {t o : T} {tx tx2 : X}

theorem running_set {tx : Option X} (h : (db.set t tx).running o = some tx2) :
    o = t ∧ tx = some tx2 ∨ o ≠ t ∧ db.running o = some tx2 := by
  have hu : Function.update db.running t tx o = some tx2 := h
  by_cases ho : o = t
  · subst ho
    rw [update_self] at hu
    exact .inl ⟨rfl, hu⟩
  · rw [update_of_ne ho] at hu
    exact .inr ⟨ho, hu⟩

/-- Where an open transaction comes from: it was open before, or was opened, or has made a statement. -/
theorem running_step [Fintype T] {c : Choice T Q} (h : (step program db c).2.running t = some tx2) :
    db.running t = some tx2 ∨
      (∃ request, c = .start t request ∧ tx2 = program.begins request) ∨
      ∃ locked tx, db.running t = some tx ∧ program.next locked db.committed tx = .next tx2 := by
  obtain hs | ⟨o, hs⟩ | ⟨o, request, rfl, hs⟩ | ⟨o, tx, next, htx, hn, hs⟩ | ⟨o, tx, -, -, -, hs⟩ := step_cases program db c
  all_goals rw [hs] at h
  · exact .inl h
  · obtain ⟨-, hno⟩ | ⟨-, hb⟩ := running_set h
    · cases hno
    · exact .inl hb
  · obtain ⟨rfl, heq⟩ | ⟨-, hb⟩ := running_set h
    · exact .inr (.inl ⟨request, rfl, (some.inj heq).symm⟩)
    · exact .inl hb
  · obtain ⟨rfl, heq⟩ | ⟨-, hb⟩ := running_set h
    · cases heq
      exact .inr (.inr ⟨_, tx, htx, hn⟩)
    · exact .inl hb
  · obtain ⟨-, hno⟩ | ⟨-, hb⟩ := running_set h
    · cases hno
    · exact .inl hb

theorem exclusive_close (h : Exclusive program db) (t : T) : Exclusive program (db.set t none) := by
  intro t1 t2 tx1 tx2 k h1 h2
  obtain ⟨-, hn⟩ | ⟨-, h1⟩ := running_set h1
  · cases hn
  · obtain ⟨-, hn⟩ | ⟨-, h2⟩ := running_set h2
    · cases hn
    · exact h t1 t2 tx1 tx2 k h1 h2

/-- A transaction that takes rows held by nobody else keeps the rows exclusive. -/
theorem exclusive_set (h : Exclusive program db)
    (hf : ∀ k, (program.writes tx k).isSome → ∀ other tx2, other ≠ t → db.running other = some tx2 →
      ¬ (program.writes tx2 k).isSome) : Exclusive program (db.set t (some tx)) := by
  intro t1 t2 tx1 tx2 k h1 h2 hh1 hh2
  obtain ⟨rfl, heq1⟩ | ⟨hne1, ho1⟩ := running_set h1
  · obtain ⟨rfl, -⟩ | ⟨hne2, ho2⟩ := running_set h2
    · rfl
    · cases heq1
      exact absurd hh2 (hf k hh1 t2 tx2 hne2 ho2)
  · obtain ⟨rfl, heq2⟩ | ⟨-, ho2⟩ := running_set h2
    · cases heq2
      exact absurd hh1 (hf k hh2 t1 tx1 hne1 ho1)
    · exact h t1 t2 tx1 tx2 k ho1 ho2 hh1 hh2

/-- **Interference freedom.** An assertion holds of every open transaction after a step if it holds of one
that begins, if the statements of each keep it, and if the commits of the others do. -/
theorem forall_running_step [Fintype T] {A : Rows V → X → Prop} (he : Exclusive program db)
    (h : ∀ t tx, db.running t = some tx → A db.committed tx) (hb : ∀ request, A db.committed (program.begins request))
    (hn : ∀ locked t tx next, db.running t = some tx → program.next locked db.committed tx = .next next →
      A db.committed next)
    (hc : ∀ locked t tx other tx2, db.running t = some tx → program.next locked db.committed tx = .commit →
      db.running other = some tx2 →
        (∀ k, (program.writes tx2 k).isSome → (program.writes tx).over db.committed k = db.committed k) →
          A ((program.writes tx).over db.committed) tx2)
    (c : Choice T Q) :
    ∀ t tx, (step program db c).2.running t = some tx → A (step program db c).2.committed tx := by
  have hse : ∀ t next, (∀ tx, next = some tx → A db.committed tx) →
      ∀ other tx, (db.set t next).running other = some tx → A db.committed tx := by
    intro t next hn other tx ho
    obtain ⟨-, heq⟩ | ⟨-, hbe⟩ := running_set ho
    · exact hn tx heq
    · exact h other tx hbe
  obtain hs | ⟨t, hs⟩ | ⟨t, request, -, hs⟩ | ⟨t, tx, next, htx, hpf, hs⟩ | ⟨t, tx, -, htx, hpf, hs⟩ :=
    step_cases program db c
  · rw [hs]
    exact h
  · rw [hs]
    exact hse t none (by simp)
  · rw [hs]
    exact hse t _ fun tx heq => some.inj heq ▸ hb request
  · rw [hs]
    exact hse t _ fun tx2 heq => some.inj heq ▸ hn _ t tx next htx hpf
  · rw [hs]
    intro other tx2 ho
    obtain ⟨-, hno⟩ | ⟨hne, hbe⟩ := running_set ho
    · cases hno
    · -- a commit changes no row that another transaction holds
      refine hc _ t tx other tx2 htx hpf hbe fun k hh => over_of_none ?_
      by_contra hs
      exact hne (he other t tx2 tx k hbe htx hh (isSome_iff_ne_none.mpr hs))

end held

/-! ### Rely and guarantee -/

section discipline

variable (program : Program V X Q) (I : Rows V → Prop) (P : Rows V → X → Prop) (G : Rows V → Rows V → Prop)

/-- An invariant of the committed rows, an assertion about an open transaction, and a guarantee of
what a commit does to the committed rows. -/
structure Discipline : Prop where
  begins : ∀ committed request, I committed → P committed (program.begins request)
  begins_writes : ∀ request k, program.writes (program.begins request) k = none
  next : ∀ locked committed tx tx2, I committed → P committed tx → program.next locked committed tx = .next tx2 →
    P committed tx2
  next_writes : ∀ locked committed tx tx2 k, program.next locked committed tx = .next tx2 →
    (program.writes tx2 k).isSome → (program.writes tx k).isSome ∨ locked k = false
  commit : ∀ locked committed tx, I committed → P committed tx → program.next locked committed tx = .commit →
    I ((program.writes tx).over committed) ∧ G committed ((program.writes tx).over committed)
  stable : ∀ committed after tx, I committed → P committed tx → G committed after →
    (∀ k, (program.writes tx k).isSome → after k = committed k) → P after tx

variable {program I P G} in
/-- A further assertion, which may rely on the first, and a further guarantee. -/
theorem Discipline.and {P2 : Rows V → X → Prop} {G2 : Rows V → Rows V → Prop} (hd : Discipline program I P G)
    (hb : ∀ committed request, P2 committed (program.begins request))
    (hn : ∀ locked committed tx tx2, P committed tx → P2 committed tx → program.next locked committed tx = .next tx2 →
      P2 committed tx2)
    (hc : ∀ committed tx, P2 committed tx → G2 committed ((program.writes tx).over committed))
    (hst : ∀ committed after tx, P2 committed tx → G committed after →
      (∀ k, (program.writes tx k).isSome → after k = committed k) → P2 after tx) :
    Discipline program I (fun rows tx => P rows tx ∧ P2 rows tx) (fun before after => G before after ∧ G2 before after) where
  begins committed request hI := ⟨hd.begins committed request hI, hb committed request⟩
  begins_writes := hd.begins_writes
  next locked committed tx tx2 hI h hs :=
    ⟨hd.next locked committed tx tx2 hI h.1 hs, hn locked committed tx tx2 h.1 h.2 hs⟩
  next_writes := hd.next_writes
  commit locked committed tx hI h hs := by
    obtain ⟨hI2, hG⟩ := hd.commit locked committed tx hI h.1 hs
    exact ⟨hI2, hG, hc committed tx h.2⟩
  stable committed after tx hI h hG hh :=
    ⟨hd.stable committed after tx hI h.1 hG.1 hh, hst committed after tx h.2 hG.1 hh⟩

/-- The invariant holds of the committed rows, and the assertion of every open transaction. -/
structure Kept (db : Database V T X) : Prop where
  committed : I db.committed
  running : ∀ t tx, db.running t = some tx → P db.committed tx
  exclusive : Exclusive program db

variable {program I P G} [Fintype T] [DecidableEq T] {db : Database V T X}

variable (hd : Discipline program I P G)

include hd

/-- A statement takes rows that are free. -/
theorem exclusive_step (h : Exclusive program db) (c : Choice T Q) :
    Exclusive program (step program db c).2 := by
  obtain hs | ⟨t, hs⟩ | ⟨t, request, -, hs⟩ | ⟨t, tx, next, htx, hn, hs⟩ | ⟨t, tx, -, htx, hc, hs⟩ :=
    step_cases program db c
  · rw [hs]
    exact h
  · rw [hs]
    exact exclusive_close h t
  · rw [hs]
    refine exclusive_set h fun k hh => ?_
    rw [hd.begins_writes request k] at hh
    cases hh
  · rw [hs]
    refine exclusive_set h fun k hh other tx2 hne ho hh2 => ?_
    -- the row is one that was held before, or one that the statement found free
    obtain hb | hf := hd.next_writes _ db.committed tx next k hn hh
    · exact hne (h other t tx2 tx k ho htx hh2 hb)
    · exact of_decide_eq_false hf ⟨other, hne, by rw [ho]; exact hh2⟩
  · rw [hs]
    exact exclusive_close h t

/-- **Rely and guarantee.** What a discipline asserts is kept by every step. -/
theorem discipline_step (h : Kept program I P db) (c : Choice T Q) :
    Kept program I P (step program db c).2 where
  committed := by
    obtain ⟨-, hs⟩ | ⟨t, tx, htx, hc, -, ha⟩ := step_committed program db c
    · rw [hs]
      exact h.committed
    · rw [ha]
      exact (hd.commit _ db.committed tx h.committed (h.running t tx htx) hc).1
  running := by
    refine forall_running_step h.exclusive h.running (fun request => hd.begins db.committed request h.committed) ?_ ?_ c
    · intro locked t tx next htx hn
      exact hd.next locked db.committed tx next h.committed (h.running t tx htx) hn
    · intro locked t tx other tx2 htx hc ho hs
      obtain ⟨-, hG⟩ := hd.commit locked db.committed tx h.committed (h.running t tx htx) hc
      exact hd.stable db.committed _ tx2 h.committed (h.running other tx2 ho) hG hs
  exclusive := exclusive_step hd h.exclusive c

theorem discipline_run (h : Kept program I P db) (cs : List (Choice T Q)) :
    Kept program I P (Machine.run (step program) db cs) :=
  Machine.run_of_step (I := Kept program I P) (fun _ c h => discipline_step hd h c) h

/-- A step does to the committed rows what is guaranteed of commits, or nothing. -/
theorem guarantee_step (hr : ∀ rows, G rows rows) (h : Kept program I P db)
    (c : Choice T Q) : G db.committed (step program db c).2.committed := by
  obtain ⟨-, hs⟩ | ⟨t, tx, htx, hc, -, ha⟩ := step_committed program db c
  · rw [hs]
    exact hr _
  · rw [ha]
    exact (hd.commit _ db.committed tx h.committed (h.running t tx htx) hc).2

/-- What every commit guarantees holds across a run, if it composes. -/
theorem guarantee_run (hr : ∀ rows, G rows rows) (ht : ∀ rows middle after, G rows middle → G middle after → G rows after)
    (h : Kept program I P db) (cs : List (Choice T Q)) : G db.committed (Machine.run (step program) db cs).committed := by
  induction cs generalizing db with
  | nil => exact hr _
  | cons c cs ih => exact ht _ _ _ (guarantee_step hd hr h c) (ih (discipline_step hd h c))

end discipline

end IronAuth.Lib.ReadCommitted
