import IronAuth.Lib.Cursor
import IronAuth.Lib.Machine
import Mathlib.Logic.Function.Basic

/-!
# The replication shipper

A pass reads the follower's cursors, and for each partition copies a page of the home stream above the
cursor; the copies and the new cursor are one transaction of the follower. A home row takes its sequence
when it is inserted and is seen when its transaction commits, so that commits come in any order.
-/

namespace IronAuth.Store.Replication

open Lib Lib.Machine

/-- A tenant and an environment. -/
abbrev Partition := String × String

/-- A row of the outbox at home. The other columns are copied as they are. -/
structure StreamRow (C : Type) where
  id : String
  sequence : ℕ
  «partition» : Partition
  columns : C
  deriving DecidableEq

variable {C T : Type}

/-- What the follower gets of a row. Its copy has a sequence of its own. -/
def StreamRow.copy (row : StreamRow C) : Partition × C := (row.partition, row.columns)

/-- What a pass has read: the cursors when it began, and a page for each partition it has come to. -/
structure Pass (C : Type) where
  cursors : Partition → ℕ
  rows : Partition → List (StreamRow C)

/-- The two databases and the passes under way. A partition without a cursor starts from zero. -/
structure Regions (C T : Type) where
  home : List (StreamRow C)
  follower : String → Option (Partition × C)
  cursors : Partition → ℕ
  passes : T → Option (Pass C)

/-- What comes next: a home transaction commits, a pass begins, reads a page, commits its copies on the
follower, or stops. -/
inductive Choice (C T : Type) where
  | enqueue (row : StreamRow C)
  | begin (t : T)
  | fetch (t : T) (p : Partition) (limit : ℕ)
  | deliver (t : T) (p : Partition)
  | stop (t : T)

/-- `ON CONFLICT (id) DO NOTHING`. -/
def insertCopy (follower : String → Option (Partition × C)) (row : StreamRow C) : String → Option (Partition × C) :=
  fun id => (follower id).or (if row.id = id then some row.copy else none)

/-- The rows of a partition. -/
def stream (home : List (StreamRow C)) (p : Partition) : List (StreamRow C) := home.filter fun row => row.partition = p

variable [DecidableEq T]

def Regions.setPass (regions : Regions C T) (t : T) (pass : Option (Pass C)) : Regions C T :=
  { regions with passes := Function.update regions.passes t pass }

def step (regions : Regions C T) : Choice C T → Unit × Regions C T
  | .enqueue row =>
    -- the primary key and the identity column
    if regions.home.any fun old => old.id = row.id ∨ old.sequence = row.sequence then ((), regions)
    else ((), { regions with home := regions.home ++ [row] })
  | .begin t => ((), regions.setPass t (some ⟨regions.cursors, fun _ => []⟩))
  | .fetch t p limit =>
    match regions.passes t with
    | none => ((), regions)
    | some pass =>
      let rows := page StreamRow.sequence limit ((stream regions.home p).filter fun row => pass.cursors p < row.sequence)
      ((), regions.setPass t (some { pass with rows := Function.update pass.rows p rows }))
  | .deliver t p =>
    match regions.passes t with
    | none => ((), regions)
    | some pass =>
      match (pass.rows p).getLast? with
      | none => ((), regions)
      | some last =>
        -- the cursor is set, not raised: a slow pass puts it back
        ((), { regions with
          follower := (pass.rows p).foldl insertCopy regions.follower
          cursors := Function.update regions.cursors p last.sequence })
  | .stop t => ((), regions.setPass t none)

def Regions.empty : Regions C T := ⟨[], fun _ => none, fun _ => 0, fun _ => none⟩

/-- The row is on the follower. -/
def Present (follower : String → Option (Partition × C)) (row : StreamRow C) : Prop := follower row.id = some row.copy

/-- No row at or below its partition's cursor is missing on the follower. -/
def Ships (regions : Regions C T) : Prop :=
  ∀ row ∈ regions.home, row.sequence ≤ regions.cursors row.partition → Present regions.follower row

/-- A row commits past its partition's cursor, past the cursor that each open pass has read, and past the
rows that it has read. -/
def InOrder (regions : Regions C T) : Choice C T → Prop
  | .enqueue row => regions.cursors row.partition < row.sequence ∧ ∀ t pass, regions.passes t = some pass →
      pass.cursors row.partition < row.sequence ∧ ∀ old ∈ pass.rows row.partition, old.sequence < row.sequence
  | _ => True

/-! ### The copies -/

variable {home rows : List (StreamRow C)} {follower : String → Option (Partition × C)} {regions : Regions C T}

/-- Rows do not share an id or a sequence. -/
def Distinct (home : List (StreamRow C)) : Prop :=
  ∀ a ∈ home, ∀ b ∈ home, a.id = b.id ∨ a.sequence = b.sequence → a = b

/-- The follower has copies of home rows only. -/
def Copies (home : List (StreamRow C)) (follower : String → Option (Partition × C)) : Prop :=
  ∀ id copy, follower id = some copy → ∃ row ∈ home, row.id = id ∧ row.copy = copy

variable {row : StreamRow C} {p : Partition}

theorem present_insertCopy (hd : Distinct home) (hc : Copies home follower) (hr : row ∈ home) :
    Present (insertCopy follower row) row := by
  cases hf : follower row.id with
  | none => simp [Present, insertCopy, hf]
  | some copy =>
    obtain ⟨old, ho, hid, rfl⟩ := hc _ copy hf
    rw [hd old ho row hr (.inl hid)] at hf
    simp [Present, insertCopy, hf]

theorem Present.insertCopy {old : StreamRow C} (h : Present follower old) : Present (insertCopy follower row) old := by
  rw [Present] at h
  simp [Present, Replication.insertCopy, h]

theorem Copies.insertCopy (hc : Copies home follower) (hr : row ∈ home) :
    Copies home (insertCopy follower row) := by
  intro id copy h
  rcases Option.or_eq_some_iff.mp h with hf | ⟨-, hn⟩
  · exact hc id copy hf
  · split_ifs at hn with hid
    exact ⟨row, hr, hid, Option.some.inj hn⟩

/-- Once its rows are copied, a page is on the follower, with all that was there before. -/
theorem copied (hd : Distinct home) (hc : Copies home follower) (hr : ∀ row ∈ rows, row ∈ home) :
    Copies home (rows.foldl insertCopy follower) ∧
      (∀ row, Present follower row → Present (rows.foldl insertCopy follower) row) ∧
      ∀ row ∈ rows, Present (rows.foldl insertCopy follower) row := by
  induction rows generalizing follower with
  | nil => exact ⟨hc, fun _ h => h, by simp⟩
  | cons row rows ih =>
    rw [List.forall_mem_cons] at hr
    obtain ⟨h1, h2, h3⟩ := ih (hc.insertCopy hr.1) hr.2
    exact ⟨h1, fun old h => h2 old h.insertCopy,
      List.forall_mem_cons.mpr ⟨h2 row (present_insertCopy hd hc hr.1), h3⟩⟩

/-! ### What every step keeps -/

/-- What a pass has read is good for moving the cursor. -/
def Pass.Sound (pass : Pass C) (regions : Regions C T) : Prop :=
  ∀ p, Covered StreamRow.sequence (stream regions.home p) (Present regions.follower) (pass.cursors p) ∧
    Reads StreamRow.sequence (stream regions.home p) (Present regions.follower) (pass.rows p) ∧
    ∀ row ∈ pass.rows p, row ∈ stream regions.home p

structure Shipped (regions : Regions C T) : Prop where
  distinct : Distinct regions.home
  copies : Copies regions.home regions.follower
  covered : ∀ p, Covered StreamRow.sequence (stream regions.home p) (Present regions.follower) (regions.cursors p)
  sound : ∀ t pass, regions.passes t = some pass → pass.Sound regions

theorem mem_stream : row ∈ stream home p ↔ row ∈ home ∧ row.partition = p := by
  simp [stream]

section

variable (h : Shipped regions)

include h

omit [DecidableEq T] in
theorem Shipped.ships : Ships regions :=
  fun row hr hle => h.covered row.partition row (mem_stream.mpr ⟨hr, rfl⟩) hle

theorem Shipped.setPass {t : T} {pa : Option (Pass C)} (hp : ∀ p ∈ pa, p.Sound regions) :
    Shipped (regions.setPass t pa) := by
  refine ⟨h.distinct, h.copies, h.covered, fun t2 p2 h2 => ?_⟩
  by_cases ht : t2 = t
  · subst ht
    exact hp p2 (by simpa [Regions.setPass] using h2)
  · exact h.sound t2 p2 (by simpa [Regions.setPass, ht] using h2)

/-- A row that commits in order. -/
theorem Shipped.enqueue (ho : InOrder regions (.enqueue row)) :
    Shipped (step regions (.enqueue row)).2 := by
  simp only [step]
  split_ifs with hold
  · exact h
  have hn : ∀ old ∈ regions.home, ¬ (old.id = row.id ∨ old.sequence = row.sequence) := by simpa using hold
  have hs : ∀ p, ∀ x ∈ stream (regions.home ++ [row]) p,
      x ∈ stream regions.home p ∨ x = row ∧ row.partition = p := by
    intro p x hx
    simp only [mem_stream, List.mem_append, List.mem_singleton] at hx ⊢
    grind
  refine ⟨?_, ?_, fun p => (h.covered p).grow (fun _ hx => hx) fun x hx => (hs p x hx).imp_right ?_, fun t pa ht p => ?_⟩
  · intro a ha b hb hab
    simp only [List.mem_append, List.mem_singleton] at ha hb
    rcases ha with ha | rfl <;> rcases hb with hb | rfl
    · exact h.distinct a ha b hb hab
    · exact absurd hab (hn a ha)
    · exact absurd (hab.imp Eq.symm Eq.symm) (hn b hb)
    · rfl
  · intro id copy hf
    obtain ⟨old, ho, h2⟩ := h.copies id copy hf
    exact ⟨old, List.mem_append_left _ ho, h2⟩
  · rintro ⟨rfl, rfl⟩
    exact ho.1
  · obtain ⟨hc, hr, hm⟩ := h.sound t pa ht p
    refine ⟨hc.grow (fun _ hx => hx) fun x hx => (hs p x hx).imp_right ?_,
      hr.grow (fun _ hx => hx) fun x hx => (hs p x hx).imp_right ?_, fun x hx => ?_⟩
    · rintro ⟨rfl, rfl⟩
      exact (ho.2 t pa ht).1
    · rintro ⟨rfl, rfl⟩
      exact (ho.2 t pa ht).2
    · have := mem_stream.mp (hm x hx)
      exact mem_stream.mpr ⟨List.mem_append_left _ this.1, this.2⟩

/-- A page is copied, and the cursor moves to its last row. -/
theorem Shipped.deliver {t : T} : Shipped (step regions (.deliver t p)).2 := by
  simp only [step]
  cases ht : regions.passes t with
  | none => exact h
  | some pa =>
    simp only
    cases hl : (pa.rows p).getLast? with
    | none => exact h
    | some last =>
      obtain ⟨-, hr, hm⟩ := h.sound t pa ht p
      obtain ⟨h1, h2, h3⟩ := copied h.distinct h.copies fun row hro => (mem_stream.mp (hm row hro)).1
      refine ⟨h.distinct, h1, fun q => ?_, fun t2 p2 ht2 q => ?_⟩
      · by_cases hq : q = p
        · subst hq
          simpa using hr.covered h2 h3 (List.mem_of_getLast? hl)
        · simpa [hq] using (h.covered q).grow h2 fun x hx => .inl hx
      · obtain ⟨hc, hr2, hm2⟩ := h.sound t2 p2 ht2 q
        exact ⟨hc.grow h2 fun x hx => .inl hx, hr2.grow h2 fun x hx => .inl hx, hm2⟩

theorem Shipped.step {c : Choice C T} (ho : InOrder regions c) :
    Shipped (step regions c).2 := by
  cases c with
  | enqueue row => exact h.enqueue ho
  | begin t =>
    refine h.setPass fun pa hp => ?_
    cases hp
    exact fun p => ⟨h.covered p, by simp [Reads], by simp⟩
  | fetch t p limit =>
    simp only [Replication.step]
    cases ht : regions.passes t with
    | none => exact h
    | some pa =>
      refine h.setPass fun p2 hp q => ?_
      cases hp
      obtain ⟨hc, hr, hm⟩ := h.sound t pa ht q
      by_cases hq : q = p
      · subst hq
        have hd : ∀ x ∈ stream regions.home q, ∀ y ∈ stream regions.home q, x.sequence = y.sequence → x = y :=
          fun x hx y hy hxy => h.distinct x (mem_stream.mp hx).1 y (mem_stream.mp hy).1 (.inr hxy)
        simp only [Function.update_self]
        exact ⟨hc, hc.reads_page hd, fun x hx => List.mem_of_mem_filter (mem_of_mem_page hx)⟩
      · simpa [hq] using ⟨hc, hr, hm⟩
  | deliver t p => exact h.deliver
  | stop t => exact h.setPass (by simp)

end

/-- **Every row is shipped, if rows commit in order.** -/
theorem ships_every_row (choices : List (Choice C T)) (h : Along step InOrder (Regions.empty (C := C) (T := T)) choices) :
    Ships (run step (Regions.empty (C := C) (T := T)) choices) := by
  refine (run_of_along (I := Shipped) (fun _ _ hs ho => hs.step ho) ⟨?_, ?_, ?_, ?_⟩ h).ships
  · simp [Distinct, Regions.empty]
  · simp [Copies, Regions.empty]
  · simp [Covered, stream, Regions.empty]
  · simp [Regions.empty]

def sampleRow (sequence : ℕ) : StreamRow Unit := ⟨toString sequence, sequence, ("t", "e"), ()⟩

def shipOnce : List (Choice Unit Unit) := [.begin (), .fetch () ("t", "e") 10, .deliver () ("t", "e"), .stop ()]

/-- Two rows in order. -/
theorem sampleRows_shipped : Ships (run step (Regions.empty (C := Unit) (T := Unit))
    (.enqueue (sampleRow 1) :: shipOnce ++ .enqueue (sampleRow 2) :: shipOnce)) := by
  refine ships_every_row _ ?_
  simp [Along, InOrder, Regions.empty, step, shipOnce, sampleRow, Regions.setPass, stream, page]

/-- The second row commits and is shipped before the first. -/
theorem lateCommit_unshipped : ¬ Ships (run step (Regions.empty (C := Unit) (T := Unit))
    (.enqueue (sampleRow 2) :: shipOnce ++ .enqueue (sampleRow 1) :: shipOnce)) := by
  intro h
  have := h (sampleRow 1) (by decide) (by decide)
  revert this
  simp [Present]
  decide

end IronAuth.Store.Replication
