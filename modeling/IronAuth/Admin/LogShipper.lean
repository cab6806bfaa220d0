import IronAuth.Lib.Cursor
import IronAuth.Lib.Machine
import Mathlib.Logic.Function.Basic
import Mathlib.Order.WithBot

/-!
# The log shipper

A log stream ships the rows of one audit stream, or of both, to a sink. A pass lists the stream with its
cursor, reads a page of each audit stream after it, merges the two, hands the accepted rows to the sink and
moves the cursor to the last row it has considered; after a run of failures it records the range of the
batch and moves on. A row is stamped before it commits, so that a row may be seen behind rows that were
already read. The oldest rows of an audit stream are pruned.

A position is the time of a row and its id. `⊥` is the cursor of a stream that has not shipped.

## What is proved

* `ships_at_least_once`: with any number of passes, stopped anywhere, any answers of the sink and any
  pruning, an accepted row at or before the cursor was in an accepted batch or lies in a recorded range, as
  long as no row commits behind what was read.
* `betweenReads_unshipped`: a row that commits between the two reads of a pass is not shipped.
-/

namespace IronAuth.Admin.LogShipper

open Lib Lib.Machine List Function

inductive AuditStream where
  | adminAction
  | authentication
  deriving DecidableEq

inductive StreamSource where
  | adminAction
  | authentication
  | both

def StreamSource.carries : StreamSource → AuditStream → Bool
  | .both, _ => true
  | .adminAction, stream => stream = .adminAction
  | .authentication, stream => stream = .authentication

variable {P T : Type} [LinearOrder P]

/-- The columns of an audit row that the shipper looks at. -/
structure AuditRow (P : Type) where
  position : P
  stream : AuditStream
  action : String
  organizationId : Option String
  deriving DecidableEq

/-- What is configured for a log stream, and the stream of the class that this build gives an action. -/
structure LogStream where
  source : StreamSource
  organizationId : Option String
  eventTypeFilter : Option (List String)
  active : Bool
  classForWire : String → Option AuditStream

variable (cfg : LogStream) (row : AuditRow P)

def AuditRow.key : WithBot P := row.position

/-- Whether a row is rendered and put into the batch. -/
def LogStream.accepts : Bool :=
  match cfg.classForWire row.action with
  | none => false
  | some stream => cfg.active && cfg.source.carries stream &&
    match cfg.eventTypeFilter with
    | none => true
    | some allowed => allowed.contains row.action

/-- A stream of an organization reads its rows only. -/
def LogStream.ofOrganization : Bool :=
  cfg.organizationId.isNone || row.organizationId = cfg.organizationId

/-- The rows that the log stream is about. -/
def LogStream.reads : Bool := cfg.source.carries row.stream && cfg.ofOrganization row

def shipBatch : ℕ := 500

def deadLetterAfter : ℕ := 5

/-- `none` is a retention gap: the cursor stands before the oldest row that is left. -/
def rowsAfter (log : List (AuditRow P)) (stream : AuditStream) (cursor : WithBot P) :
    Option (List (AuditRow P)) :=
  let rows := log.filter fun row => row.stream = stream
  if cursor ≠ ⊥ ∧ (page AuditRow.key 1 rows).any fun oldest => cursor < oldest.key then none
  else some (page AuditRow.key shipBatch ((rows.filter cfg.ofOrganization).filter fun row => cursor < row.key))

/-- One of the two reads of a pass. -/
def readCarried (log : List (AuditRow P)) (stream : AuditStream) (cursor : WithBot P) :
    Option (List (AuditRow P)) :=
  if cfg.source.carries stream then rowsAfter cfg log stream cursor else some []

/-- A pass: it has listed the stream, read the first audit stream, read both; its batch was refused once too
often; it is about to move the cursor. -/
inductive Pass (P : Type) where
  | listed (cursor : WithBot P) (failures : ℕ)
  | half (cursor : WithBot P) (failures : ℕ) (rows : List (AuditRow P))
  | full (failures : ℕ) (candidates : List (AuditRow P))
  | refused (candidates : List (AuditRow P))
  | advance (position : P)

/-- What is committed, with what was pruned and what the sink has accepted. -/
structure Books (P : Type) where
  log : List (AuditRow P) := []
  pruned : List (AuditRow P) := []
  cursor : WithBot P := ⊥
  failures : ℕ := 0
  accepted : List (AuditRow P) := []
  deadLetters : List (P × P) := []

/-- The next step of a pass, with the sink's answer if it comes to that. -/
def act (b : Books P) (ok : Bool) : Pass P → Books P × Option (Pass P)
  | .listed cursor failures =>
    match readCarried cfg b.log .adminAction cursor with
    | none => ({ b with failures := b.failures + 1 }, none)
    | some rows => (b, some (.half cursor failures rows))
  | .half cursor failures rows =>
    match readCarried cfg b.log .authentication cursor with
    | none => ({ b with failures := b.failures + 1 }, none)
    | some more => (b, some (.full failures (page AuditRow.key shipBatch (rows ++ more))))
  | .full failures candidates =>
    match candidates.getLast? with
    | none => (b, none)
    | some last =>
      let events := candidates.filter cfg.accepts
      if events.isEmpty then (b, some (.advance last.position))
      else if ok then ({ b with accepted := b.accepted ++ events }, some (.advance last.position))
      else ({ b with failures := b.failures + 1 },
        if failures + 1 < deadLetterAfter then none else some (.refused candidates))
  | .refused candidates =>
    match candidates.head?, candidates.getLast? with
    | some first, some last =>
      ({ b with deadLetters := b.deadLetters ++ [(first.position, last.position)] }, some (.advance last.position))
    | _, _ => (b, none)
  | .advance position => ({ b with cursor := position, failures := 0 }, none)

structure State (P T : Type) where
  books : Books P := {}
  passes : T → Option (Pass P) := fun _ => none

/-- What comes next. A pass that fails has met some other error, which is recorded. -/
inductive Choice (P T : Type) where
  | write (row : AuditRow P)
  | prune (stream : AuditStream) (n : ℕ)
  | list (t : T)
  | next (t : T) (ok : Bool)
  | fail (t : T)
  | stop (t : T)

variable [DecidableEq T]

def step (s : State P T) : Choice P T → Unit × State P T
  | .write row =>
    if (s.books.log ++ s.books.pruned).any fun old => old.position = row.position then ((), s)
    else ((), { s with books := { s.books with log := s.books.log ++ [row] } })
  | .prune stream n =>
    let oldest := page AuditRow.key n (s.books.log.filter fun row => row.stream = stream)
    ((), { s with books := { s.books with
      log := s.books.log.filter fun row => row ∉ oldest
      pruned := s.books.pruned ++ oldest } })
  | .list t => ((), { s with passes := update s.passes t (some (.listed s.books.cursor s.books.failures)) })
  | .next t ok =>
    match s.passes t with
    | none => ((), s)
    | some pass => ((), ⟨(act cfg s.books ok pass).1, update s.passes t (act cfg s.books ok pass).2⟩)
  | .fail t => ((), ⟨{ s.books with failures := s.books.failures + 1 }, update s.passes t none⟩)
  | .stop t => ((), { s with passes := update s.passes t none })

/-- The row was in a batch that the sink accepted, or lies in a recorded range, if it is one to be shipped. -/
def Done (b : Books P) (row : AuditRow P) : Prop :=
  cfg.accepts row = true → row ∈ b.accepted ∨ ∃ d ∈ b.deadLetters, d.1 ≤ row.position ∧ row.position ≤ d.2

/-- What stands at or before the cursor is done. -/
def AtLeastOnce (b : Books P) : Prop :=
  ∀ row ∈ b.log, cfg.reads row = true → row.key ≤ b.cursor → Done cfg b row

/-- The row commits behind nothing that the pass has read, and not on a stream that it has read while it has
the other one to read. -/
def Pass.Before : Pass P → Prop
  | .listed cursor _ => cursor < row.key
  | .half cursor _ _ => cursor < row.key ∧ row.stream ≠ .adminAction
  | .full _ rows | .refused rows => ∀ old ∈ rows, old.position < row.position
  | .advance position => position < row.position

def InOrder (s : State P T) : Choice P T → Prop
  | .write row => cfg.reads row = true → s.books.cursor < row.key ∧ ∀ t pass, s.passes t = some pass → pass.Before row
  | _ => True

/-! ### What every step keeps -/

section invariant

variable {cfg : LogStream} {b b2 : Books P} {s : State P T}

def Books.rows (cfg : LogStream) (b : Books P) : List (AuditRow P) := b.log.filter cfg.reads

/-- The rows of one read. -/
def Books.rowsOf (cfg : LogStream) (b : Books P) (stream : AuditStream) : List (AuditRow P) :=
  (b.rows cfg).filter fun row => row.stream = stream

def Books.Known (b : Books P) (rows : List (AuditRow P)) : Prop := ∀ row ∈ rows, row ∈ b.log ++ b.pruned

def Pass.Sound (cfg : LogStream) (b : Books P) : Pass P → Prop
  | .listed cursor _ => Covered AuditRow.key (b.rows cfg) (Done cfg b) cursor
  | .half cursor _ rows => Covered AuditRow.key (b.rows cfg) (Done cfg b) cursor ∧ b.Known rows ∧
      Fills AuditRow.key shipBatch (b.rowsOf cfg .adminAction) cursor rows
  | .full _ rows | .refused rows => Reads AuditRow.key (b.rows cfg) (Done cfg b) rows ∧ rows.Pairwise (·.key ≤ ·.key)
  | .advance position => Covered AuditRow.key (b.rows cfg) (Done cfg b) position

structure Sound (cfg : LogStream) (s : State P T) : Prop where
  distinct : ∀ x ∈ s.books.log ++ s.books.pruned, ∀ y ∈ s.books.log ++ s.books.pruned, x.key = y.key → x = y
  covered : Covered AuditRow.key (s.books.rows cfg) (Done cfg s.books) s.books.cursor
  passes : ∀ t pass, s.passes t = some pass → pass.Sound cfg s.books

/-- The books of a later moment: rows were pruned, and others are behind nothing that the pass has read. -/
theorem Pass.Sound.grow {p : Pass P} (h : p.Sound cfg b) (hd : ∀ row, Done cfg b row → Done cfg b2 row)
    (hk : ∀ row ∈ b.log ++ b.pruned, row ∈ b2.log ++ b2.pruned)
    (hg : ∀ row ∈ b2.rows cfg, row ∈ b.rows cfg ∨ p.Before row) : p.Sound cfg b2 := by
  cases p with
  | listed cursor failures => exact Covered.grow h hd hg
  | half cursor failures rows =>
    refine ⟨h.1.grow hd fun x hx => (hg x hx).imp_right And.left, fun x hx => hk x (h.2.1 x hx), h.2.2.grow fun x hx => ?_⟩
    have hx := mem_filter.mp hx
    exact mem_filter.mpr ⟨(hg x hx.1).resolve_right fun hb => hb.2 (of_decide_eq_true hx.2), hx.2⟩
  | full failures rows
  | refused rows => exact ⟨h.1.grow hd fun x hx => (hg x hx).imp_right fun hb y hy => WithBot.coe_lt_coe.mpr (hb y hy), h.2⟩
  | advance position => exact Covered.grow h hd fun x hx => (hg x hx).imp_right WithBot.coe_lt_coe.mpr

/-- One read of a pass. -/
theorem fills_readCarried {stream : AuditStream} {c : WithBot P} {rows : List (AuditRow P)}
    (hd : ∀ x ∈ b.log ++ b.pruned, ∀ y ∈ b.log ++ b.pruned, x.key = y.key → x = y)
    (h : readCarried cfg b.log stream c = some rows) :
    b.Known rows ∧ Fills AuditRow.key shipBatch (b.rowsOf cfg stream) c rows := by
  unfold readCarried at h
  split_ifs at h with hc
  · simp only [rowsAfter] at h
    split_ifs at h
    have hr : (b.log.filter fun row => row.stream = stream).filter cfg.ofOrganization = b.rowsOf cfg stream := by
      rw [Books.rowsOf, Books.rows, filter_filter, filter_filter]
      refine filter_congr fun row _ => ?_
      by_cases hs : row.stream = stream <;> simp [LogStream.reads, hs, hc]
    have hm : ∀ x ∈ b.rowsOf cfg stream, x ∈ b.log ++ b.pruned :=
      fun x hx => mem_append_left _ (mem_of_mem_filter (mem_of_mem_filter hx))
    rw [hr, Option.some.injEq] at h
    subst h
    exact ⟨fun x hx => hm x (mem_of_mem_filter (mem_of_mem_page hx)),
      fills_page fun x hx y hy => hd x (hm x hx) y (hm y hy)⟩
  · cases h
    refine ⟨by simp [Books.Known], fun x hx => absurd hx ?_⟩
    simp only [Books.rowsOf, Books.rows, mem_filter, LogStream.reads, Bool.and_eq_true, decide_eq_true_eq]
    rintro ⟨⟨-, ha, -⟩, rfl⟩
    exact hc ha

variable {r : List (AuditRow P)} {l row : AuditRow P}

/-- The first and the last row of a batch enclose it. -/
theorem mem_range {first : AuditRow P} (h : r.Pairwise (·.key ≤ ·.key))
    (hf : r.head? = some first) (hl : r.getLast? = some l) (hr : row ∈ r) :
    first.position ≤ row.position ∧ row.position ≤ l.position := by
  obtain ⟨f, rfl⟩ := List.getLast?_eq_some_iff.mp hl
  constructor
  · cases f with
    | nil => simp_all
    | cons a f =>
      obtain rfl : a = first := by simpa using hf
      rcases mem_cons.mp hr with rfl | hr
      · exact le_rfl
      · exact WithBot.coe_le_coe.mp ((pairwise_cons.mp h).1 row hr)
  · rcases mem_append.mp hr with hr | hr
    · exact WithBot.coe_le_coe.mp ((pairwise_append.mp h).2.2 row hr l (by simp))
    · rw [mem_singleton.mp hr]

/-- What a step of a pass does: the log stays, what was done stays done, and the cursor and the pass are as
they should be. -/
structure Acts (cfg : LogStream) (b : Books P) (next : Books P × Option (Pass P)) : Prop where
  log : next.1.log = b.log
  pruned : next.1.pruned = b.pruned
  done : ∀ row, Done cfg b row → Done cfg next.1 row
  covered : Covered AuditRow.key (b.rows cfg) (Done cfg next.1) next.1.cursor
  sound : ∀ pass, next.2 = some pass → pass.Sound cfg next.1

/-- A step that gives up, or goes on in the same books. -/
theorem acts_same {failures : ℕ} {next : Option (Pass P)} (hc : Covered AuditRow.key (b.rows cfg) (Done cfg b) b.cursor)
    (hn : ∀ pass, next = some pass → pass.Sound cfg b) : Acts cfg b ({ b with failures }, next) := by
  refine ⟨rfl, rfl, fun _ hx => hx, hc, fun pass hp => (hn pass hp).grow (fun _ hx => hx) (fun _ hx => hx) fun _ hx => .inl hx⟩

/-- The batch is done, and the cursor is to move. -/
theorem acts_advance
    (hc : Covered AuditRow.key (b.rows cfg) (Done cfg b) b.cursor) (h : Reads AuditRow.key (b.rows cfg) (Done cfg b) r)
    (hl : r.getLast? = some l) (ho : b2.log = b.log) (hp : b2.pruned = b.pruned) (hu : b2.cursor = b.cursor)
    (hd : ∀ row, Done cfg b row → Done cfg b2 row) (hr : ∀ row ∈ r, Done cfg b2 row) :
    Acts cfg b (b2, some (.advance l.position)) := by
  have hrows : b2.rows cfg = b.rows cfg := by rw [Books.rows, ho, Books.rows]
  refine ⟨ho, hp, hd, hu ▸ hc.grow hd fun _ hx => .inl hx, fun p hp => ?_⟩
  cases hp
  rw [Pass.Sound, hrows]
  exact h.covered hd hr (mem_of_getLast? hl)

theorem act_acts {ok : Bool} {pass : Pass P}
    (hd : ∀ x ∈ b.log ++ b.pruned, ∀ y ∈ b.log ++ b.pruned, x.key = y.key → x = y)
    (hc : Covered AuditRow.key (b.rows cfg) (Done cfg b) b.cursor) (h : pass.Sound cfg b) :
    Acts cfg b (act cfg b ok pass) := by
  cases pass with
  | listed cursor failures =>
    simp only [act]
    cases hr : readCarried cfg b.log .adminAction cursor with
    | none => exact acts_same hc (by simp)
    | some rows => exact acts_same hc fun pass hp => by cases hp; exact ⟨h, fills_readCarried hd hr⟩
  | half cursor failures rows =>
    simp only [act]
    cases hr : readCarried cfg b.log .authentication cursor with
    | none => exact acts_same hc (by simp)
    | some more =>
      obtain ⟨hcov, hk, hf⟩ := h
      obtain ⟨hk2, hf2⟩ := fills_readCarried hd hr
      have hm : ∀ x ∈ rows ++ more, x ∈ b.log ++ b.pruned := fun x hx => (mem_append.mp hx).elim (hk x) (hk2 x)
      have hs : ∀ x ∈ b.rows cfg, x ∈ b.rowsOf cfg .adminAction ∨ x ∈ b.rowsOf cfg .authentication := by
        intro x hx
        cases hs : x.stream <;> simp [Books.rowsOf, hx, hs]
      refine acts_same hc fun pass hp => ?_
      cases hp
      exact ⟨hcov.reads_merge hs hf hf2 fun x hx y hy => hd x (mem_append_left _ (mem_of_mem_filter hx)) y (hm y hy),
        (insertionSort_key_pairwise ..).take⟩
  | full failures rows =>
    simp only [act]
    cases hl : rows.getLast? with
    | none => exact acts_same hc (by simp)
    | some last =>
      dsimp only
      by_cases he : (rows.filter cfg.accepts).isEmpty
      · rw [if_pos he]
        refine acts_advance hc h.1 hl rfl rfl rfl (fun _ hx => hx) fun x hx ha => ?_
        exact absurd (mem_filter.mpr ⟨hx, ha⟩) (isEmpty_iff.mp he ▸ not_mem_nil)
      · rw [if_neg he]
        cases ok with
        | true =>
          exact acts_advance hc h.1 hl rfl rfl rfl (fun x hx ha => (hx ha).imp_left (mem_append_left _))
            fun x hx ha => .inl (mem_append_right _ (mem_filter.mpr ⟨hx, ha⟩))
        | false =>
          refine acts_same hc fun pass hp => ?_
          split_ifs at hp
          cases hp
          exact h
  | refused rows =>
    simp only [act]
    split
    · rename_i first last hf hl
      refine acts_advance hc h.1 hl rfl rfl rfl (fun x hx ha => (hx ha).imp_right ?_)
        fun x hx _ => .inr ⟨(first.position, last.position), by simp, mem_range h.2 hf hl hx⟩
      rintro ⟨d, hd, hle⟩
      exact ⟨d, mem_append_left _ hd, hle⟩
    · exact acts_same hc (by simp)
  | advance position => exact ⟨rfl, rfl, fun _ hx => hx, h, by simp [act]⟩

theorem Sound.acts {t : T} {next : Books P × Option (Pass P)} (h : Sound cfg s) (ha : Acts cfg s.books next) :
    Sound cfg ⟨next.1, update s.passes t next.2⟩ := by
  have hrows : next.1.rows cfg = s.books.rows cfg := by rw [Books.rows, ha.log, Books.rows]
  refine ⟨?_, ?_, fun t2 p h2 => ?_⟩
  · rw [ha.log, ha.pruned]
    exact h.distinct
  · rw [hrows]
    exact ha.covered
  · by_cases ht : t2 = t
    · subst ht
      exact ha.sound p (by simpa using h2)
    · refine (h.passes t2 p (by simpa [ht] using h2)).grow ha.done (fun x hx => ?_) fun x hx => .inl (hrows ▸ hx)
      rwa [ha.log, ha.pruned]

theorem Sound.write (h : Sound cfg s) (ho : InOrder cfg s (.write row)) :
    Sound cfg (step cfg s (.write row)).2 := by
  simp only [LogShipper.step]
  split_ifs with hold
  · exact h
  have hnew : ∀ old ∈ s.books.log ++ s.books.pruned, old.key ≠ row.key :=
    fun old ho heq => hold (any_eq_true.mpr ⟨old, ho, decide_eq_true (WithBot.coe_inj.mp heq)⟩)
  have hm : ∀ x, x ∈ s.books.log ++ [row] ++ s.books.pruned ↔ x = row ∨ x ∈ s.books.log ++ s.books.pruned := by
    intro x
    simp only [mem_append, mem_singleton]
    tauto
  have hrows : ∀ x ∈ Books.rows cfg { s.books with log := s.books.log ++ [row] },
      x ∈ s.books.rows cfg ∨ x = row ∧ cfg.reads row = true := by
    intro x hx
    simp only [Books.rows, mem_filter, mem_append, mem_singleton] at hx ⊢
    grind
  refine ⟨fun x hx y hy hxy => ?_, h.covered.grow (fun _ hx => hx) fun x hx => (hrows x hx).imp_right ?_, fun t p ht => ?_⟩
  · rcases (hm x).mp hx with rfl | hx2 <;> rcases (hm y).mp hy with rfl | hy2
    · rfl
    · exact absurd hxy.symm (hnew y hy2)
    · exact absurd hxy (hnew x hx2)
    · exact h.distinct x hx2 y hy2 hxy
  · rintro ⟨rfl, hr⟩
    exact (ho hr).1
  · refine (h.passes t p ht).grow (fun _ hx => hx) (fun x hx => (hm x).mpr (.inr hx)) fun x hx => (hrows x hx).imp_right ?_
    rintro ⟨rfl, hr⟩
    exact (ho hr).2 t p ht

/-- A prune loses no row. -/
theorem mem_prune {st : AuditStream} {n : ℕ} (x : AuditRow P) :
    x ∈ (step cfg s (.prune st n)).2.books.log ++ (step cfg s (.prune st n)).2.books.pruned ↔
      x ∈ s.books.log ++ s.books.pruned := by
  have : x ∈ page AuditRow.key n (s.books.log.filter fun row => row.stream = st) → x ∈ s.books.log :=
    fun hx => mem_of_mem_filter (mem_of_mem_page hx)
  simp only [LogShipper.step, mem_append, mem_filter, decide_eq_true_eq]
  tauto

theorem Sound.step {choice : Choice P T} (h : Sound cfg s) (ho : InOrder cfg s choice) : Sound cfg (step cfg s choice).2 := by
  cases choice with
  | write row => exact h.write ho
  | prune stream n =>
    have hrows : ∀ x ∈ Books.rows cfg (LogShipper.step cfg s (.prune stream n)).2.books, x ∈ s.books.rows cfg := by
      intro x hx
      simp only [LogShipper.step, Books.rows, mem_filter] at hx ⊢
      exact ⟨hx.1.1, hx.2⟩
    exact ⟨fun x hx y hy => h.distinct x ((mem_prune x).mp hx) y ((mem_prune y).mp hy),
      h.covered.grow (fun _ hx => hx) fun x hx => .inl (hrows x hx),
      fun t pass ht => (h.passes t pass ht).grow (fun _ hx => hx) (fun x hx => (mem_prune x).mpr hx) fun x hx => .inl (hrows x hx)⟩
  | list t => exact h.acts (acts_same h.covered fun pass hp => by cases hp; exact h.covered)
  | next t ok =>
    simp only [LogShipper.step]
    cases ht : s.passes t with
    | none => exact h
    | some pass => exact h.acts (act_acts h.distinct h.covered (h.passes t pass ht))
  | fail t | stop t => exact h.acts (acts_same h.covered (by simp))

end invariant

/-- **Log shipping is at least once, if rows commit in order.** -/
theorem ships_at_least_once (cfg : LogStream) (choices : List (Choice P T))
    (h : Along (step cfg) (InOrder cfg) ({} : State P T) choices) :
    AtLeastOnce cfg (run (step cfg) ({} : State P T) choices).books := by
  have hs := run_of_along (I := Sound cfg) (fun _ _ hs ho => hs.step ho) ⟨by simp, by simp [Covered, Books.rows], by simp⟩ h
  exact fun row hr hre hle => hs.covered row (mem_filter.mpr ⟨hr, hre⟩) hle

def bothStreams : LogStream := ⟨.both, none, none, true, fun _ => some .adminAction⟩

def sampleRow (position : ℕ) (stream : AuditStream) : AuditRow ℕ := ⟨position, stream, "client.create", none⟩

/-- A pass from its listing to the move of the cursor. -/
def shipOnce : List (Choice ℕ Unit) := [.list (), .next () true, .next () true, .next () true, .next () true]

/-- Two rows that commit before the pass. -/
theorem sampleRows_delivered : AtLeastOnce bothStreams (run (step bothStreams) ({} : State ℕ Unit)
    (.write (sampleRow 1 .adminAction) :: .write (sampleRow 2 .authentication) :: shipOnce)).books := by
  refine ships_at_least_once _ _ ?_
  simp [Along, InOrder, step, shipOnce, sampleRow, AuditRow.key, bot_lt_iff_ne_bot]

/-- An administrator's row commits when the pass has read the first audit stream, and a later row of the other
one before it reads that. -/
theorem betweenReads_unshipped : ¬ AtLeastOnce bothStreams (run (step bothStreams) ({} : State ℕ Unit)
    [.list (), .next () true, .write (sampleRow 1 .adminAction), .write (sampleRow 2 .authentication),
      .next () true, .next () true, .next () true]).books := by
  intro h
  have := h (sampleRow 1 .adminAction) (by decide) (by decide) (by decide) (by decide)
  revert this
  decide

end IronAuth.Admin.LogShipper
