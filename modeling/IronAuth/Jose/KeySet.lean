import IronAuth.Lib.Fallible
import IronAuth.Lib.Timeline

/-!
# Key sets

The signing keys of an issuer, with the four instants of each: published, active, retired, expired.
A key signs from its activation until it is retired, and is published from `publish_at` until it
expires. `rotate` schedules a successor: it retires the head of the successor's algorithm at the
instant the successor becomes active, and writes the instant the successor is published back from
there.

A `SystemTime` is a number of nanoseconds since the Unix epoch, in the range that 64 bits of seconds
give it; a `Duration` is a number of nanoseconds with 64 bits of seconds.
-/

namespace IronAuth.Jose

open Lib Lib.Machine Lib.Timeline List

/-! ### Time -/

/-- The earliest and the latest `SystemTime`. -/
def systemTimeMin : ℤ := -2 ^ 63 * 10 ^ 9
def systemTimeMax : ℤ := 2 ^ 63 * 10 ^ 9 - 1

/-- `SystemTime::UNIX_EPOCH`. -/
def unixEpoch : ℤ := 0

/-- `Duration::MAX`. -/
def durationMax : ℕ := 2 ^ 64 * 10 ^ 9 - 1

/-- A `Duration`. -/
structure Duration where
  nanos : ℕ
  le_max : nanos ≤ durationMax

/-- `Duration::saturating_add`. -/
def Duration.saturatingAdd (a b : Duration) : Duration := ⟨min durationMax (a.nanos + b.nanos), min_le_left _ _⟩

/-- `SystemTime::checked_add`. -/
def checkedAdd (instant : ℤ) (duration : Duration) : Option ℤ :=
  if instant + duration.nanos ≤ systemTimeMax then some (instant + duration.nanos) else none

/-- `SystemTime::checked_sub`. -/
def checkedSub (instant : ℤ) (duration : Duration) : Option ℤ :=
  if systemTimeMin ≤ instant - duration.nanos then some (instant - duration.nanos) else none

/-! ### Keys and their lifecycles -/

inductive JwsAlgorithm where
  | edDsa | es256 | es384 | rs256 | rs384 | rs512 | ps256 | ps384 | ps512
  deriving DecidableEq, Repr

structure RotationParams where
  cacheTtl : Duration
  maxTokenLifetime : Duration
  prepublishBuffer : Duration

/-- How long a key is to be published before it first signs. -/
def RotationParams.prepublishLead (params : RotationParams) : Duration :=
  (params.cacheTtl.saturatingAdd params.maxTokenLifetime).saturatingAdd params.prepublishBuffer

/-- How long a retired key stays published. -/
def RotationParams.retentionAfterRetire (params : RotationParams) : Duration := params.maxTokenLifetime

structure KeyLifecycle where
  publishAt : ℤ
  activateAt : ℤ
  retireAt : Option ℤ
  expireAt : Option ℤ
  deriving DecidableEq

structure SigningKey (κ : Type) where
  kid : Option κ
  algorithm : JwsAlgorithm
  deriving DecidableEq

structure ManagedKey (κ : Type) where
  key : SigningKey κ
  lifecycle : KeyLifecycle
  deriving DecidableEq

@[ext]
structure KeySet (κ : Type) where
  keys : List (ManagedKey κ)
  deriving DecidableEq

inductive RotationError where
  | nonMonotonicActivation
  deriving DecidableEq

variable {κ : Type}

/-- Activated and not yet retired. -/
def isActive (managed : ManagedKey κ) (now : ℤ) : Bool :=
  decide (managed.lifecycle.activateAt ≤ now) && managed.lifecycle.retireAt.all fun retire => decide (now < retire)

/-- The publish window has opened and the key has not expired: the filter of `published_keys`. -/
def isPublished (managed : ManagedKey κ) (now : ℤ) : Bool :=
  decide (managed.lifecycle.publishAt ≤ now) && managed.lifecycle.expireAt.all fun expire => decide (now < expire)

/-- A key that is published and active from one instant on, as `bootstrap` and `add` make it. -/
def dayOne (key : SigningKey κ) (activateAt : ℤ) : ManagedKey κ := ⟨key, ⟨activateAt, activateAt, none, none⟩⟩

namespace KeySet

def fromLifecycles (keys : List (SigningKey κ × KeyLifecycle)) : KeySet κ := ⟨keys.map fun entry => ⟨entry.1, entry.2⟩⟩

def bootstrap (initial : SigningKey κ) (activateAt : ℤ) : KeySet κ := ⟨[dayOne initial activateAt]⟩

def add (set : KeySet κ) (key : SigningKey κ) (activateAt : ℤ) : KeySet κ := ⟨set.keys ++ [dayOne key activateAt]⟩

/-- The key of an algorithm with the latest activation among those that are not retired, and its index. -/
def headFor (set : KeySet κ) (algorithm : JwsAlgorithm) : Option (ManagedKey κ × ℕ) :=
  maxByKey (fun entry => entry.1.lifecycle.activateAt)
    (set.keys.zipIdx.filter fun entry => decide (entry.1.key.algorithm = algorithm) && entry.1.lifecycle.retireAt.isNone)

def activeSignerFor (set : KeySet κ) (now : ℤ) (algorithm : JwsAlgorithm) : Option (SigningKey κ) :=
  (maxByKey (fun managed => managed.lifecycle.activateAt)
    (set.keys.filter fun managed => decide (managed.key.algorithm = algorithm) && isActive managed now)).map ManagedKey.key

def publishedKeys (set : KeySet κ) (now : ℤ) : List (ManagedKey κ) := set.keys.filter fun managed => isPublished managed now

def publishedSigningKeys (set : KeySet κ) (now : ℤ) : List (SigningKey κ) := (set.publishedKeys now).map ManagedKey.key

end KeySet

/-- When a successor is published. -/
def RotationParams.publishAt (params : RotationParams) (activateAt : ℤ) : ℤ :=
  (checkedSub activateAt params.prepublishLead).getD unixEpoch

/-- A successor as `rotate` pushes it. -/
def successor (params : RotationParams) (next : SigningKey κ) (activateAt : ℤ) : ManagedKey κ :=
  ⟨next, ⟨params.publishAt activateAt, activateAt, none, none⟩⟩

/-- A head that is retired at an instant, and kept for the longest a token of it can live. Where the
sum overflows the key is kept for ever. -/
def ManagedKey.retire (params : RotationParams) (retireAt : ℤ) (managed : ManagedKey κ) : ManagedKey κ :=
  { managed with lifecycle := { managed.lifecycle with
      retireAt := some retireAt, expireAt := checkedAdd retireAt params.retentionAfterRetire } }

/-- The manual rotation command. -/
def KeySet.rotate (set : KeySet κ) (next : SigningKey κ) (activateAt : ℤ) (params : RotationParams) :
    Except RotationError (KeySet κ) :=
  match set.headFor next.algorithm with
  | none => .ok ⟨set.keys ++ [successor params next activateAt]⟩
  | some (head, index) =>
    if activateAt ≤ head.lifecycle.activateAt then .error .nonMonotonicActivation
    else .ok ⟨set.keys.modify index (ManagedKey.retire params activateAt) ++ [successor params next activateAt]⟩

/-! ### Commands -/

inductive Command (κ : Type) where
  | add (key : SigningKey κ) (activateAt : ℤ)
  | rotate (next : SigningKey κ) (activateAt : ℤ)

/-- A command with the instant it is issued at. -/
structure Issued (κ : Type) where
  issuedAt : ℤ
  command : Command κ

/-- A command is carried out. A refused one leaves the set as it was. -/
def step (params : RotationParams) (set : KeySet κ) (issued : Issued κ) : Except RotationError Unit × KeySet κ :=
  match issued.command with
  | .add key activateAt => (.ok (), set.add key activateAt)
  | .rotate next activateAt =>
    match set.rotate next activateAt params with
    | .ok set => (.ok (), set)
    | .error error => (.error error, set)

/-- The set as of an instant: after the commands that were issued up to it. -/
abbrev setAt (params : RotationParams) (initial : SigningKey κ) (genesis : ℤ) (commands : List (Issued κ)) (now : ℤ) : KeySet κ :=
  asOf (step params) Issued.issuedAt (KeySet.bootstrap initial genesis) commands now

/-! ### What a command does -/

variable {params : RotationParams} {set : KeySet κ}

variable {managed : ManagedKey κ}

/-- Either nothing happens, or a key is pushed; and where it is a successor, the head is retired. -/
theorem step_cases (params : RotationParams) (set : KeySet κ) (issued : Issued κ) :
    (step params set issued).2 = set ∨
      (∃ key activateAt, issued.command = .add key activateAt ∧
        (step params set issued).2.keys = set.keys ++ [dayOne key activateAt]) ∨
      ∃ next activateAt, issued.command = .rotate next activateAt ∧
        ((∀ managed ∈ set.keys, managed.key.algorithm = next.algorithm → managed.lifecycle.retireAt ≠ none) ∧
            (step params set issued).2.keys = set.keys ++ [successor params next activateAt] ∨
          ∃ o head n, set.keys = o ++ head :: n ∧ head.key.algorithm = next.algorithm ∧
            head.lifecycle.retireAt = none ∧ head.lifecycle.activateAt < activateAt ∧
            (step params set issued).2.keys =
              o ++ head.retire params activateAt :: n ++ [successor params next activateAt]) := by
  obtain ⟨issuedAt, command⟩ := issued
  cases command with
  | add key activateAt => exact .inr (.inl ⟨key, activateAt, rfl, rfl⟩)
  | rotate next activateAt =>
    unfold step KeySet.rotate
    dsimp only
    cases hh : set.headFor next.algorithm with
    | none =>
      refine .inr (.inr ⟨next, activateAt, rfl, .inl ⟨fun managed hm ha hrt => ?_, rfl⟩⟩)
      obtain ⟨i, hi, rfl⟩ := getElem_of_mem hm
      have he : (set.keys[i], i) ∈ set.keys.zipIdx :=
        mem_zipIdx_iff_getElem?.mpr (List.getElem?_eq_getElem hi)
      have hem := filter_eq_nil_iff.mp (maxByKey_eq_none_iff.mp hh) _ he
      simp [ha, hrt] at hem
    | some entry =>
      obtain ⟨head, i⟩ := entry
      have hm := mem_of_maxByKey hh
      rw [mem_filter, Bool.and_eq_true, decide_eq_true_eq, Option.isNone_iff_eq_none] at hm
      obtain ⟨he, ha, hrt⟩ := hm
      obtain ⟨hi, hg⟩ := List.getElem?_eq_some_iff.mp (mem_zipIdx_iff_getElem?.mp he)
      dsimp only at hi hg
      have hk : set.keys = set.keys.take i ++ head :: set.keys.drop (i + 1) := by
        rw [← hg, getElem_cons_drop, take_append_drop]
      by_cases hl : activateAt ≤ head.lifecycle.activateAt
      · simp [if_pos hl]
      · simp only [if_neg hl]
        exact .inr (.inr ⟨next, activateAt, rfl,
          .inr ⟨_, head, _, hk, ha, hrt, not_le.mp hl, by rw [modify_eq_take_cons_drop hi, hg]⟩⟩)

/-! ### A key over time -/

/-- A key later on: as it was, or retired since, at an instant that meets a condition. -/
inductive Evolves (params : RotationParams) (R : ℤ → Prop) (before : ManagedKey κ) : ManagedKey κ → Prop
  | same : Evolves params R before before
  | retired {retireAt : ℤ} (hopen : before.lifecycle.retireAt = none) (h : R retireAt) :
      Evolves params R before (before.retire params retireAt)

variable {R : ℤ → Prop}

variable {a b : ManagedKey κ} {i : SigningKey κ} {c : List (Issued κ)} {issued : Issued κ} {now : ℤ}

theorem Evolves.trans {c : ManagedKey κ} (hab : Evolves params R a b) (hbc : Evolves params R b c) :
    Evolves params R a c := by
  cases hab with
  | same => exact hbc
  | retired ho h =>
    cases hbc with
    | same => exact .retired ho h
    | retired ho2 h2 => simp [ManagedKey.retire] at ho2

theorem Evolves.key_eq (h : Evolves params R a b) : b.key = a.key := by
  cases h <;> rfl

theorem Evolves.publishAt_eq (h : Evolves params R a b) :
    b.lifecycle.publishAt = a.lifecycle.publishAt := by
  cases h <;> rfl

theorem Evolves.activateAt_eq (h : Evolves params R a b) :
    b.lifecycle.activateAt = a.lifecycle.activateAt := by
  cases h <;> rfl

/-- The key that a command pushes. -/
def Issued.pushed (params : RotationParams) (issued : Issued κ) : ManagedKey κ :=
  match issued.command with
  | .add key activateAt => dayOne key activateAt
  | .rotate next activateAt => successor params next activateAt

/-- A key that is there stays, and is retired at the instant of a rotation if at all. -/
theorem Evolves.step
    (hR : ∀ next activateAt, issued.command = .rotate next activateAt → R activateAt) (hm : managed ∈ set.keys) :
    ∃ later ∈ (step params set issued).2.keys, Evolves params R managed later := by
  obtain hs | ⟨key, activateAt, hc, hk⟩ |
    ⟨next, activateAt, hc, ⟨-, hk⟩ | ⟨older, head, newer, hse, -, hrt, -, hk⟩⟩ := step_cases params set issued
  · rw [hs]
    exact ⟨managed, hm, .same⟩
  · rw [hk]
    exact ⟨managed, mem_append_left _ hm, .same⟩
  · rw [hk]
    exact ⟨managed, mem_append_left _ hm, .same⟩
  · rw [hse, mem_append, mem_cons] at hm
    rw [hk]
    obtain hm | rfl | hm := hm
    · exact ⟨managed, by simp [hm], .same⟩
    · exact ⟨managed.retire params activateAt, by simp, .retired hrt (hR next activateAt hc)⟩
    · exact ⟨managed, by simp [hm], .same⟩

/-- A key that is there after a command was there before it, or is the one that the command pushed. -/
theorem exists_of_mem_step (hm : managed ∈ (step params set issued).2.keys) :
    (∃ e ∈ set.keys, Evolves params (fun _ => True) e managed) ∨ managed = issued.pushed params := by
  obtain hs | ⟨key, activateAt, hc, hk⟩ |
    ⟨next, activateAt, hc, ⟨-, hk⟩ | ⟨older, head, newer, hse, -, hrt, -, hk⟩⟩ := step_cases params set issued
  · rw [hs] at hm
    exact .inl ⟨managed, hm, .same⟩
  · rw [hk, mem_append, mem_singleton] at hm
    simp only [Issued.pushed, hc]
    exact hm.imp_left fun hold => ⟨managed, hold, .same⟩
  · rw [hk, mem_append, mem_singleton] at hm
    simp only [Issued.pushed, hc]
    exact hm.imp_left fun hold => ⟨managed, hold, .same⟩
  · rw [hk, mem_append, mem_append, mem_cons, mem_singleton] at hm
    simp only [Issued.pushed, hc]
    refine hm.imp_left fun hold => ?_
    rw [hse]
    obtain hold | rfl | hold := hold
    · exact ⟨managed, by simp [hold], .same⟩
    · exact ⟨head, by simp, .retired hrt trivial⟩
    · exact ⟨managed, by simp [hold], .same⟩

/-- What the first key and every key that is pushed have, and do not lose, every key of the set has. -/
theorem forall_mem_setAt {g : ℤ} {Q : ManagedKey κ → Prop}
    (hi : Q (dayOne i g)) (hp : ∀ issued ∈ c, Q (issued.pushed params))
    (hev : ∀ a b, Evolves params (fun _ => True) a b → Q a → Q b) :
    ∀ managed ∈ (setAt params i g c now).keys, Q managed := by
  refine asOf_induction (I := fun set : KeySet κ => ∀ managed ∈ set.keys, Q managed) (t := now) ?_ ?_ (along_of_forall_mem hp)
  · intro set issued _ hQ hs managed hm
    obtain ⟨e, he, h⟩ | rfl := exists_of_mem_step hm
    · exact hev e managed h (hs e he)
    · exact hQ
  · intro managed hm
    rwa [mem_singleton.mp hm]

/-! ### Retention -/

/-- A key is kept for the longest a token of it can live after it is retired, and as long as it is not. -/
def Retained (params : RotationParams) (managed : ManagedKey κ) : Prop :=
  managed.lifecycle.expireAt = managed.lifecycle.retireAt.bind fun retireAt => checkedAdd retireAt params.retentionAfterRetire

theorem Evolves.retained (h : Evolves params R a b) (ha : Retained params a) :
    Retained params b := by
  cases h with
  | same => exact ha
  | retired => rfl

theorem retained_setAt {g : ℤ} :
    ∀ managed ∈ (setAt params i g c now).keys, Retained params managed := by
  refine forall_mem_setAt rfl (fun issued _ => ?_) fun _ _ h => h.retained
  unfold Issued.pushed
  split <;> rfl

/-- A key is published at every time from its publication until the tokens expire that it signed while
it was not retired. -/
theorem Retained.isPublished (h : Retained params managed) (hp : managed.lifecycle.publishAt ≤ now)
    (hrt : ∀ retireAt, managed.lifecycle.retireAt = some retireAt → now < retireAt + params.maxTokenLifetime.nanos) :
    isPublished managed now = true := by
  rw [Jose.isPublished, Bool.and_eq_true, decide_eq_true_eq, h]
  refine ⟨hp, ?_⟩
  cases hc : managed.lifecycle.retireAt with
  | none => rfl
  | some retireAt =>
    rw [Option.bind_some, checkedAdd]
    split
    · exact decide_eq_true (hrt retireAt hc)
    · rfl

/-! ### A short schedule -/

/-- Tokens that live ten nanoseconds, caches that are kept for five, and no buffer. -/
def shortParams : RotationParams := ⟨⟨5, by decide⟩, ⟨10, by decide⟩, ⟨0, by decide⟩⟩

/-- One rotation of a set whose first key is the key `0`. -/
def rotateOnce (issuedAt activateAt : ℤ) : List (Issued ℕ) := [⟨issuedAt, .rotate ⟨some 1, .edDsa⟩ activateAt⟩]

end IronAuth.Jose
