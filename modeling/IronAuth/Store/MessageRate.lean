import IronAuth.Lib.Machine
import IronAuth.Quota.Enforcer

/-!
# The send limit

A recipient is sent no more than a number of messages in a window. The check looks back from the instant of
each send over what was sent before, in whatever order that is handed to it, and what it lets through is
recorded at that instant. So the last send of any interval of one window has seen the others of that interval,
and the limit holds wherever the window is laid.

A send that is blocked is told when the oldest send in the window leaves it. That is the instant from which a
retry is let through only where one send leaving is enough; where the window holds more than the limit, for
instance since the limit was lowered, the retry is blocked again.
-/

namespace IronAuth.Store.MessageRate

open List Lib.Machine

/-- `u32::MAX`. -/
def u32Max : ℕ := 2 ^ 32 - 1

/-- `RateBudget`. -/
structure RateBudget where
  limit : ℕ
  windowSeconds : ℕ
  limit_le : limit ≤ u32Max

/-- `RateDecision`. -/
inductive RateDecision
  | allow (remaining : ℕ)
  | block (retryAfterEpochSeconds : ℕ)
  deriving DecidableEq

def RateDecision.isAllow : RateDecision → Bool
  | .allow _ => true
  | .block _ => false

/-- `rate_decision`. -/
def rateDecision (recentSends : List ℕ) (now : ℕ) (budget : RateBudget) : RateDecision :=
  let cutoff := now - budget.windowSeconds
  let inWindow := recentSends.filter (cutoff < ·)
  let used := min inWindow.length u32Max
  if used < budget.limit then .allow (budget.limit - used - 1)
  else
    let oldest := (inWindow.insertionSort (· ≤ ·)).head?.getD now
    .block (min (oldest + budget.windowSeconds) Quota.u64Max)

variable {budget : RateBudget} {history record : List ℕ} {now : ℕ}

/-- A send is allowed if fewer than the limit are in the window. -/
theorem isAllow_iff : (rateDecision history now budget).isAllow ↔
    history.countP (now - budget.windowSeconds < ·) < budget.limit := by
  have hl := budget.limit_le
  rw [countP_eq_length_filter]
  unfold rateDecision
  dsimp only
  split_ifs with h
  · exact iff_of_true rfl (by omega)
  · exact iff_of_false Bool.false_ne_true (by omega)

/-! ### Every window -/

/-- Every half-open interval of one window length holds at most the limit of the sends. Over instants in seconds
the intervals that are open on the left are among these. -/
def Limited (budget : RateBudget) (record : List ℕ) : Prop :=
  ∀ start : ℤ, record.countP (fun sent : ℕ => start ≤ sent ∧ sent < start + budget.windowSeconds) ≤ budget.limit

/-- A send that is evaluated at an instant, on the history in some order. -/
structure Attempt where
  now : ℕ
  history : List ℕ

/-- What is allowed is recorded. -/
def step (budget : RateBudget) (record : List ℕ) (attempt : Attempt) : RateDecision × List ℕ :=
  let decision := rateDecision attempt.history attempt.now budget
  (decision, if decision.isAllow then attempt.now :: record else record)

/-- A send that is allowed has seen the sends of every interval that it falls into. -/
theorem limited_cons (hl : Limited budget record) (hr : ∀ sent ∈ record, 0 < sent) (hp : history ~ record)
    (ha : (rateDecision history now budget).isAllow) : Limited budget (now :: record) := by
  intro start
  rw [countP_cons]
  split_ifs with hn
  · rw [isAllow_iff, hp.countP_eq] at ha
    refine Nat.succ_le_of_lt (lt_of_le_of_lt (countP_mono_left fun sent hm hs => ?_) ha)
    have hpos := hr sent hm
    simp only [decide_eq_true_eq] at hn hs ⊢
    omega
  · exact hl start

theorem limit_in_every_window (budget : RateBudget) (attempts : List Attempt)
    (hproper : Along (step budget) (fun record attempt => attempt.history ~ record ∧ 0 < attempt.now) [] attempts) :
    Limited budget (run (step budget) [] attempts) := by
  refine (run_of_along (I := fun record => Limited budget record ∧ ∀ sent ∈ record, 0 < sent) ?_ ⟨?_, by simp⟩ hproper).1
  · rintro record attempt ⟨hl, hr⟩ ⟨hp, hn⟩
    dsimp only [step]
    split_ifs with ha
    · exact ⟨limited_cons hl hr hp ha, forall_mem_cons.mpr ⟨hn, hr⟩⟩
    · exact ⟨hl, hr⟩
  · intro start
    simp

theorem two_sends_limited : Limited ⟨1, 60, by decide⟩ (run (step ⟨1, 60, by decide⟩) [] [⟨100, []⟩, ⟨160, [100]⟩]) :=
  limit_in_every_window _ _ ⟨⟨.refl _, by decide⟩, ⟨.refl _, by decide⟩, trivial⟩

/-! ### The instant of a retry -/

/-- A retry is allowed at an instant, and blocked from now on until then. -/
def Exact (budget : RateBudget) (history : List ℕ) (now retry : ℕ) : Prop :=
  (rateDecision history retry budget).isAllow ∧
    ∀ instant, now ≤ instant → instant < retry → ¬ (rateDecision history instant budget).isAllow

/-- The oldest send in the window. -/
def Oldest (budget : RateBudget) (history : List ℕ) (now oldest : ℕ) : Prop :=
  oldest ∈ history ∧ now - budget.windowSeconds < oldest ∧
    ∀ sent ∈ history, now - budget.windowSeconds < sent → oldest ≤ sent

/-- Fewer sends than the limit are later than the oldest in the window, and that leaves it before the end of time. -/
def OneLeaving (budget : RateBudget) (history : List ℕ) (now : ℕ) : Prop :=
  ∃ oldest, Oldest budget history now oldest ∧ history.countP (oldest < ·) < budget.limit ∧
    oldest + budget.windowSeconds ≤ Quota.u64Max

/-- What a block says of the window. -/
theorem of_block {retry : ℕ} (h : rateDecision history now budget = .block retry) :
    budget.limit ≤ history.countP (now - budget.windowSeconds < ·) ∧ (budget.limit = 0 ∨
      ∃ oldest, Oldest budget history now oldest ∧ retry = min (oldest + budget.windowSeconds) Quota.u64Max) := by
  have ha := @isAllow_iff budget history now
  rw [h] at ha
  have hle : budget.limit ≤ history.countP (now - budget.windowSeconds < ·) :=
    not_lt.mp fun hlt => Bool.false_ne_true (ha.mpr hlt)
  refine ⟨hle, ?_⟩
  unfold rateDecision at h
  dsimp only at h
  split_ifs at h
  have hme : ∀ sent, sent ∈ (history.filter (now - budget.windowSeconds < ·)).insertionSort (· ≤ ·) ↔
      sent ∈ history ∧ now - budget.windowSeconds < sent := by simp [mem_insertionSort]
  have hso := pairwise_insertionSort (· ≤ ·) (history.filter (now - budget.windowSeconds < ·))
  cases hs : (history.filter (now - budget.windowSeconds < ·)).insertionSort (· ≤ ·) with
  | nil =>
    left
    have hno : history.countP (now - budget.windowSeconds < ·) = 0 := by
      rw [countP_eq_zero]
      intro sent hm hin
      simpa [hs] using (hme sent).mpr ⟨hm, of_decide_eq_true hin⟩
    omega
  | cons oldest rest =>
    right
    rw [hs] at h hso hme
    obtain ⟨hm, hin⟩ := (hme oldest).mp mem_cons_self
    refine ⟨oldest, ⟨hm, hin, fun sent hsent hafter => ?_⟩, (RateDecision.block.inj h).symm⟩
    obtain rfl | hr := mem_cons.mp ((hme sent).mpr ⟨hsent, hafter⟩)
    · exact le_rfl
    · exact (pairwise_cons.mp hso).1 sent hr

theorem retry_exact_iff {retry : ℕ} (hblock : rateDecision history now budget = .block retry) :
    Exact budget history now retry ↔ OneLeaving budget history now := by
  obtain ⟨hle, hre⟩ := of_block hblock
  -- while the oldest send is in the window, so are the others
  have hstays : ∀ {oldest instant}, Oldest budget history now oldest → instant - budget.windowSeconds < oldest →
      ¬ (rateDecision history instant budget).isAllow := by
    intro oldest instant ho hin
    rw [isAllow_iff, not_lt]
    refine hle.trans (countP_mono_left fun sent hm hs => ?_)
    have := ho.2.2 sent hm (of_decide_eq_true hs)
    exact decide_eq_true (by omega)
  constructor
  · rintro ⟨ha, -⟩
    obtain hz | ⟨oldest, ho, rfl⟩ := hre
    · rw [isAllow_iff, hz] at ha
      omega
    have hpos := ho.2.1
    by_cases hfits : oldest + budget.windowSeconds ≤ Quota.u64Max
    · rw [min_eq_left hfits, isAllow_iff, Nat.add_sub_cancel] at ha
      exact ⟨oldest, ho, ha, hfits⟩
    · exact absurd ha (hstays ho (by omega))
  · rintro ⟨oldest, ho, hlt, hfits⟩
    obtain ⟨other, hother, rfl⟩ := hre.resolve_left (by omega)
    obtain rfl : oldest = other := le_antisymm (ho.2.2 other hother.1 hother.2.1) (hother.2.2 oldest ho.1 ho.2.1)
    rw [min_eq_left hfits]
    constructor
    · rwa [isAllow_iff, Nat.add_sub_cancel]
    · have hpos := ho.2.1
      exact fun instant _ hin => hstays ho (by omega)

theorem single_send_retry_exact : rateDecision [100] 120 ⟨1, 60, by decide⟩ = .block 160 ∧
    (Exact ⟨1, 60, by decide⟩ [100] 120 160 ↔ OneLeaving ⟨1, 60, by decide⟩ [100] 120) :=
  ⟨by decide, retry_exact_iff (by decide)⟩

theorem lowered_limit_retry_blocked : ¬ ∀ retry, rateDecision [100, 110] 120 ⟨1, 60, by decide⟩ = .block retry →
    Exact ⟨1, 60, by decide⟩ [100, 110] 120 retry := by
  intro h
  exact absurd (h 160 (by decide)).1 (by decide)

end IronAuth.Store.MessageRate
