import IronAuth.Quota.SharedTier

/-!
# One budget for many clocks

A bucket of the shared store is stamped with the reading of whichever node charged it
last. A node whose clock is behind refills nothing, but it sets the stamp back, and the
next node refills the difference a second time. So two clocks that differ by a second
can refill that second at every turn, and what is admitted has no bound in the interval
their readings lie in.
-/

namespace IronAuth.Quota

open Lib Lib.Machine Option

/-- The request presents a bucket with this shared key. -/
def RequestIdentity.Presents (identity : RequestIdentity) (key : BucketKey) : Prop :=
  (identity.keyFor key.1).map (fun k => sharedKey (key.1, k)) = some (sharedKey key)

instance (identity : RequestIdentity) (key : BucketKey) : Decidable (identity.Presents key) := by
  unfold RequestIdentity.Presents
  infer_instance

namespace Fleet

variable {ν : Type*} (limiters : ν → LayeredLimiter)

/-- What a call spends from the shared bucket of a key. -/
def spentOn (key : BucketKey) (entry : (ν × LayeredCall) × LayeredOutcome) : ℚ :=
  if entry.2.decision = .admitted ∧ entry.1.2.identity.Presents key then max entry.1.2.cost 0 else 0

/-- A call does not set the stamp of a bucket back: the bucket does not refill, or the call does not charge
it, or its reading is not before the stamp. -/
def KeepsStamp (key : BucketKey) (limit : Limit) (fleet : Fleet ν) (input : ν × LayeredCall) : Prop :=
  limit.refillPerSec = 0 ∨ ¬ input.2.identity.Presents key ∨ ¬ Affords limiters fleet input.1 input.2 ∨
    ∀ bucket ∈ fleet.shared.lookup (sharedKey key), bucket.lastEpochMicros ≤ input.2.nowEpochMicros

instance (key : BucketKey) (limit : Limit) (fleet : Fleet ν) (input : ν × LayeredCall) :
    Decidable (KeepsStamp limiters key limit fleet input) := by
  unfold KeepsStamp
  infer_instance

/-- What can still be spent from a bucket until `stop`: its tokens, and what it refills from its stamp on. -/
def budget (key : BucketKey) (limit : Limit) (start stop : ℚ) (fleet : Fleet ν) : ℚ :=
  match fleet.shared.meter? (sharedKey key) with
  | none => limit.burst + (stop - start) * limit.refillPerSec
  | some meter => meter.tokens + (stop - meter.last) * limit.refillPerSec

variable {limiters} {key : BucketKey} {limit : Limit} {fleet : Fleet ν} {node : ν} {call : LayeredCall} {start stop : ℚ}

/-- The tokens of a bucket are not negative, and it was stamped before the end of the interval. -/
def Stamped (key : BucketKey) (stop : ℚ) (fleet : Fleet ν) : Prop :=
  ∀ meter ∈ fleet.shared.meter? (sharedKey key), 0 ≤ meter.tokens ∧ meter.last ≤ stop

theorem budget_nonneg (hi : start ≤ stop) (hs : Stamped key stop fleet) :
    0 ≤ budget key limit start stop fleet := by
  unfold budget
  cases hmt : fleet.shared.meter? (sharedKey key) with
  | none => exact add_nonneg limit.burst_nonneg (mul_nonneg (sub_nonneg.mpr hi) limit.refill_nonneg)
  | some meter =>
    obtain ⟨ht, hl⟩ := hs meter hmt
    exact add_nonneg ht (mul_nonneg (sub_nonneg.mpr hl) limit.refill_nonneg)

/-- What a charge finds, and what the bucket refills until the end, is within its budget. -/
theorem level_le_budget {r : ℚ} (hst : start ≤ r)
    (hkp : limit.refillPerSec = 0 ∨ ∀ meter ∈ fleet.shared.meter? (sharedKey key), meter.last ≤ r) :
    level limit (fleet.shared.meter? (sharedKey key)) r + (stop - r) * limit.refillPerSec ≤
      budget key limit start stop fleet := by
  unfold budget
  cases hmt : fleet.shared.meter? (sharedKey key) with
  | none =>
    have hs := mul_le_mul_of_nonneg_right (show stop - r ≤ stop - start by linarith) limit.refill_nonneg
    exact add_le_add_right hs _
  | some meter =>
    have hle : level limit (some meter) r ≤
        meter.tokens + durationSince r meter.last * limit.refillPerSec := TokenBucket.wait_le_add
    rcases hkp with hz | hl
    · rw [hz] at hle ⊢
      linarith
    · rw [durationSince_of_le (hl meter hmt)] at hle
      linarith

variable [DecidableEq ν]

/-- A call that does not charge a bucket leaves it as it is. -/
theorem lookup_admitOn_of_not_charged (h : ¬ (call.identity.Presents key ∧ Affords limiters fleet node call)) :
    (fleet.admitOn limiters (node, call)).2.shared.lookup (sharedKey key) = fleet.shared.lookup (sharedKey key) := by
  by_cases ha : Affords limiters fleet node call
  · refine lookup_admitOn_of_ne fun bkt hbk hn => h ⟨?_, ha⟩
    have hl := (sharedKey_layer hn).1
    have hk := (LayeredLimiter.mem_applicable.mp hbk).2
    rw [hl] at hk
    rw [RequestIdentity.Presents, hk, map_some, ← hl, hn]
  · rw [((admitOn_spec limiters fleet node call).1 ha).2]

/-- **One call pays from the budget** of a bucket whose stamp it keeps. -/
theorem spentOn_add_budget_le (hli : (limiters node).limits.get key.1 = some limit) (ht : Stamped key stop fleet)
    (hkp : KeepsStamp limiters key limit fleet (node, call))
    (hrd : call.identity.Presents key → start ≤ seconds call.nowEpochMicros ∧ seconds call.nowEpochMicros ≤ stop) :
    spentOn key ((node, call), (fleet.admitOn limiters (node, call)).1) +
        budget key limit start stop (fleet.admitOn limiters (node, call)).2 ≤ budget key limit start stop fleet ∧
      Stamped key stop (fleet.admitOn limiters (node, call)).2 := by
  by_cases hch : call.identity.Presents key ∧ Affords limiters fleet node call
  · obtain ⟨hp, ha⟩ := hch
    obtain ⟨hst, hs⟩ := hrd hp
    obtain ⟨k, hk, hn⟩ := map_eq_some_iff.mp hp
    have hbk : ((key.1, k), limit) ∈ (limiters node).applicable call.identity := LayeredLimiter.mem_applicable.mpr ⟨hli, hk⟩
    have hmt := meter?_admitOn_of_affords ha hbk
    have hc : max call.cost 0 ≤ level limit (fleet.shared.meter? (sharedKey (key.1, k))) (seconds call.nowEpochMicros) :=
      ha.2 ((key.1, k), limit) hbk
    rw [hn] at hmt hc
    have hd := ((admitOn_spec limiters fleet node call).2 ha).1
    have hsp : spentOn key ((node, call), (fleet.admitOn limiters (node, call)).1) = max call.cost 0 :=
      if_pos ⟨hd, hp⟩
    constructor
    · have hl : limit.refillPerSec = 0 ∨
          ∀ meter ∈ fleet.shared.meter? (sharedKey key), meter.last ≤ seconds call.nowEpochMicros := by
        rcases hkp with hz | hab | hla | hstm
        · exact Or.inl hz
        · exact absurd hp hab
        · exact absurd ha hla
        · refine Or.inr fun meter hm => ?_
          obtain ⟨bkt, hlk, rfl⟩ := map_eq_some_iff.mp hm
          exact seconds_le.mpr (hstm bkt hlk)
      have hle : _ ≤ budget key limit start stop fleet := level_le_budget hst hl
      have haf : budget key limit start stop (fleet.admitOn limiters (node, call)).2 =
          level limit (fleet.shared.meter? (sharedKey key)) (seconds call.nowEpochMicros) - max call.cost 0 +
            (stop - seconds call.nowEpochMicros) * limit.refillPerSec := by
        unfold budget
        rw [hmt]
      linarith
    · intro meter hm
      rw [hmt, mem_some_iff] at hm
      rw [← hm]
      exact ⟨sub_nonneg.mpr hc, hs⟩
  · have hlk := lookup_admitOn_of_not_charged hch
    have hsp : spentOn key ((node, call), (fleet.admitOn limiters (node, call)).1) = 0 := by
      refine if_neg fun hin => hch ⟨hin.2, ?_⟩
      by_contra hla
      have hde := ((admitOn_spec limiters fleet node call).1 hla).1
      rw [hde] at hin
      cases hin.1
    rw [hsp, zero_add, budget, budget, Stamped, SharedBuckets.meter?, hlk]
    exact ⟨le_refl _, ht⟩

/-- **Nodes share one budget.** Whatever the clocks of the nodes read, in every sequence of calls that keep the
stamp of a bucket, and that present it only at readings between `start` and `stop`, at most its burst and
what it refills in that interval is spent from it. -/
theorem shared_budget (limiters : ν → LayeredLimiter) (key : BucketKey) {limit : Limit}
    (hlimit : ∀ node, (limiters node).limits.get key.1 = some limit) {fleet : Fleet ν}
    (hnew : fleet.shared.lookup (sharedKey key) = none) {start stop : ℤ} (hinterval : start ≤ stop)
    {inputs : List (ν × LayeredCall)}
    (hreadings : ∀ input ∈ inputs, input.2.identity.Presents key →
      start ≤ input.2.nowEpochMicros ∧ input.2.nowEpochMicros ≤ stop)
    (hkeeps : Along (Fleet.admitOn limiters) (KeepsStamp limiters key limit) fleet inputs) :
    ((transcript (Fleet.admitOn limiters) fleet inputs).map (spentOn key)).sum ≤
      limit.burst + limit.refillPerSec * (seconds stop - seconds start) := by
  let I := fun (fleet : Fleet ν) (inputs : List (ν × LayeredCall)) =>
    Stamped key (seconds stop) fleet ∧
      (∀ input ∈ inputs, input.2.identity.Presents key →
        start ≤ input.2.nowEpochMicros ∧ input.2.nowEpochMicros ≤ stop) ∧
      Along (Fleet.admitOn limiters) (KeepsStamp limiters key limit) fleet inputs
  have hte : ∀ fleet input inputs, I fleet (input :: inputs) →
      spentOn key (input, (fleet.admitOn limiters input).1) +
          budget key limit (seconds start) (seconds stop) (fleet.admitOn limiters input).2 ≤
        budget key limit (seconds start) (seconds stop) fleet ∧ I (fleet.admitOn limiters input).2 inputs := by
    rintro fleet ⟨node, call⟩ inputs ⟨hst, hreadings, hkeeps, hre⟩
    obtain ⟨hpa, hne⟩ := spentOn_add_budget_le (hlimit node) hst hkeeps fun hpr =>
      (hreadings _ List.mem_cons_self hpr).imp seconds_le.mpr seconds_le.mpr
    exact ⟨hpa, hne, fun input hin => hreadings input (List.mem_cons_of_mem _ hin), hre⟩
  have hme : fleet.shared.meter? (sharedKey key) = none := by rw [SharedBuckets.meter?, hnew, map_none]
  have hst : Stamped key (seconds stop) fleet := fun meter h => by rw [hme] at h; cases h
  have hco := sum_spent_le hte (fun fleet hI => budget_nonneg (seconds_le.mpr hinterval) hI.1)
    ⟨hst, hreadings, hkeeps⟩
  have hta : budget key limit (seconds start) (seconds stop) fleet =
      limit.burst + (seconds stop - seconds start) * limit.refillPerSec := by
    unfold budget
    rw [hme]
  rw [hta, mul_comm] at hco
  exact hco

end Fleet

/-- One request a second for an address, three at once. -/
def addressLimiter : LayeredLimiter := .new (LayeredLimits.unlimited.withLimit .perIp (.new 1 3))

/-- A request of one address at a reading of the node's clock. -/
def addressCall (node : Bool) (nowEpochMicros : ℤ) : Bool × LayeredCall :=
  (node, { now := 0, nowEpochMicros := nowEpochMicros, identity := { ip := some "10.0.0.1" }, cost := 1 })

/-- The key of that address. -/
def addressKey : BucketKey := (.perIp, .single "10.0.0.1")

/-- Two nodes whose clocks agree. -/
def agreeingNodes : List (Bool × LayeredCall) :=
  [addressCall true 0, addressCall false 0, addressCall true 500000, addressCall false 1000000]

theorem agreeingNodes_share :
    (∀ node, ((fun _ : Bool => addressLimiter) node).limits.get addressKey.1 = some (.new 1 3)) ∧
      (∀ input ∈ agreeingNodes, input.2.identity.Presents addressKey →
        0 ≤ input.2.nowEpochMicros ∧ input.2.nowEpochMicros ≤ 1000000) ∧
      Along (Fleet.admitOn fun _ : Bool => addressLimiter)
        (Fleet.KeepsStamp (fun _ => addressLimiter) addressKey (.new 1 3)) ⟨∅, fun _ => ∅⟩ agreeingNodes ∧
      ((transcript (Fleet.admitOn fun _ : Bool => addressLimiter) ⟨∅, fun _ => ∅⟩ agreeingNodes).map
        (Fleet.spentOn addressKey)).sum ≤ (Limit.new 1 3).burst + (Limit.new 1 3).refillPerSec * (seconds 1000000 - seconds 0) := by
  have hli : ∀ node, ((fun _ : Bool => addressLimiter) node).limits.get addressKey.1 = some (.new 1 3) := fun _ => rfl
  have hre : ∀ input ∈ agreeingNodes, input.2.identity.Presents addressKey →
      0 ≤ input.2.nowEpochMicros ∧ input.2.nowEpochMicros ≤ 1000000 := by decide +kernel
  have hke : Along (Fleet.admitOn fun _ : Bool => addressLimiter)
      (Fleet.KeepsStamp (fun _ => addressLimiter) addressKey (.new 1 3)) ⟨∅, fun _ => ∅⟩ agreeingNodes := by decide +kernel
  exact ⟨hli, hre, hke,
    Fleet.shared_budget (fun _ => addressLimiter) addressKey hli rfl (by decide) hre hke⟩

/-- Two nodes whose clocks differ by a second, and that take turns. -/
def skewedNodes : List (Bool × LayeredCall) :=
  [addressCall true 1000000, addressCall false 0, addressCall true 1000000, addressCall false 0, addressCall true 1000000]

/-- All five requests are admitted, and the bucket has three tokens and a second to refill one: each turn of
the slower clock sets the stamp back, and the faster one refills the second again. -/
theorem skewedNodes_overspend :
    (∀ node, ((fun _ : Bool => addressLimiter) node).limits.get addressKey.1 = some (.new 1 3)) ∧
      (∀ input ∈ skewedNodes, input.2.identity.Presents addressKey →
        0 ≤ input.2.nowEpochMicros ∧ input.2.nowEpochMicros ≤ 1000000) ∧
      ¬ ((transcript (Fleet.admitOn fun _ : Bool => addressLimiter) ⟨∅, fun _ => ∅⟩ skewedNodes).map
        (Fleet.spentOn addressKey)).sum ≤ (Limit.new 1 3).burst + (Limit.new 1 3).refillPerSec * (seconds 1000000 - seconds 0) := by
  decide +kernel

end IronAuth.Quota
