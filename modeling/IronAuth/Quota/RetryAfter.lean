import IronAuth.Quota.Reclaim

/-!
# The wait that a denial advertises

A denial advertises the longest wait among the layers that lack the cost and can be waited out. A
layer that never refills, or whose burst is below the cost, has no wait and takes no part in the
maximum, but it lacks the cost again at the retry: next to it the wait of another layer is no use. Only
a reclamation at the retry can make up for it, when it drops the bucket, which comes back full.

The enforcer answers for the first scope that lacks the cost, and a scope behind it may need longer.

## What is proved

* `honestWait_iff`: the wait of a denial is honest exactly when each layer that lacks the cost refills to
  it in time, or is dropped; and the absence of one, when a layer that lacks the cost stays.
* `mixedLayers_dishonest`: a layer that refills next to one that does not.
* `honestRetry_iff`: when the enforcer's wait is enough at every scope.
* `mixedTiers_dishonest`: a tenant that refills, before an environment that never does.
-/

namespace IronAuth.Quota

open Lib List

variable (call : LayeredCall)

/-- The same request at another time. -/
def LayeredCall.retry (later : ℚ) (order : Store.IterOrder (BucketKey × ℚ)) : LayeredCall :=
  { call with now := later, order := order }

/-- What a request has to be charged. -/
def LayeredCall.price : ℚ := max call.cost 0

namespace LayeredLimiter

variable (limiter : LayeredLimiter) (state : Buckets) (call : LayeredCall) (order : Store.IterOrder (BucketKey × ℚ))
  (later : ℚ) (bucket : BucketKey × Limit)

/-- The tokens that a request finds for a layer. -/
def found : ℚ := level bucket.2 ((limiter.makeRoom call.order state call.now).lookup bucket.1) call.now

/-- The layers that lack the cost. -/
def lacking : List (BucketKey × Limit) :=
  (limiter.applicable call.identity).filter fun bucket => decide (limiter.found state call bucket < call.price)

/-- The wait of a layer, if it can be waited out. -/
def waitOf : Option ℕ :=
  (snapshotFor bucket.2 (limiter.found state call bucket) (limiter.found state call bucket) call.price false).retryAfterSecs

/-- The longest wait of the layers that lack the cost. -/
def longestWait : Option ℕ := ((limiter.lacking state call).filterMap (limiter.waitOf state call)).max?

/-- The local buckets after a denial: those of the request are refilled. -/
def refilled : Buckets :=
  touchAll call.now (limiter.applicable call.identity) (limiter.makeRoom call.order state call.now)

/-- The reclamation of a retry drops the bucket of a layer. -/
def DroppedAt : Prop := (limiter.makeRoom order (limiter.refilled state call) later).lookup bucket.1 = none

/-- A layer has the cost at a retry: its burst has, and it has refilled to it or was dropped. -/
def HasAt : Prop :=
  call.price ≤ bucket.2.burst ∧
    (call.price ≤ limiter.found state call bucket + (later - call.now) * bucket.2.refillPerSec ∨
      limiter.DroppedAt state call order later bucket)

/-- A denial with a wait is followed by an admission after the wait, and one without a wait, unless an
address is missing, by denials. -/
def HonestWait : Prop :=
  ∀ denial, limiter.admitLocal state call = denial → denial.1.decision = .denied →
    (∀ wait : ℕ, denial.1.snapshot.retryAfterSecs = some wait →
      (limiter.admitLocal denial.2 (call.retry (call.now + wait) order)).1.decision = .admitted) ∧
    (denial.1.snapshot.retryAfterSecs = none → denial.1.missingIdentity = false → ∀ later, call.now ≤ later →
      (limiter.admitLocal denial.2 (call.retry later order)).1.decision = .denied)

/-! ### One call -/

theorem lacking_eq_nil_iff : limiter.lacking state call = [] ↔
    ∀ bucket ∈ limiter.applicable call.identity, call.price ≤ limiter.found state call bucket := by
  simp [lacking, filter_eq_nil_iff]

variable {limiter}

/-- A call that is not refused is admitted when no layer lacks the cost, and is else told the longest
wait. -/
theorem admitLocal_cases (h : limiter.refuses call.identity = false) :
    (limiter.lacking state call = [] ∧ (limiter.admitLocal state call).1.decision = .admitted) ∨
      limiter.lacking state call ≠ [] ∧ ∃ outcome, limiter.admitLocal state call = (outcome, limiter.refilled state call) ∧
        outcome.decision = .denied ∧ outcome.snapshot.retryAfterSecs = limiter.longestWait state call ∧
        outcome.missingIdentity = false := by
  obtain ⟨hr, -, hw⟩ := limiter.walkLayers_spec call.identity (fun _ => none) call.now call.nowEpochMicros
    (limiter.makeRoom call.order state call.now)
  obtain ⟨he, hs⟩ := hw h
  simp only [enforcesLocally, filter_true] at hs
  have hf : evaluatedAt (fun _ => none) call.now call.nowEpochMicros (limiter.makeRoom call.order state call.now) =
      fun bucket => ⟨bucket.1, bucket.2, limiter.found state call bucket, .local⟩ := rfl
  simp only [admitLocal, LayerWalk.conclude, hr, h, Bool.false_eq_true, if_false]
  rw [he, hs, hf, limiter.lacking_eq_nil_iff, ← LayeredCall.price]
  cases hd : denier ((limiter.applicable call.identity).map _) call.price with
  | none =>
    refine .inl ⟨fun bucket hb => ?_, rfl⟩
    simpa using List.find?_eq_none.mp hd _ (mem_map_of_mem hb)
  | some l =>
    refine .inr ⟨fun ha => ?_, _, rfl, rfl, ?_, rfl⟩
    · obtain ⟨bucket, hb, rfl⟩ := mem_map.mp (mem_of_find?_eq_some hd)
      have hle := (limiter.lacking_eq_nil_iff state call).mp ha bucket hb
      exact absurd (of_decide_eq_true (List.find?_some hd :)) (not_lt.mpr hle)
    · simp only [deniedOutcome, longestWait, lacking, filter_map, filterMap_map]
      rfl

theorem refused_honest (h : limiter.refuses call.identity = true) : limiter.HonestWait state call order := by
  have hr := (limiter.walkLayers_spec call.identity (fun _ => none) call.now call.nowEpochMicros
    (limiter.makeRoom call.order state call.now)).1.trans h
  rintro d rfl
  simp [admitLocal, LayerWalk.conclude, hr, LayeredOutcome.refusedForMissingIp]

/-! ### The retry -/

variable {state call order later bucket}

/-- A bucket that is not dropped keeps its level. -/
theorem level_of_kept {key : BucketKey} {l : Limit} (hl : limiter.limits.get key.1 = some l) {time : ℚ}
    (ht : ∀ bucket ∈ state.lookup key, bucket.last ≤ time) (hk : (limiter.makeRoom order state time).lookup key ≠ none) :
    level l ((limiter.makeRoom order state time).lookup key) time = level l (state.lookup key) time := by
  have hr := level_revise hl ht (le_refl time)
  unfold makeRoom reclaim at hk ⊢
  dsimp only at hk ⊢
  split_ifs at hk ⊢
  · exact hr
  · rw [Store.lookup_evict] at hk ⊢
    split_ifs at hk ⊢ with hevicted
    · exact absurd rfl hk
    · exact hr
  · rfl

theorem le_found_retry (hb : bucket ∈ limiter.applicable call.identity) (ht : call.now ≤ later) :
    call.price ≤ limiter.found (limiter.refilled state call) (call.retry later order) bucket ↔
      limiter.HasAt state call order later bucket := by
  have hlk : (limiter.refilled state call).lookup bucket.1 = some ⟨limiter.found state call bucket, call.now⟩ :=
    lookup_touchAll_of_mem _ _ nodup_applicable hb
  by_cases hd : limiter.DroppedAt state call order later bucket
  · have hn : (limiter.makeRoom order (limiter.refilled state call) later).lookup bucket.1 = none := hd
    simp [HasAt, hd, found, LayeredCall.retry, hn, level]
  · have hl := level_of_kept (mem_applicable.mp hb).1 (by simpa [hlk] using ht) hd
    rw [HasAt, found, LayeredCall.retry, hl, hlk]
    simp [hd, level, TokenBucket.wait, durationSince_of_le ht, and_comm]

/-- The retry is admitted if each layer that lacked the cost has it then. -/
theorem admitted_retry_iff (h : limiter.refuses call.identity = false) (ht : call.now ≤ later) :
    (limiter.admitLocal (limiter.refilled state call) (call.retry later order)).1.decision = .admitted ↔
      ∀ bucket ∈ limiter.lacking state call, limiter.HasAt state call order later bucket := by
  trans limiter.lacking (limiter.refilled state call) (call.retry later order) = []
  · obtain ⟨hl, hd⟩ | ⟨hl, outcome, heq, hd, -⟩ := admitLocal_cases (limiter.refilled state call) (call.retry later order) h
    · exact iff_of_true hd hl
    · exact iff_of_false (by rw [heq, hd]; decide) hl
  · rw [lacking_eq_nil_iff]
    change (∀ bucket ∈ limiter.applicable call.identity, call.price ≤ _) ↔ _
    simp only [lacking, mem_filter, decide_eq_true_eq, and_imp]
    refine forall₂_congr fun bucket hb => (le_found_retry hb ht).trans ⟨fun hh _ => hh, fun hh => ?_⟩
    rcases lt_or_ge (limiter.found state call bucket) call.price with hlt | hge
    · exact hh hlt
    · have hg := mul_nonneg (sub_nonneg.mpr ht) bucket.2.refill_nonneg
      exact ⟨hge.trans (level_le_burst _ _ _), .inl (by linarith)⟩

/-! ### The wait -/

theorem waitOf_eq_some {wait : ℕ} :
    limiter.waitOf state call bucket = some wait ↔ call.price ≤ bucket.2.burst ∧ 0 < bucket.2.refillPerSec ∧
      f64ToU64Ceil ((call.price - limiter.found state call bucket) / bucket.2.refillPerSec) = wait := by
  simp only [waitOf, snapshotFor, Bool.false_eq_true, if_false]
  split_ifs <;> simp_all

theorem f64ToU64Ceil_le (x : ℚ) : (f64ToU64Ceil x : ℚ) ≤ u64Max := by
  simp [f64ToU64Ceil]

theorem le_f64ToU64Ceil {x : ℚ} (hx : x ≤ u64Max) : x ≤ f64ToU64Ceil x := by
  have hle : max x 0 ≤ (⌈max x 0⌉ : ℚ) := Int.le_ceil _
  rw [← Int.toNat_of_nonneg (Int.ceil_nonneg (le_max_right x 0))] at hle
  have hc : x ≤ (⌈max x 0⌉.toNat : ℚ) := (le_max_left x 0).trans (mod_cast hle)
  simp [f64ToU64Ceil, hc, hx]

/-- A layer that can be waited out makes the denial advertise a wait, no shorter than its own. -/
theorem exists_longestWait (hb : bucket ∈ limiter.lacking state call) (hu : call.price ≤ bucket.2.burst)
    (hp : 0 < bucket.2.refillPerSec) :
    ∃ wait, limiter.longestWait state call = some wait ∧
      f64ToU64Ceil ((call.price - limiter.found state call bucket) / bucket.2.refillPerSec) ≤ wait := by
  have ho : limiter.waitOf state call bucket = some _ := waitOf_eq_some.mpr ⟨hu, hp, rfl⟩
  have hm := mem_filterMap.mpr ⟨bucket, hb, ho⟩
  cases h : limiter.longestWait state call with
  | none =>
    rw [List.max?_eq_none_iff.mp h] at hm
    cases hm
  | some wait => exact ⟨wait, rfl, (List.max?_eq_some_iff.mp h).2 _ hm⟩

/-- After the advertised wait a layer has refilled to the cost, unless the seconds do not fit `u64`. -/
theorem le_after_wait_iff {w : ℕ} (hw : limiter.longestWait state call = some w)
    (hb : bucket ∈ limiter.lacking state call) (hu : call.price ≤ bucket.2.burst) :
    call.price ≤ limiter.found state call bucket + w * bucket.2.refillPerSec ↔
      call.price - limiter.found state call bucket ≤ u64Max * bucket.2.refillPerSec := by
  have hr0 := bucket.2.refill_nonneg
  have hlt := of_decide_eq_true (mem_filter.mp hb).2
  obtain ⟨other, -, ho⟩ := mem_filterMap.mp (List.max?_eq_some_iff.mp hw).1
  have hm : (w : ℚ) ≤ u64Max := (waitOf_eq_some.mp ho).2.2 ▸ f64ToU64Ceil_le _
  rw [← sub_le_iff_le_add']
  refine ⟨fun hle => hle.trans (mul_le_mul_of_nonneg_right hm hr0), fun hle => ?_⟩
  have hp : 0 < bucket.2.refillPerSec := by
    by_contra hnp
    rw [le_antisymm (not_lt.mp hnp) hr0] at hle
    linarith
  obtain ⟨l, hl, how⟩ := exists_longestWait hb hu hp
  obtain rfl := Option.some.inj (hw.symm.trans hl)
  have hc := le_f64ToU64Ceil ((div_le_iff₀ hp).mpr hle)
  exact (div_le_iff₀ hp).mp (hc.trans (mod_cast how))

/-- Without a wait, a layer whose burst covers the cost does not refill to it. -/
theorem not_le_of_no_wait (hw : limiter.longestWait state call = none) (hb : bucket ∈ limiter.lacking state call)
    (hu : call.price ≤ bucket.2.burst) :
    ¬ call.price ≤ limiter.found state call bucket + (later - call.now) * bucket.2.refillPerSec := by
  have hlt := of_decide_eq_true (mem_filter.mp hb).2
  have hz : ¬ 0 < bucket.2.refillPerSec := by
    intro hp
    obtain ⟨wait, hwa, -⟩ := exists_longestWait hb hu hp
    cases hw.symm.trans hwa
  rw [le_antisymm (not_lt.mp hz) bucket.2.refill_nonneg]
  linarith

/-- **When the advertised wait is honest.** After the wait that a denial advertises the request is
admitted, and after a denial without one it is denied for good, exactly when: with a wait, the burst of
each layer that lacks the cost covers it, and the layer refills to it in a number of seconds that fits
`u64`, or is dropped at the retry; and without one, a layer that lacks the cost has a smaller burst, or is
not dropped, at each time. -/
theorem honestWait_iff (limiter : LayeredLimiter) (state : Buckets) (call : LayeredCall)
    (order : Store.IterOrder (BucketKey × ℚ)) :
    limiter.HonestWait state call order ↔ (limiter.refuses call.identity = false →
      (∀ wait, limiter.longestWait state call = some wait → ∀ bucket ∈ limiter.lacking state call,
        call.price ≤ bucket.2.burst ∧
          (call.price - limiter.found state call bucket ≤ u64Max * bucket.2.refillPerSec ∨
            limiter.DroppedAt state call order (call.now + wait) bucket)) ∧
      (limiter.longestWait state call = none → limiter.lacking state call ≠ [] → ∀ later, call.now ≤ later →
        ∃ bucket ∈ limiter.lacking state call,
          bucket.2.burst < call.price ∨ ¬ limiter.DroppedAt state call order later bucket)) := by
  cases hr : limiter.refuses call.identity with
  | true => simp [refused_honest state call order hr]
  | false =>
    refine Iff.trans ?_ (forall_prop_of_true rfl).symm
    rw [HonestWait, forall_eq']
    obtain ⟨hl, hd⟩ | ⟨hl, outcome, heq, hd, hw, hm⟩ := admitLocal_cases state call hr
    · simp [hd, hl, longestWait]
    rw [heq, hd, hw, hm]
    simp only [forall_const, hl, ne_eq, not_false_eq_true]
    refine and_congr (forall₂_congr fun wait hwa => ?_) (forall₂_congr fun hno later => forall_congr' fun ht => ?_)
    · rw [admitted_retry_iff hr (by simp)]
      refine forall₂_congr fun bucket hb => and_congr_right fun hbu => or_congr_left ?_
      rw [add_sub_cancel_left, le_after_wait_iff hwa hb hbu]
    · have hden : ∀ decision : Decision, decision = .denied ↔ ¬ decision = .admitted := by rintro (_ | _) <;> simp
      rw [hden, admitted_retry_iff hr ht]
      simp only [not_forall, exists_prop]
      refine exists_congr fun bucket => and_congr_right fun hb => ?_
      rcases lt_or_ge bucket.2.burst call.price with hsm | hla
      · simp [HasAt, hsm, not_le.mpr hsm]
      · simp [HasAt, hla, not_lt.mpr hla, not_le_of_no_wait hno hb hla]

end LayeredLimiter

/-- One request a second for an address, and one in all for a tenant. -/
def mixedLayers : LayeredLimiter :=
  .new ((LayeredLimits.unlimited.withLimit .perIp (.new 1 1)).withLimit .perTenant (.new 0 1))

/-- A request of a tenant from an address. -/
def mixedCall : LayeredCall := { now := 0, identity := { ip := some "10.0.0.1", tenant := some "acme" }, cost := 1 }

/-- **The wait of the address is advertised, and the tenant denies after it.** -/
theorem mixedLayers_dishonest :
    ¬ mixedLayers.HonestWait (mixedLayers.admitLocal ∅ mixedCall).2 mixedCall (.stored _) := by
  intro h
  have had := (h _ rfl (by decide +kernel)).1 1 (by decide +kernel)
  revert had
  decide +kernel

/-! ### The enforcer -/

namespace QuotaEnforcer

variable (q : QuotaEnforcer) (state : State) (scope : Scope) (dimension : QuotaDimension) (cost now : ℚ)

/-- The first bucket of the path that lacks the cost. -/
def firstLacking : Option Eval :=
  (q.evals (q.sweep state now) scope.path dimension (max cost 0) now).find? fun eval => !eval.hasCapacity

/-- The whole seconds in which a bucket that lacks the cost refills to it, at least one. -/
def secondsFor (eval : Eval) : ℕ := max (f64ToU64Ceil ((0 - eval.tokensAfter) / eval.limit.refillPerSec)) 1

/-- A spend that is told to wait is admitted after the wait. -/
def HonestRetry : Prop :=
  ∀ wait, (q.admitSpend state scope dimension cost now).1.snapshot.retryAfterSecs = some wait →
    (q.admitSpend (q.admitSpend state scope dimension cost now).2 scope dimension cost (now + wait)).1.decision = .admitted

/-- The sweep with which a retry begins drops the bucket of a scope. -/
def ReapedAt (later : ℚ) (s : Scope) : Prop :=
  (q.sweep (q.admitSpend state scope dimension cost now).2 later).meter? s dimension = none

variable {q state scope dimension cost now}

theorem firstLacking_eq_none_iff : q.firstLacking state scope dimension cost now = none ↔
    q.affords (q.sweep state now) scope dimension (max cost 0) now = true := by
  simp [firstLacking, affords]

/-- When a wait is advertised, and which. -/
theorem retryAfterSecs_eq_some_iff {wait : ℕ} :
    (q.admitSpend state scope dimension cost now).1.snapshot.retryAfterSecs = some wait ↔
      ∃ first, q.firstLacking state scope dimension cost now = some first ∧ 0 < first.limit.refillPerSec ∧
        max cost 0 ≤ first.limit.burst ∧ secondsFor first = wait := by
  rw [admitSpend_snapshot]
  cases hf : q.firstLacking state scope dimension cost now with
  | none =>
    rw [firstLacking_eq_none_iff.mp hf, bindingSnapshot]
    split <;> simp [RateLimitSnapshot.unlimited]
  | some first =>
    have hd : q.affords (q.sweep state now) scope dimension (max cost 0) now = false := by
      rw [← Bool.not_eq_true, ← firstLacking_eq_none_iff, hf]
      simp
    have hfind := hf
    rw [firstLacking] at hfind
    have hlack := List.find?_some hfind
    obtain ⟨s, -, hs⟩ := mem_filterMap.mp (List.mem_of_find?_eq_some hfind)
    obtain ⟨limit, -, rfl⟩ := Option.map_eq_some_iff.mp hs
    have hlt : level limit ((q.sweep state now).meter? s dimension) now < max cost 0 := by
      simpa [evalAt] using hlack
    have hpos : 0 < max cost 0 - level limit ((q.sweep state now).meter? s dimension) now := sub_pos.mpr hlt
    rw [hd, bindingSnapshot, hfind]
    generalize max cost 0 = price at hpos ⊢
    simp only [Bool.false_eq_true, if_false, Option.some_or, retryAfter, evalAt, secondsFor, sub_sub_cancel, zero_sub, neg_sub,
      max_eq_left hpos.le, secondsToRefill, not_le.mpr hpos, false_or, Option.some.injEq, exists_eq_left']
    rcases le_or_gt limit.refillPerSec 0 with hr | hr
    · simp [hr, not_lt.mpr hr]
    · rcases lt_or_ge limit.burst price with hb | hb
      · simp [hb, not_le.mpr hb]
      · simp [hr, hb, not_le.mpr hr, not_lt.mpr hb]

/-- A retry after a denial is admitted if the bucket of each limited scope has been dropped, or has refilled. -/
theorem retry_admitted_iff (h : q.affords (q.sweep state now) scope dimension (max cost 0) now = false) (w : ℕ) :
    (q.admitSpend (q.admitSpend state scope dimension cost now).2 scope dimension cost (now + w)).1.decision = .admitted ↔
      ∀ s ∈ scope.path, ∀ limit, q.scopeLimit state s dimension = some limit → max cost 0 ≤ limit.burst ∧
        (q.ReapedAt state scope dimension cost now (now + w) s ∨
          max cost 0 - level limit ((q.sweep state now).meter? s dimension) now ≤ w * limit.refillPerSec) := by
  obtain ⟨hov, hmt⟩ := admitSpend_overrides_meter? q state scope dimension cost now
  have hdec : ∀ b : Bool, (if b = true then Decision.admitted else .denied) = .admitted ↔ b = true := by decide
  rw [admitSpend_decision, hdec, affords_iff]
  refine forall₂_congr fun s hs => forall_congr' fun limit => ?_
  rw [scopeLimit_congr (overrides_sweep.trans hov)]
  refine forall_congr' fun hl => ?_
  have hm : (q.admitSpend state scope dimension cost now).2.meter? s dimension =
      some ⟨level limit ((q.sweep state now).meter? s dimension) now, now⟩ := by
    rw [hmt, if_pos ⟨hs, rfl⟩, hl, h]
    simp
  have hkept : (q.sweep (q.admitSpend state scope dimension cost now).2 (now + w)).meter? s dimension = none ∨
      (q.sweep (q.admitSpend state scope dimension cost now).2 (now + w)).meter? s dimension =
        some ⟨level limit ((q.sweep state now).meter? s dimension) now, now⟩ := by
    cases hk : (q.sweep (q.admitSpend state scope dimension cost now).2 (now + w)).meter? s dimension with
    | none => exact .inl rfl
    | some meter =>
      obtain heq | heq : _ ∨ q.sweep (q.admitSpend state scope dimension cost now).2 (now + w) = _ := sweep_eq_or
      · rw [heq, hm] at hk
        exact .inr hk.symm
      · rw [heq] at hk
        exact .inr ((meter?_of_reapIdleBuckets hk).symm.trans hm)
  unfold ReapedAt
  rcases hkept with hk | hk
  · simp [hk, level]
  · rw [hk]
    simp [level, TokenBucket.wait, durationSince, and_comm, add_comm]

/-- **When the advertised wait is honest**: if the first bucket without the cost can be waited out, every limited
bucket of the path can hold the cost, and by then it has been dropped or has refilled to it. -/
theorem honestRetry_iff (q : QuotaEnforcer) (state : State) (scope : Scope) (dimension : QuotaDimension) (cost now : ℚ) :
    q.HonestRetry state scope dimension cost now ↔
      ∀ first, q.firstLacking state scope dimension cost now = some first → 0 < first.limit.refillPerSec →
        max cost 0 ≤ first.limit.burst → ∀ s ∈ scope.path, ∀ limit, q.scopeLimit state s dimension = some limit →
          max cost 0 ≤ limit.burst ∧
            (q.ReapedAt state scope dimension cost now (now + secondsFor first) s ∨
              max cost 0 - level limit ((q.sweep state now).meter? s dimension) now ≤
                secondsFor first * limit.refillPerSec) := by
  have hd : ∀ first, q.firstLacking state scope dimension cost now = some first →
      q.affords (q.sweep state now) scope dimension (max cost 0) now = false := by
    intro first hf
    rw [← Bool.not_eq_true, ← firstLacking_eq_none_iff, hf]
    simp
  constructor
  · intro h first hf hr hb
    exact (retry_admitted_iff (hd first hf) _).mp (h _ (retryAfterSecs_eq_some_iff.mpr ⟨first, hf, hr, hb, rfl⟩))
  · intro h wait hw
    obtain ⟨first, hf, hr, hb, rfl⟩ := retryAfterSecs_eq_some_iff.mp hw
    exact (retry_admitted_iff (hd first hf) _).mpr (h first hf hr hb)

end QuotaEnforcer

/-- One request a second for a tenant, and one in all for each of its environments. -/
def mixedTiers : QuotaEnforcer := ⟨⟨{ requests := some (.new 1 1) }, { requests := some (.new 0 1) }⟩, [], none⟩

/-- **The wait of the tenant is advertised, and the environment denies after it.** -/
theorem mixedTiers_dishonest : ¬ mixedTiers.HonestRetry
    (mixedTiers.admitSpend (.initial 0) (.environment "acme" "prod") .requests 1 0).2 (.environment "acme" "prod")
      .requests 1 0 := by
  intro h
  have := h 1 (by decide +kernel)
  revert this
  decide +kernel

end IronAuth.Quota
