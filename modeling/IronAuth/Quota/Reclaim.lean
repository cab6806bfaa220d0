import IronAuth.Quota.LayerWalk

/-!
# Reclamation and the tenant ceiling

A limiter that reclaims drops the fullest buckets, by the tokens they hold and not by the
share of their burst. A wide bucket in deficit can hold more tokens than every narrow
one, and is then the first to go: it comes back full, and its tenant starts over.

The bucket of a tenant keeps its deficit through an admission exactly as long as
`KeepsDeficit` says. In a run whose admissions all do, the tenant is admitted no more
than its limit allows.
-/

namespace IronAuth.Quota

open Lib Lib.Machine List

/-! ### Reclaiming -/

/-- The tokens of the buckets that are in deficit now. -/
def deficits (limits : LayeredLimits) (now : ℚ) (state : Buckets) : List ℚ :=
  state.entries.filterMap fun entry => (refillOrDrop limits now entry.1 entry.2).map Meter.tokens

theorem map_tokens_revise (l : LayeredLimits) (now : ℚ) (state : Buckets) :
    (Store.revise (refillOrDrop l now) state).entries.map (fun entry => entry.2.tokens) = deficits l now state := by
  unfold Store.revise deficits
  rw [map_filterMap]
  refine filterMap_congr fun entry _ => ?_
  rw [Store.reviseEntry, Option.map_map]
  rfl

theorem size_revise (l : LayeredLimits) (now : ℚ) (state : Buckets) :
    Store.size (Store.revise (refillOrDrop l now) state) = (deficits l now state).length := by
  rw [← map_tokens_revise, length_map, Store.size, AList.keys, List.keys, length_map]

variable {l : LayeredLimits} {key : BucketKey} {limit : Limit}

/-- A bucket in deficit is kept as it stands; a full one is dropped. -/
theorem refillOrDrop_eq (hl : l.get key.1 = some limit)
    (now : ℚ) (bkt : LayerBucket) :
    refillOrDrop l now key bkt =
      if level limit (some bkt) now < limit.burst then some ⟨level limit (some bkt) now, now⟩ else none := by
  rw [refillOrDrop, hl]
  rfl

/-- Dropping full buckets and refilling the others changes no level. -/
theorem level_revise (hli : l.get key.1 = some limit)
    {now time : ℚ} {state : Buckets} (hl : ∀ bkt ∈ state.lookup key, bkt.last ≤ now) (ht : now ≤ time) :
    level limit ((Store.revise (refillOrDrop l now) state).lookup key) time = level limit (state.lookup key) time := by
  have hg := mul_nonneg (sub_nonneg.mpr ht) limit.refill_nonneg
  rw [Store.lookup_revise]
  cases hbk : state.lookup key with
  | none => rfl
  | some bkt =>
    rw [hbk] at hl
    rw [Option.bind_some, refillOrDrop_eq hli, ← level_level hl ht]
    split
    · rw [level, durationSince_of_le ht]
    · rename_i hf
      rw [le_antisymm (level_le_burst limit _ now) (not_lt.mp hf), TokenBucket.wait_burst hg]
      rfl

namespace LayeredLimiter

variable (limiter : LayeredLimiter)

/-- An admission now spares the deficit of a bucket: it does not reclaim, or not beyond full buckets, or
the bucket has no deficit, or enough buckets in deficit hold more tokens to be dropped in its place. -/
def KeepsDeficit (key : BucketKey) (limit : Limit) (state : Buckets) (now : ℚ) : Prop :=
  Store.size state < limiter.maxBuckets ∨
    (deficits limiter.limits now state).length ≤ reclaimTarget limiter.maxBuckets ∨
    limit.burst ≤ level limit (state.lookup key) now ∨
    (deficits limiter.limits now state).length - reclaimTarget limiter.maxBuckets ≤
      (deficits limiter.limits now state).countP fun tokens => decide (level limit (state.lookup key) now < tokens)

instance (key : BucketKey) (limit : Limit) (state : Buckets) (now : ℚ) :
    Decidable (limiter.KeepsDeficit key limit state now) := by
  unfold KeepsDeficit
  infer_instance

variable {limiter}

variable {key : BucketKey} {limit : Limit} {state : Buckets}

variable {now : ℚ}

/-- A bucket that is evicted was in deficit, and too few others hold more. -/
theorem countP_lt_of_evicted {l : LayeredLimits} (hl : l.get key.1 = some limit)
    {o : Store.IterOrder (BucketKey × ℚ)} {n : ℕ}
    (h : key ∈ ((Store.heaviest o Meter.tokens (Store.revise (refillOrDrop l now) state)).take n).map Prod.fst) :
    level limit (state.lookup key) now < limit.burst ∧
      (deficits l now state).countP (fun tokens => decide (level limit (state.lookup key) now < tokens)) < n := by
  have hk : key ∈ Store.revise (refillOrDrop l now) state := by
    rw [AList.mem_keys, ← (Store.keys_heaviest o Meter.tokens _).mem_iff]
    exact (take_sublist n _).map Prod.fst |>.subset h
  obtain ⟨kept, hlk⟩ := Option.isSome_iff_exists.mp (AList.lookup_isSome.mpr hk)
  obtain ⟨bkt, hbk, hr⟩ := Option.bind_eq_some_iff.mp ((Store.lookup_revise _ _ _).symm.trans hlk)
  rw [refillOrDrop_eq hl] at hr
  split at hr
  · rename_i hd
    rw [hbk]
    refine ⟨hd, not_le.mp fun hm => Store.notMem_heaviest o hlk ?_ h⟩
    rw [← map_tokens_revise, countP_map] at hm
    rw [← Option.some.inj hr]
    exact hm
  · cases hr

/-- Making room keeps the level of a bucket whose deficit is spared. -/
theorem level_makeRoom (hli : limiter.limits.get key.1 = some limit) (o : Store.IterOrder (BucketKey × ℚ))
    {time : ℚ} (hl : ∀ bkt ∈ state.lookup key, bkt.last ≤ now)
    (hkp : limiter.KeepsDeficit key limit state now) (ht : now ≤ time) :
    level limit ((limiter.makeRoom o state now).lookup key) time = level limit (state.lookup key) time := by
  have hre := level_revise hli hl ht
  unfold makeRoom
  split
  · rename_i hc
    unfold reclaim
    dsimp only
    split
    · exact hre
    · rename_i hm
      rw [size_revise] at hm
      rw [Store.lookup_evict]
      split
      · rename_i he
        obtain ⟨hd, hfe⟩ := countP_lt_of_evicted hli he
        rcases hkp with hr | hf | hfu | hen
        · exact absurd hc (not_le.mpr hr)
        · exact absurd hf hm
        · exact absurd hfu (not_le.mpr hd)
        · rw [size_revise] at hfe
          exact absurd hen (not_le.mpr hfe)
      · exact hre
  · rfl

theorem last_makeRoom (o : Store.IterOrder (BucketKey × ℚ))
    (hl : ∀ bkt ∈ state.lookup key, bkt.last ≤ now) :
    ∀ bkt ∈ (limiter.makeRoom o state now).lookup key, bkt.last ≤ now := by
  have hr : ∀ bkt ∈ (Store.revise (refillOrDrop limiter.limits now) state).lookup key, bkt.last ≤ now := by
    intro bkt hbk
    rw [Store.lookup_revise, Option.mem_def] at hbk
    obtain ⟨old, -, ho⟩ := Option.bind_eq_some_iff.mp hbk
    unfold refillOrDrop at ho
    split at ho
    · cases ho
    · dsimp only at ho
      split at ho
      · rw [← Option.some.inj ho]
        exact le_refl _
      · cases ho
  unfold makeRoom
  split
  · unfold reclaim
    dsimp only
    split
    · exact hr
    · intro bkt hbk
      rw [Store.lookup_evict] at hbk
      split at hbk
      · cases hbk
      · exact hr bkt hbk
  · exact hl

/-- The deficit of a bucket is spared in every order of the iteration exactly when `KeepsDeficit` says so. -/
theorem keepsDeficit_iff (hli : limiter.limits.get key.1 = some limit)
    (hl : ∀ bkt ∈ state.lookup key, bkt.last ≤ now) :
    (∀ order t, now ≤ t →
        level limit ((limiter.makeRoom order state now).lookup key) t = level limit (state.lookup key) t) ↔
      limiter.KeepsDeficit key limit state now := by
  refine ⟨fun hs => ?_, fun hkp order t ht => level_makeRoom hli order hl hkp ht⟩
  by_contra hd
  unfold KeepsDeficit at hd
  rw [not_or, not_or, not_or, not_lt, not_le, not_le, not_le] at hd
  obtain ⟨hc, hm, hde, hf⟩ := hd
  -- the bucket is live and in deficit, so it is kept by the first pass
  cases hbk : state.lookup key with
  | none =>
    rw [hbk] at hde
    exact absurd hde (lt_irrefl _)
  | some bkt =>
    rw [hbk] at hde hf
    have hk : (Store.revise (refillOrDrop limiter.limits now) state).lookup key =
        some ⟨level limit (some bkt) now, now⟩ := by
      rw [Store.lookup_revise, hbk, Option.bind_some, refillOrDrop_eq hli, if_pos hde]
    rw [← map_tokens_revise, countP_map, map_tokens_revise, ← size_revise] at hf
    obtain ⟨order, he⟩ := Store.exists_order_mem_heaviest Meter.tokens hk hf
    -- and evicted by the second, if ties are broken against it
    have hg : (limiter.makeRoom order state now).lookup key = none := by
      rw [makeRoom, if_pos hc, reclaim, if_neg (by rw [size_revise]; exact not_le.mpr hm), Store.lookup_evict,
        if_pos he]
    have hle := hs order now (le_refl _)
    rw [hg, hbk] at hle
    exact absurd hde (hle ▸ lt_irrefl _)

/-! ### A local admission -/

/-- The walk of a local admission touches the bucket of each layer that applies. -/
theorem lookup_walkLayers (hl : limiter.limits.get key.1 = some limit) (identity : RequestIdentity) (now : ℚ)
    (n : ℤ) (r : Buckets) :
    (limiter.walkLayers identity (fun _ => none) now n r).state.lookup key =
      if limiter.refuses identity = false ∧ identity.keyFor key.1 = some key.2 then
        some ⟨level limit (r.lookup key) now, now⟩
      else r.lookup key := by
  obtain ⟨-, hr, hw⟩ := limiter.walkLayers_spec identity (fun _ => none) now n r
  cases hrf : limiter.refuses identity with
  | true => simp [hr hrf]
  | false =>
    have ha : ((limiter.applicable identity).filter fun _ => enforcesLocally none) = limiter.applicable identity :=
      filter_eq_self.mpr fun _ _ => rfl
    rw [(hw hrf).2, ha]
    by_cases hk : identity.keyFor key.1 = some key.2
    · rw [if_pos ⟨rfl, hk⟩]
      exact lookup_touchAll_of_mem now r nodup_applicable (mem_applicable.mpr ⟨hl, hk⟩)
    · rw [if_neg fun hin => hk hin.2]
      refine lookup_touchAll_of_notMem now r fun hm => hk ?_
      obtain ⟨bkt, hbk, rfl⟩ := mem_map.mp hm
      exact (mem_applicable.mp hbk).2

/-- An admission charges the bucket of each layer that applies, and only those. -/
theorem lookup_charged (hl : limiter.limits.get key.1 = some limit) (idt : RequestIdentity)
    (hr : limiter.refuses idt = false) (c now : ℚ) (n : ℤ) (r : Buckets) :
    let walk := limiter.walkLayers idt (fun _ => none) now n r
    (walk.evaluated.foldl (chargeLocal c) walk.state).lookup key =
      if idt.keyFor key.1 = some key.2 then some ⟨level limit (r.lookup key) now - c, now⟩
      else r.lookup key := by
  intro walk
  have hlk : walk.state.lookup key = _ := lookup_walkLayers hl idt now n r
  have he := ((limiter.walkLayers_spec idt (fun _ => none) now n r).2.2 hr).1
  have hk : walk.evaluated.map Evaluated.key = (limiter.applicable idt).map Prod.fst := by
    rw [he, map_map]
    exact map_congr_left fun bkt _ => evaluatedAt_key _ _ _ _ bkt
  split
  · rename_i hke
    rw [if_pos ⟨hr, hke⟩] at hlk
    have hm : evaluatedAt (fun _ => none) now n r (key, limit) ∈ walk.evaluated := by
      rw [he]
      exact mem_map_of_mem (mem_applicable.mpr ⟨hl, hke⟩)
    have hnd : (walk.evaluated.map Evaluated.key).Nodup := hk ▸ nodup_applicable
    refine (lookup_foldl_chargeLocal c walk.state hnd hm rfl).trans ?_
    rw [evaluatedAt_key, hlk]
    rfl
  · rename_i hke
    rw [if_neg fun hin => hke hin.2] at hlk
    refine (Store.lookup_foldl_of_notMem (fun s _ _ => lookup_chargeLocal_of_ne c s) walk.state fun hm => hke ?_).trans hlk
    rw [hk] at hm
    obtain ⟨bkt, hbk, rfl⟩ := mem_map.mp hm
    exact (mem_applicable.mp hbk).2

/-- What an admission charges to a bucket. -/
def chargedTo (key : BucketKey) (entry : LayeredCall × LayeredOutcome) : Option ℚ :=
  if entry.2.decision = .admitted ∧ entry.1.identity.keyFor key.1 = some key.2 then some (max entry.1.cost 0) else none

/-- A local admission draws its cost from each bucket it is charged to, and leaves every other level alone. -/
theorem draws_admitLocal (hli : limiter.limits.get key.1 = some limit) {c : LayeredCall}
    (hl : ∀ bkt ∈ state.lookup key, bkt.last ≤ c.now)
    (hkp : limiter.KeepsDeficit key limit state c.now) :
    TokenBucket.Draws limit.burst limit.refillPerSec c.now (chargedTo key (c, (limiter.admitLocal state c).1))
        (level limit (state.lookup key)) (level limit ((limiter.admitLocal state c).2.lookup key)) ∧
      ∀ bkt ∈ (limiter.admitLocal state c).2.lookup key, bkt.last ≤ c.now := by
  have hr : ∀ time, c.now ≤ time →
      level limit ((limiter.makeRoom c.order state c.now).lookup key) time = level limit (state.lookup key) time :=
    fun time ht => level_makeRoom hli c.order hl hkp ht
  have hl2 : ∀ bkt ∈ (limiter.makeRoom c.order state c.now).lookup key, bkt.last ≤ c.now :=
    last_makeRoom c.order hl
  unfold admitLocal
  generalize limiter.makeRoom c.order state c.now = room at hr hl2 ⊢
  have hlk := lookup_walkLayers hli c.identity c.now c.nowEpochMicros room
  obtain ⟨hre, -, hw⟩ := limiter.walkLayers_spec c.identity (fun _ => none) c.now c.nowEpochMicros room
  have hch := fun hrf => lookup_charged hli c.identity hrf (max c.cost 0) c.now
    c.nowEpochMicros room
  generalize limiter.walkLayers c.identity (fun _ => none) c.now c.nowEpochMicros room = walk at *
  rcases walk.conclude_cases (max c.cost 0) false false with ⟨hd, hst⟩ | ⟨hd, ha, hc, hst⟩
  · -- denied: buckets are at most refilled
    rw [hst, hlk, chargedTo, if_neg (by simp [hd])]
    split
    · refine ⟨fun time ht => ?_, fun bkt hbk => le_of_eq (Option.some.inj hbk ▸ rfl)⟩
      rw [level, durationSince_of_le ht, level_level hl2 ht, hr time ht]
    · exact ⟨hr, hl2⟩
  · have hrf : limiter.refuses c.identity = false := hre.symm.trans ha
    rw [hst, hch hrf, chargedTo]
    by_cases hk : c.identity.keyFor key.1 = some key.2
    · have hm : evaluatedAt (fun _ => none) c.now c.nowEpochMicros room (key, limit) ∈ walk.evaluated := by
        rw [(hw hrf).1]
        exact mem_map_of_mem (mem_applicable.mpr ⟨hli, hk⟩)
      have hle : max c.cost 0 ≤ level limit (room.lookup key) c.now := hc _ hm
      rw [if_pos hk, if_pos ⟨hd, hk⟩]
      refine ⟨⟨hr c.now (le_refl _) ▸ hle, fun time ht => ?_⟩,
        fun bkt hbk => le_of_eq (Option.some.inj hbk ▸ rfl)⟩
      rw [level, durationSince_of_le ht, hr c.now (le_refl _)]
    · rw [if_neg hk, if_neg fun hin => hk hin.2]
      exact ⟨hr, hl2⟩

/-! ### Runs -/

/-- **The tenant ceiling.** In every local run whose admissions all spare the deficit of a tenant's bucket,
the tenant is admitted in a window of length `d` at most its burst and what it refills in that time. -/
theorem tenant_ceiling (limiter : LayeredLimiter) (tenant : String) {limit : Limit}
    (hlimit : limiter.limits.get .perTenant = some limit) {calls : List LayeredCall}
    (hclock : calls.Pairwise fun c1 c2 => c1.now ≤ c2.now) (hlocal : ∀ call ∈ calls, call.store.isNone = true)
    (hspares : Along limiter.admitRequest
      (fun state call => limiter.KeepsDeficit (.perTenant, .single tenant) limit state call.now) ∅ calls)
    (a : ℚ) {d : ℚ} (hd : 0 ≤ d) :
    TokenBucket.drawn a (a + d) (TokenBucket.draws LayeredCall.now (chargedTo (.perTenant, .single tenant))
      (transcript limiter.admitRequest ∅ calls)) ≤ limit.burst + limit.refillPerSec * d := by
  let key : BucketKey := (.perTenant, .single tenant)
  -- the invariant: the rest of the run is local and spares the bucket, which was last touched in the past
  let I := fun (state : Buckets) (cl : List LayeredCall) =>
    (∀ call ∈ cl, call.store.isNone = true) ∧ cl.Pairwise (fun c1 c2 => c1.now ≤ c2.now) ∧
      (∀ call ∈ cl, ∀ bkt ∈ state.lookup key, bkt.last ≤ call.now) ∧
      Along limiter.admitRequest (fun state call => limiter.KeepsDeficit key limit state call.now) state cl
  have hs : ∀ state call cl, I state (call :: cl) →
      TokenBucket.Draws limit.burst limit.refillPerSec call.now
          (chargedTo key (call, (limiter.admitRequest state call).1)) (level limit (state.lookup key))
          (level limit ((limiter.admitRequest state call).2.lookup key)) ∧
        ∀ bkt ∈ (limiter.admitRequest state call).2.lookup key, bkt.last ≤ call.now := by
    intro state call cl hI
    have hal : limiter.admitRequest state call = limiter.admitLocal state call := by
      rw [admitRequest, Option.isNone_iff_eq_none.mp (hI.1 call mem_cons_self)]
    rw [hal]
    exact draws_admitLocal hlimit (hI.2.2.1 call mem_cons_self) hI.2.2.2.1
  refine (TokenBucket.drawn_draws_le limit.burst_nonneg limit.refill_nonneg (I := I) ?_
    (fun state call cl hI => (hs state call cl hI).1) ⟨hlocal, hclock, fun _ _ bkt hbk => ?_, hspares⟩ hclock
    (fun _ => rfl) (le_add_of_nonneg_right hd)).trans_eq ?_
  · intro state call cl hI
    obtain ⟨hla, hcl⟩ := pairwise_cons.mp hI.2.1
    exact ⟨fun c hc => hI.1 c (mem_cons_of_mem _ hc), hcl,
      fun c hc bkt hbk => ((hs state call cl hI).2 bkt hbk).trans (hla c hc), hI.2.2.2.2⟩
  · cases hbk
  · rw [add_sub_cancel_left, mul_comm]

end LayeredLimiter

/-- A ceiling of eight buckets, ten requests for a tenant and `perAddress` for an address; nothing refills. -/
def smallCeiling (perAddress : ℚ) : LayeredLimiter :=
  (LayeredLimiter.new ((LayeredLimits.unlimited.withLimit .perIp (.new 0 perAddress)).withLimit .perTenant
    (.new 0 10))).withMaxBuckets 8

/-- Eleven requests of one tenant, each from an address of its own. -/
def addressFlood : List LayeredCall :=
  ["10.0.0.1", "10.0.0.2", "10.0.0.3", "10.0.0.4", "10.0.0.5", "10.0.0.6", "10.0.0.7", "10.0.0.8", "10.0.0.9",
    "10.0.0.10", "10.0.0.11"].map fun ip => { now := 0, identity := { ip := some ip, tenant := some "acme" }, cost := 1 }

theorem addressFlood_held :
    addressFlood.Pairwise (fun c1 c2 => c1.now ≤ c2.now) ∧ (∀ call ∈ addressFlood, call.store.isNone = true) ∧
      Along (smallCeiling 5).admitRequest
        (fun state call => (smallCeiling 5).KeepsDeficit (.perTenant, .single "acme") (.new 0 10) state call.now) ∅ addressFlood ∧
      TokenBucket.drawn 0 (0 + 1) (TokenBucket.draws LayeredCall.now
        (LayeredLimiter.chargedTo (.perTenant, .single "acme")) (transcript (smallCeiling 5).admitRequest ∅ addressFlood)) ≤
        (Limit.new 0 10).burst + (Limit.new 0 10).refillPerSec * 1 := by
  have hcl : addressFlood.Pairwise (fun c1 c2 => c1.now ≤ c2.now) := by decide +kernel
  have hlo : ∀ call ∈ addressFlood, call.store.isNone = true := by decide +kernel
  have hsp : Along (smallCeiling 5).admitRequest
      (fun state call => (smallCeiling 5).KeepsDeficit (.perTenant, .single "acme") (.new 0 10) state call.now) ∅
      addressFlood := by decide +kernel
  exact ⟨hcl, hlo, hsp, (smallCeiling 5).tenant_ceiling "acme" rfl hcl hlo hsp 0 zero_le_one⟩

/-- With one request for each address, the bucket of the tenant is the fullest when reclamation comes, and
goes first: all eleven requests are admitted, at once, against a burst of ten. -/
theorem addressFlood_widens :
    addressFlood.Pairwise (fun c1 c2 => c1.now ≤ c2.now) ∧ (∀ call ∈ addressFlood, call.store.isNone = true) ∧
      (smallCeiling 1).limits.get .perTenant = some (.new 0 10) ∧
      ¬ TokenBucket.drawn 0 (0 + 0) (TokenBucket.draws LayeredCall.now
        (LayeredLimiter.chargedTo (.perTenant, .single "acme")) (transcript (smallCeiling 1).admitRequest ∅ addressFlood)) ≤
        (Limit.new 0 10).burst + (Limit.new 0 10).refillPerSec * 0 := by
  decide +kernel

/-- After seven of them some order of the iteration widens the tenant. -/
theorem addressFlood_unspared :
    ¬ ∀ order t, 0 ≤ t →
      level (.new 0 10) (((smallCeiling 1).makeRoom order (run (smallCeiling 1).admitRequest ∅ (addressFlood.take 7)) 0).lookup
          (.perTenant, .single "acme")) t =
        level (.new 0 10) ((run (smallCeiling 1).admitRequest ∅ (addressFlood.take 7)).lookup (.perTenant, .single "acme")) t :=
  fun h => absurd ((LayeredLimiter.keepsDeficit_iff rfl (by decide +kernel)).mp h) (by decide +kernel)

end IronAuth.Quota
