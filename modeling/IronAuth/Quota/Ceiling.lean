import IronAuth.Quota.Reclaim

/-!
# The ceiling on the number of buckets

Reclamation leaves room for one bucket of each layer, but it runs only when the ceiling is
already reached, and not at all on the shared path. An admission that finds the map just
below its ceiling adds all its buckets, and so does one whose store cannot answer.

How many buckets an admission leaves is known exactly from the state it finds, and so is
when that is within the ceiling (`HasRoom`).
-/

namespace IronAuth.Quota

open Lib Lib.Machine

/-- Reclamation leaves no more buckets than its target. -/
theorem size_reclaim_le (o : Store.IterOrder (BucketKey × ℚ)) (l : LayeredLimits) (maxBuckets : ℕ) (now : ℚ)
    (s : Buckets) : Store.size (reclaim o l maxBuckets now s) ≤ reclaimTarget maxBuckets := by
  unfold reclaim
  dsimp only
  split
  · assumption
  · rename_i hm
    have hk := Store.keys_heaviest o Meter.tokens (Store.revise (refillOrDrop l now) s)
    have hs := (List.take_sublist (Store.size (Store.revise (refillOrDrop l now) s) - reclaimTarget maxBuckets)
      (Store.heaviest o Meter.tokens (Store.revise (refillOrDrop l now) s))).map Prod.fst
    have hl : (Store.heaviest o Meter.tokens (Store.revise (refillOrDrop l now) s)).length =
        Store.size (Store.revise (refillOrDrop l now) s) := by
      rw [← List.length_map Prod.fst, hk.length_eq, Store.size]
    rw [Store.size_evict (hs.nodup (hk.nodup_iff.mpr (AList.keys_nodup _)))
      fun key hke => AList.mem_keys.mpr (hk.mem_iff.mp (hs.subset hke)), List.length_map, List.length_take, hl]
    omega

namespace LayeredLimiter

variable (limiter : LayeredLimiter)

/-- The buckets an admission may create: those that apply, unless the request is refused. -/
def wanted (identity : RequestIdentity) : List (BucketKey × Limit) :=
  if limiter.refuses identity then [] else limiter.applicable identity

/-- The walk adds the wanted buckets that are not there and that enforce locally. -/
theorem size_walkLayers (idt : RequestIdentity) (r : BucketKey → Option SharedRead) (now : ℚ) (n : ℤ)
    (s : Buckets) :
    Store.size (limiter.walkLayers idt r now n s).state =
      Store.size s +
        (limiter.wanted idt).countP fun bkt => decide (bkt.1 ∉ s) && enforcesLocally (r bkt.1) := by
  obtain ⟨-, hr, hw⟩ := limiter.walkLayers_spec idt r now n s
  unfold wanted
  cases hrf : limiter.refuses idt with
  | true => simp [hr hrf]
  | false =>
    rw [(hw hrf).2, size_touchAll now s ((List.filter_sublist.map Prod.fst).nodup nodup_applicable),
      List.countP_filter]
    simp

/-- Concluding the walk creates no bucket and drops none. -/
theorem size_conclude (w : LayerWalk) (c : ℚ) (f fe : Bool) :
    Store.size (w.conclude c f fe).2 = Store.size w.state := by
  rcases w.conclude_cases c f fe with ⟨-, hst⟩ | ⟨-, -, -, hst⟩
  · rw [hst]
  · rw [hst, size_foldl_chargeLocal]

/-- An admission has room. Below the ceiling, the buckets it adds must fit; at the ceiling it reclaims,
which leaves room for every layer if the ceiling does. With a store nothing is reclaimed. -/
def HasRoom (state : Buckets) (call : LayeredCall) : Prop :=
  match call.store with
  | none =>
    if bucketCount state < limiter.maxBuckets then
      bucketCount state + (limiter.wanted call.identity).countP (fun bucket => decide (bucket.1 ∉ state)) ≤
        limiter.maxBuckets
    else layerCount ≤ limiter.maxBuckets ∨ (limiter.wanted call.identity).length ≤ limiter.maxBuckets
  | some store =>
    bucketCount state + (limiter.wanted call.identity).countP (fun bucket =>
      decide (bucket.1 ∉ state) && enforcesLocally (some (store.get (sharedKey bucket.1)))) ≤ limiter.maxBuckets

/-- An admission stays within the ceiling exactly when it has room. -/
theorem bucketCount_admitRequest_le_iff (state : Buckets) (call : LayeredCall) :
    bucketCount (limiter.admitRequest state call).2 ≤ limiter.maxBuckets ↔ limiter.HasRoom state call := by
  unfold admitRequest HasRoom
  cases call.store with
  | some store =>
    dsimp only [admitShared]
    rw [bucketCount, size_conclude, size_walkLayers]
    rfl
  | none =>
    dsimp only [admitLocal]
    rw [bucketCount, size_conclude, size_walkLayers]
    simp only [enforcesLocally, Bool.and_true]
    by_cases hb : bucketCount state < limiter.maxBuckets
    · have hr : limiter.makeRoom call.order state call.now = state := if_neg (not_le.mpr hb)
      rw [if_pos hb, hr]
      rfl
    · have hr : limiter.makeRoom call.order state call.now =
        reclaim call.order limiter.limits limiter.maxBuckets call.now state := if_pos (not_lt.mp hb)
      rw [if_neg hb, hr]
      have hre := size_reclaim_le call.order limiter.limits limiter.maxBuckets call.now state
      generalize reclaim call.order limiter.limits limiter.maxBuckets call.now state = room at hre ⊢
      have ha : ((limiter.wanted call.identity).countP fun bkt => decide (bkt.1 ∉ room)) ≤
        (limiter.wanted call.identity).length := List.countP_le_length
      have hl : (limiter.wanted call.identity).length ≤ layerCount := by
        unfold wanted
        split
        · exact Nat.zero_le _
        · exact List.length_filterMap_le _ _
      unfold reclaimTarget at hre
      by_cases hw : layerCount ≤ limiter.maxBuckets
      · exact ⟨fun _ => Or.inl hw, fun _ => by omega⟩
      · -- a ceiling below the number of layers empties the map
        have he : Store.size room = 0 := by omega
        have hn : ∀ key : BucketKey, key ∉ room := by
          intro key hk
          have hp := List.length_pos_of_mem (AList.mem_keys.mp hk)
          rw [Store.size] at he
          omega
        have hal : ((limiter.wanted call.identity).countP fun bkt => decide (bkt.1 ∉ room)) =
            (limiter.wanted call.identity).length :=
          List.countP_eq_length.mpr fun bkt _ => decide_eq_true (hn bkt.1)
        rw [he, hal, Nat.zero_add]
        exact ⟨Or.inr, fun h => h.resolve_left hw⟩

/-- **The ceiling.** From a new limiter, local or shared, the buckets stay within the ceiling after every
admission of a run exactly when every admission of it has room. -/
theorem bucketCount_le_iff_hasRoom (limiter : LayeredLimiter) (calls : List LayeredCall) :
    Along limiter.admitRequest (fun state call => bucketCount (limiter.admitRequest state call).2 ≤ limiter.maxBuckets)
        ∅ calls ↔
      Along limiter.admitRequest limiter.HasRoom ∅ calls :=
  along_congr limiter.bucketCount_admitRequest_le_iff ∅ calls

end LayeredLimiter

/-- A ceiling of eight buckets, and a limit on every layer. -/
def fiveLayers : LayeredLimiter :=
  (LayeredLimiter.new ⟨fun _ => some (.new 1 100)⟩).withMaxBuckets 8

/-- Two requests that have nothing in common. -/
def twoStrangers : List LayeredCall :=
  [{ now := 0, identity := ⟨some "10.0.0.1", some "usr_1", some "cli_1", some "acme", some "prod"⟩, cost := 1 },
    { now := 0, identity := ⟨some "10.0.0.2", some "usr_2", some "cli_2", some "globex", some "prod"⟩, cost := 1 }]

/-- The second request finds five buckets, three below the ceiling, and adds five more. -/
theorem twoStrangers_overflow :
    LayeredLimiter.bucketCount (run fiveLayers.admitRequest ∅ twoStrangers) = 10 ∧
      ¬ Along fiveLayers.admitRequest (fun state call =>
        LayeredLimiter.bucketCount (fiveLayers.admitRequest state call).2 ≤ fiveLayers.maxBuckets) ∅ twoStrangers := by
  decide +kernel

end IronAuth.Quota
