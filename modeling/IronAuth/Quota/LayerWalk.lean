import IronAuth.Quota.Layered

/-!
# What a layered admission touches

The walk over the layers touches one local bucket for each layer that applies to the
request and that the local buckets enforce; it finds each at its level. The layers have
distinct buckets, so each is found as it was when the walk began.
-/

namespace IronAuth.Quota

open Lib List Option

theorem mem_layerOrder (l : RateLayer) : l ∈ layerOrder := by cases l <;> decide

theorem nodup_layerOrder : layerOrder.Nodup := by decide

/-! ### Touching -/

variable (now : ℚ) (s : Buckets)

/-- A touched bucket holds its level. -/
theorem touch_fst (key : BucketKey) (l : Limit) :
    (touch now s key l).1 = ⟨level l (s.lookup key) now, now⟩ := by
  unfold touch
  cases s.lookup key with
  | none =>
    rw [getD_none, LayerBucket.refill, LayerBucket.full, durationSince_self, zero_mul, add_zero, min_self]
    rfl
  | some b => rfl

variable {key : BucketKey}

theorem lookup_touch_of_ne {k : BucketKey} (l : Limit) (hne : k ≠ key) :
    (touch now s key l).2.lookup k = s.lookup k :=
  AList.lookup_insert_ne hne

/-- Touch some buckets, each under its limit. -/
def touchAll (buckets : List (BucketKey × Limit)) (state : Buckets) : Buckets :=
  buckets.foldl (fun state bucket => (touch now state bucket.1 bucket.2).2) state

variable {buckets : List (BucketKey × Limit)}

theorem lookup_touchAll_of_notMem (h : key ∉ buckets.map Prod.fst) :
    (touchAll now buckets s).lookup key = s.lookup key :=
  Store.lookup_foldl_of_notMem (fun s bkt _ => lookup_touch_of_ne now s bkt.2) s h

theorem lookup_touchAll_of_mem {l : Limit} (hnd : (buckets.map Prod.fst).Nodup)
    (h : (key, l) ∈ buckets) :
    (touchAll now buckets s).lookup key = some ⟨level l (s.lookup key) now, now⟩ := by
  obtain ⟨s', hs, hl⟩ := Store.lookup_foldl_of_mem (fun s bkt _ => lookup_touch_of_ne now s bkt.2) s hnd h
  rw [touchAll, hl, ← hs, ← touch_fst]
  exact AList.lookup_insert _

theorem size_touchAll (hnd : (buckets.map Prod.fst).Nodup) :
    Store.size (touchAll now buckets s) = Store.size s + buckets.countP fun bkt => decide (bkt.1 ∉ s) := by
  induction buckets generalizing s with
  | nil => rfl
  | cons bkt buckets ih =>
    obtain ⟨hf, hnd⟩ := nodup_cons.mp hnd
    have hr : (buckets.countP fun b => decide (b.1 ∉ (touch now s bkt.1 bkt.2).2)) =
        buckets.countP fun b => decide (b.1 ∉ s) := by
      refine countP_congr fun b hb => ?_
      have hne : b.1 ≠ bkt.1 := fun heq => hf (heq ▸ mem_map_of_mem hb)
      simp [touch, AList.mem_insert, hne]
    have hs : Store.size (touch now s bkt.1 bkt.2).2 = Store.size s + if bkt.1 ∈ s then 0 else 1 :=
      Store.size_insert _ _ _
    rw [countP_cons]
    refine (ih (touch now s bkt.1 bkt.2).2 hnd).trans ?_
    rw [hr, hs]
    by_cases hm : bkt.1 ∈ s
    · simp [hm]
    · simp only [hm, if_false, not_false_eq_true, decide_true, if_true]
      omega

/-! ### Charging -/

variable {l : Evaluated} {ev : List Evaluated}

theorem lookup_chargeLocal_of_ne (c : ℚ) (s : Buckets) (h : key ≠ l.key) :
    (chargeLocal c s l).lookup key = s.lookup key := by
  unfold chargeLocal
  split
  · exact AList.lookup_insert_ne h
  · rfl

/-- A local layer is charged once. -/
theorem lookup_foldl_chargeLocal (c : ℚ) (s : Buckets)
    (hnd : (ev.map Evaluated.key).Nodup) (hm : l ∈ ev) (hl : l.source = .local) :
    (ev.foldl (chargeLocal c) s).lookup l.key = (s.lookup l.key).map fun bkt => ⟨bkt.tokens - c, bkt.last⟩ := by
  obtain ⟨s', hs, hlk⟩ := Store.lookup_foldl_of_mem (fun s _ _ => lookup_chargeLocal_of_ne c s) s hnd hm
  rw [hlk, ← hs, chargeLocal, hl]
  cases hbk : s'.lookup l.key with
  | none => exact hbk
  | some bkt => exact AList.lookup_insert _

/-- Charging creates no bucket. -/
theorem size_foldl_chargeLocal (c : ℚ) (ev : List Evaluated) (state : Buckets) :
    Store.size (ev.foldl (chargeLocal c) state) = Store.size state := by
  induction ev generalizing state with
  | nil => rfl
  | cons l ev ih =>
    refine (ih _).trans ?_
    unfold chargeLocal
    split
    · rename_i hbk
      have hm : l.key ∈ state := AList.lookup_isSome.mp (hbk ▸ rfl)
      rw [Store.size_insert, if_pos hm, Nat.add_zero]
    · rfl

/-! ### The walk -/

/-- The local buckets enforce: there is no store, or it could not answer. -/
def enforcesLocally : Option SharedRead → Bool
  | none => true
  | some .unavailable => true
  | some _ => false

/-- What a layer that applies is found to hold. -/
def evaluatedAt (read : BucketKey → Option SharedRead) (now : ℚ) (nowEpochMicros : ℤ) (state : Buckets)
    (bucket : BucketKey × Limit) : Evaluated :=
  match read bucket.1 with
  | some (.some shared) => ⟨bucket.1, bucket.2, (shared.refill bucket.2 nowEpochMicros).tokens, .shared⟩
  | some .none => ⟨bucket.1, bucket.2, bucket.2.burst, .shared⟩
  | _ => ⟨bucket.1, bucket.2, level bucket.2 (state.lookup bucket.1) now, .local⟩

@[simp] theorem evaluatedAt_key (r : BucketKey → Option SharedRead) (now : ℚ) (n : ℤ) (s : Buckets)
    (bkt : BucketKey × Limit) : (evaluatedAt r now n s bkt).key = bkt.1 := by
  unfold evaluatedAt
  split <;> rfl

/-- The outcomes of a walk. -/
theorem LayerWalk.conclude_cases (w : LayerWalk) (c : ℚ) (f fe : Bool) :
    ((w.conclude c f fe).1.decision = .denied ∧
        (w.conclude c f fe).2 = w.state) ∨
      ((w.conclude c f fe).1.decision = .admitted ∧ w.refuse = false ∧
        (∀ l ∈ w.evaluated, c ≤ l.tokens) ∧
        (w.conclude c f fe).2 = w.evaluated.foldl (chargeLocal c) w.state) := by
  unfold LayerWalk.conclude
  split
  · exact Or.inl ⟨rfl, rfl⟩
  · rename_i hr
    split
    · exact Or.inl ⟨rfl, rfl⟩
    · rename_i hd
      refine Or.inr ⟨rfl, Bool.eq_false_of_not_eq_true hr, fun l hl => ?_, rfl⟩
      simpa using List.find?_eq_none.mp hd l hl

namespace LayeredLimiter

variable (limiter : LayeredLimiter) (identity : RequestIdentity)

/-- The buckets some layers have for a request, with their limits. -/
def applicableIn (layers : List RateLayer) : List (BucketKey × Limit) :=
  layers.filterMap fun layer => (limiter.limits.get layer).bind fun limit =>
    (identity.keyFor layer).map fun key => ((layer, key), limit)

/-- The buckets a request is charged to, with their limits. -/
def applicable : List (BucketKey × Limit) := limiter.applicableIn identity layerOrder

/-- The request presents no address to a per-IP limit that insists on one. -/
def refuses : Bool :=
  (limiter.limits.get .perIp).isSome && (identity.keyFor .perIp).isNone && decide (limiter.missingIp = .deny)

variable {limiter identity}

variable {layers : List RateLayer}

theorem mem_applicableIn {bkt : BucketKey × Limit} :
    bkt ∈ limiter.applicableIn identity layers ↔
      bkt.1.1 ∈ layers ∧ limiter.limits.get bkt.1.1 = some bkt.2 ∧
        identity.keyFor bkt.1.1 = some bkt.1.2 := by
  unfold applicableIn
  rw [mem_filterMap]
  constructor
  · rintro ⟨l, hl, heq⟩
    obtain ⟨limit, hli, heq⟩ := bind_eq_some_iff.mp heq
    obtain ⟨key, hk, rfl⟩ := map_eq_some_iff.mp heq
    exact ⟨hl, hli, hk⟩
  · intro h
    refine ⟨bkt.1.1, h.1, ?_⟩
    rw [h.2.1, h.2.2]
    rfl

theorem mem_applicable {key : BucketKey} {l : Limit} :
    (key, l) ∈ limiter.applicable identity ↔
      limiter.limits.get key.1 = some l ∧ identity.keyFor key.1 = some key.2 :=
  mem_applicableIn.trans (and_iff_right (mem_layerOrder key.1))

theorem applicableIn_cons (l : RateLayer) (layers : List RateLayer) :
    limiter.applicableIn identity (l :: layers) =
      ((limiter.limits.get l).bind fun limit => (identity.keyFor l).map fun key => ((l, key), limit)).toList ++
        limiter.applicableIn identity layers := by
  unfold applicableIn
  rw [filterMap_cons]
  split
  · rename_i heq
    rw [heq]
    rfl
  · rename_i heq
    rw [heq]
    rfl

/-- Each layer has its own bucket. -/
theorem nodup_applicableIn (hnd : layers.Nodup) : ((limiter.applicableIn identity layers).map Prod.fst).Nodup := by
  induction layers with
  | nil => exact nodup_nil
  | cons l layers ih =>
    obtain ⟨hl, hnd⟩ := nodup_cons.mp hnd
    rw [applicableIn_cons]
    cases heq : (limiter.limits.get l).bind fun limit => (identity.keyFor l).map fun key => ((l, key), limit) with
    | none => exact ih hnd
    | some b =>
      refine nodup_cons.mpr ⟨fun hm => hl ?_, ih hnd⟩
      obtain ⟨other, ho, hk⟩ := mem_map.mp hm
      obtain ⟨limit, -, heq⟩ := bind_eq_some_iff.mp heq
      obtain ⟨key, -, rfl⟩ := map_eq_some_iff.mp heq
      have hin := (mem_applicableIn.mp ho).1
      rw [hk] at hin
      exact hin

theorem nodup_applicable : ((limiter.applicable identity).map Prod.fst).Nodup := nodup_applicableIn nodup_layerOrder

variable {w : LayerWalk}

variable (r : BucketKey → Option SharedRead) (now : ℚ) (n : ℤ)

/-- A walk that has refused touches no bucket. -/
theorem foldl_walkLayer_of_refuse (layers : List RateLayer) (h : w.refuse = true) :
    (layers.foldl (limiter.walkLayer identity r now n) w).refuse = true ∧
      (layers.foldl (limiter.walkLayer identity r now n) w).state = w.state := by
  induction layers generalizing w with
  | nil => exact ⟨h, rfl⟩
  | cons l layers ih =>
    have hs : (limiter.walkLayer identity r now n w l).refuse = true ∧
        (limiter.walkLayer identity r now n w l).state = w.state := by
      unfold walkLayer
      split
      · exact ⟨h, rfl⟩
      · split
        · exact ⟨by simp [h], rfl⟩
        · rw [if_pos h]
          exact ⟨h, rfl⟩
    obtain ⟨hr, hst⟩ := ih hs.1
    exact ⟨hr, hst.trans hs.2⟩

/-- What a walk that does not refuse does: some buckets are evaluated, and touched where they are enforced locally. -/
def Walked (buckets : List (BucketKey × Limit)) (w after : LayerWalk) : Prop :=
  after.refuse = false ∧ after.evaluated = w.evaluated ++ buckets.map (evaluatedAt r now n w.state) ∧
    after.state = touchAll now (buckets.filter fun bkt => enforcesLocally (r bkt.1)) w.state

theorem walked_walkLayer (hr : limiter.refuses identity = false) (l : RateLayer) (h : w.refuse = false) :
    Walked r now n (limiter.applicableIn identity [l]) w (limiter.walkLayer identity r now n w l) := by
  rw [Walked, walkLayer, applicableIn_cons]
  cases hl : limiter.limits.get l with
  | none => exact ⟨h, (append_nil _).symm, rfl⟩
  | some limit =>
    cases hk : identity.keyFor l with
    | none =>
      have hd : ¬ (l = .perIp ∧ limiter.missingIp = .deny) := by
        rintro ⟨rfl, hd⟩
        simp [refuses, hl, hk, hd] at hr
      exact ⟨by simp [h, hd], (append_nil _).symm, rfl⟩
    | some key =>
      dsimp only
      unfold LayerWalk.evaluate
      cases hre : r (l, key) with
      | none => simp [h, evaluatedAt, hre, enforcesLocally, touchAll, touch_fst, applicableIn]
      | some answer => cases answer <;> simp [h, evaluatedAt, hre, enforcesLocally, touchAll, touch_fst, applicableIn]

/-- The walk finds each layer as it was. -/
theorem walked_foldl (hr : limiter.refuses identity = false) (hnd : layers.Nodup) (w : LayerWalk) (h : w.refuse = false) :
    Walked r now n (limiter.applicableIn identity layers) w (layers.foldl (limiter.walkLayer identity r now n) w) := by
  induction layers generalizing w with
  | nil => exact ⟨h, by simp [applicableIn], rfl⟩
  | cons l layers ih =>
    obtain ⟨hl, hnd⟩ := nodup_cons.mp hnd
    obtain ⟨hrf, he, hst⟩ := walked_walkLayer r now n hr l h
    obtain ⟨hr2, he2, hst2⟩ := ih hnd _ hrf
    have hsp : limiter.applicableIn identity (l :: layers) =
        limiter.applicableIn identity [l] ++ limiter.applicableIn identity layers := by
      unfold applicableIn
      rw [← filterMap_append]
      rfl
    rw [foldl_cons, hsp]
    refine ⟨hr2, ?_, ?_⟩
    · rw [he2, he, append_assoc, map_append]
      congr 2
      refine map_congr_left fun bkt hbk => ?_
      -- the other layers have other buckets
      rw [evaluatedAt, evaluatedAt, hst, lookup_touchAll_of_notMem now w.state fun hm => hl ?_]
      obtain ⟨t, ht, hs⟩ := mem_map.mp hm
      have hf := (mem_applicableIn.mp (mem_filter.mp ht).1).1
      rw [hs, mem_singleton] at hf
      exact hf ▸ (mem_applicableIn.mp hbk).1
    · rw [hst2, hst, touchAll, touchAll, touchAll, ← foldl_append, ← filter_append]

/-- **What the walk does.** A refused request touches nothing; another is evaluated on every layer that
applies, as the local buckets stand, and touches those that enforce locally. -/
theorem walkLayers_spec (limiter : LayeredLimiter) (identity : RequestIdentity) (r : BucketKey → Option SharedRead)
    (now : ℚ) (n : ℤ) (state : Buckets) :
    (limiter.walkLayers identity r now n state).refuse = limiter.refuses identity ∧
      (limiter.refuses identity = true → (limiter.walkLayers identity r now n state).state = state) ∧
      (limiter.refuses identity = false →
        (limiter.walkLayers identity r now n state).evaluated =
            (limiter.applicable identity).map (evaluatedAt r now n state) ∧
          (limiter.walkLayers identity r now n state).state =
            touchAll now ((limiter.applicable identity).filter fun bkt => enforcesLocally (r bkt.1)) state) := by
  cases hr : limiter.refuses identity with
  | false =>
    obtain ⟨hrf, he, hst⟩ := walked_foldl r now n hr nodup_layerOrder
      ⟨[], [], false, false, state⟩ rfl
    exact ⟨hrf, fun hc => absurd hc (by simp), fun _ => ⟨he, hst⟩⟩
  | true =>
    simp only [refuses, Bool.and_eq_true, isSome_iff_exists, isNone_iff_eq_none, decide_eq_true_eq] at hr
    obtain ⟨⟨⟨limit, hl⟩, hk⟩, hd⟩ := hr
    -- the per-IP layer comes first
    have hs : (limiter.walkLayer identity r now n ⟨[], [], false, false, state⟩ .perIp).refuse = true ∧
        (limiter.walkLayer identity r now n ⟨[], [], false, false, state⟩ .perIp).state = state := by
      rw [walkLayer, hl, hk]
      exact ⟨by simp [hd], rfl⟩
    obtain ⟨hrf, hst⟩ := foldl_walkLayer_of_refuse r now n
      [.perUser, .perClient, .perTenant, .perEnvironment] hs.1
    exact ⟨hrf, fun _ => hst.trans hs.2, fun hc => absurd hc (by simp)⟩

end LayeredLimiter

end IronAuth.Quota
