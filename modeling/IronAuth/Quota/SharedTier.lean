import IronAuth.Quota.Reclaim

/-!
# The shared tier

Nodes that attach one shared store. An admission reads its buckets from the store and,
if every layer has the cost, writes them back charged and stamped with the reading of
the node's wall clock. The store here always answers: it is a map from shared keys to
bucket states. Calls do not overlap.

A bucket in the store is a meter on the wall clock, so that its level is the level of
the local tier; what differs is what the tiers write. The local tier writes a bucket
whenever it looks at it, the shared one only when it charges it.

## What is proved

* `sharedKey_separates_iff`: when two buckets have different keys in the store.
* `shared_refines_local`: one node on a shared store answers as it would locally.
-/

namespace IronAuth.Quota

open Lib Lib.Machine List

/-! ### The store -/

/-- The buckets of a shared store. -/
abbrev SharedBuckets := AList fun _ : String => BucketState

/-- A store that always answers. -/
def SharedBuckets.store (shared : SharedBuckets) : SharedRateStore where
  get name :=
    match shared.lookup name with
    | some bucket => .some bucket
    | none => .none
  put _ _ := .ok

/-- Write a charged layer back to the store. -/
def putShared (cost : ℚ) (nowEpochMicros : ℤ) (shared : SharedBuckets) (layer : Evaluated) : SharedBuckets :=
  match layer.source with
  | .local => shared
  | .shared => shared.insert (sharedKey layer.key) ⟨layer.tokens - cost, nowEpochMicros⟩

/-- The store after an admission: only one that charges writes. -/
def LayerWalk.writeBack (walk : LayerWalk) (cost : ℚ) (nowEpochMicros : ℤ) (shared : SharedBuckets) : SharedBuckets :=
  if walk.refuse then shared
  else
    match denier walk.evaluated cost with
    | some _ => shared
    | none => walk.evaluated.foldl (putShared cost nowEpochMicros) shared

/-- Nodes on one store, each with its local buckets. -/
structure Fleet (ν : Type*) where
  shared : SharedBuckets
  locals : ν → Buckets

variable {ν : Type*} [DecidableEq ν]

/-- One node admits one request. -/
def Fleet.admitOn (limiters : ν → LayeredLimiter) (fleet : Fleet ν) (input : ν × LayeredCall) :
    LayeredOutcome × Fleet ν :=
  let call := input.2
  let admission := (limiters input.1).admitShared fleet.shared.store (fleet.locals input.1) call
  let walk := (limiters input.1).walkLayers call.identity (fun key => some (fleet.shared.store.get (sharedKey key)))
    call.now call.nowEpochMicros (fleet.locals input.1)
  (admission.1,
    { shared := walk.writeBack (max call.cost 0) call.nowEpochMicros fleet.shared
      locals := Function.update fleet.locals input.1 admission.2 })

/-- The only node of a store admits one request. -/
def Fleet.admitAlone (limiter : LayeredLimiter) (fleet : Fleet Unit) (call : LayeredCall) : LayeredOutcome × Fleet Unit :=
  fleet.admitOn (fun _ => limiter) ((), call)

/-! ### Shared keys -/

theorem colon_notMem_asStr (l : RateLayer) : ':' ∉ l.asStr.toList := by cases l <;> decide

theorem asStr_inj {l layer2 : RateLayer} (h : l.asStr = layer2.asStr) : l = layer2 := by
  revert h
  cases l <;> cases layer2 <;> decide

/-- What follows the first colon of a shared key. -/
def keyText : LayerKey → String
  | .single value => value
  | .scoped tenant environment => tenant ++ ":" ++ environment

theorem sharedKey_eq (key : BucketKey) : sharedKey key = key.1.asStr ++ ":" ++ keyText key.2 := by
  obtain ⟨l, _ | _⟩ := key
  · rfl
  · simp only [sharedKey, keyText, String.append_assoc]

/-- Where two texts with a colon in them can be cut. -/
theorem colon_append_eq_iff {t e t2 e2 : String} : t ++ ":" ++ e = t2 ++ ":" ++ e2 ↔
    (t = t2 ∧ e = e2) ∨ (∃ w, t2 = t ++ ":" ++ w ∧ e = w ++ ":" ++ e2) ∨ ∃ w, t = t2 ++ ":" ++ w ∧ e2 = w ++ ":" ++ e := by
  have hcut : ∀ {t e t2 e2 : String} {a : List Char}, t2.toList = t.toList ++ a → ':' :: e.toList = a ++ ':' :: e2.toList →
      (t = t2 ∧ e = e2) ∨ ∃ w, t2 = t ++ ":" ++ w ∧ e = w ++ ":" ++ e2 := by
    intro t e t2 e2 a h1 h2
    cases a with
    | nil =>
      rw [append_nil] at h1
      exact .inl ⟨String.toList_injective h1.symm, String.toList_injective (by simpa using h2)⟩
    | cons c w =>
      obtain ⟨rfl, h2⟩ := cons.inj h2
      refine .inr ⟨.ofList w, String.toList_injective ?_, String.toList_injective ?_⟩
      · simpa using h1
      · simpa using h2
  constructor
  · intro h
    have hl := congrArg String.toList h
    simp only [String.toList_append, append_assoc] at hl
    rcases append_eq_append_iff.mp hl with ⟨a, h1, h2⟩ | ⟨a, h1, h2⟩
    · exact (hcut h1 h2).imp_right .inl
    · rcases hcut h1 h2 with ⟨rfl, rfl⟩ | hw
      · exact .inl ⟨rfl, rfl⟩
      · exact .inr (.inr hw)
  · rintro (⟨rfl, rfl⟩ | ⟨w, rfl, rfl⟩ | ⟨w, rfl, rfl⟩)
    · rfl
    · simp only [String.append_assoc]
    · simp only [String.append_assoc]

/-- A word without a colon and the text after the colon are read back. -/
theorem colon_inj {a a2 b b2 : String} (ha : ':' ∉ a.toList) (ha2 : ':' ∉ a2.toList)
    (h : a ++ ":" ++ b = a2 ++ ":" ++ b2) : a = a2 ∧ b = b2 := by
  obtain h | ⟨w, rfl, -⟩ | ⟨w, rfl, -⟩ := colon_append_eq_iff.mp h
  · exact h
  · simp at ha2
  · simp at ha

variable {key : LayerKey} {key2 : BucketKey} {idt : RequestIdentity}

/-- A shared key names its layer. -/
theorem sharedKey_layer {key : BucketKey} (h : sharedKey key = sharedKey key2) :
    key.1 = key2.1 ∧ keyText key.2 = keyText key2.2 := by
  rw [sharedKey_eq, sharedKey_eq] at h
  obtain ⟨hl, ht⟩ := colon_inj (colon_notMem_asStr _) (colon_notMem_asStr _) h
  exact ⟨asStr_inj hl, ht⟩

/-- One key reads as the other: the tenant of one goes on past a colon, up to which the other's environment is
cut, or a single value spells a tenant and an environment. -/
def LayerKey.Overlaps : LayerKey → LayerKey → Prop
  | .single value, .scoped tenant environment => value = tenant ++ ":" ++ environment
  | .scoped tenant environment, .scoped tenant2 environment2 =>
    ∃ w, tenant2 = tenant ++ ":" ++ w ∧ environment = w ++ ":" ++ environment2
  | _, _ => False

theorem keyText_eq_iff {key2 : LayerKey} :
    keyText key = keyText key2 ↔ key = key2 ∨ key.Overlaps key2 ∨ key2.Overlaps key := by
  rcases key with v | ⟨t, e⟩ <;> rcases key2 with v2 | ⟨t2, e2⟩
  · simp [keyText, LayerKey.Overlaps]
  · simp [keyText, LayerKey.Overlaps]
  · simp [keyText, LayerKey.Overlaps, eq_comm]
  · simp [keyText, LayerKey.Overlaps, colon_append_eq_iff]

theorem LayerKey.Overlaps.ne {key2 : LayerKey} (h : key.Overlaps key2) : key ≠ key2 := by
  rintro rfl
  rcases key with v | ⟨t, e⟩
  · exact h
  · obtain ⟨w, ht, -⟩ := h
    have := congrArg (·.toList.length) ht
    simp at this

/-- **When the store tells two buckets apart.** -/
theorem sharedKey_separates_iff (key key2 : BucketKey) : (sharedKey key = sharedKey key2 → key = key2) ↔
    ¬ (key.1 = key2.1 ∧ (key.2.Overlaps key2.2 ∨ key2.2.Overlaps key.2)) := by
  have hk : sharedKey key = sharedKey key2 ↔ key.1 = key2.1 ∧ keyText key.2 = keyText key2.2 :=
    ⟨sharedKey_layer, fun h => by rw [sharedKey_eq, sharedKey_eq, h.1, h.2]⟩
  rw [hk, keyText_eq_iff]
  constructor
  · rintro h ⟨hl, ho⟩
    have he := congrArg Prod.snd (h ⟨hl, .inr ho⟩)
    exact ho.elim (fun ho => ho.ne he) fun ho => ho.ne he.symm
  · rintro h ⟨hl, he | ho⟩
    · exact Prod.ext hl he
    · exact absurd ⟨hl, ho⟩ h

/-- Environments of two tenants on one shared bucket. -/
theorem staging_shared : ¬ (sharedKey (.perEnvironment, .scoped "acme" "staging:prod") =
    sharedKey (.perEnvironment, .scoped "acme:staging" "prod") →
      ((.perEnvironment, .scoped "acme" "staging:prod") : BucketKey) = (.perEnvironment, .scoped "acme:staging" "prod")) := by
  decide

/-- The tenant a request presents has no colon. -/
def RequestIdentity.PlainTenant (identity : RequestIdentity) : Prop := ∀ tenant ∈ identity.tenant, ':' ∉ tenant.toList

theorem keyFor_perEnvironment (h : idt.keyFor .perEnvironment = some key) :
    ∃ tenant environment, idt.tenant = some tenant ∧ key = .scoped tenant environment := by
  cases ht : idt.tenant with
  | none => simp [RequestIdentity.keyFor, ht] at h
  | some tenant =>
    cases he : idt.environment with
    | none => simp [RequestIdentity.keyFor, ht, he] at h
    | some environment =>
      simp only [RequestIdentity.keyFor, ht, he, Option.some.injEq] at h
      exact ⟨tenant, environment, rfl, h.symm⟩

/-- Requests whose tenants have no colon share a key only if they share a bucket. -/
theorem keyFor_eq_of_sharedKey {i2 : RequestIdentity} (hpl : idt.PlainTenant)
    (hpl2 : i2.PlainTenant) {key : BucketKey} (hk : idt.keyFor key.1 = some key.2)
    (hk2 : i2.keyFor key2.1 = some key2.2) (h : sharedKey key = sharedKey key2) : key = key2 := by
  obtain ⟨l, k⟩ := key
  obtain ⟨l2, k2⟩ := key2
  obtain ⟨hl, ht⟩ := sharedKey_layer h
  subst hl
  have hsg : ∀ {o o2 : Option String}, o.map LayerKey.single = some k → o2.map LayerKey.single = some k2 → k = k2 := by
    intro o o2 ho ho2
    obtain ⟨v, -, rfl⟩ := Option.map_eq_some_iff.mp ho
    obtain ⟨v2, -, rfl⟩ := Option.map_eq_some_iff.mp ho2
    exact congrArg LayerKey.single ht
  rw [Prod.mk.injEq]
  refine ⟨rfl, ?_⟩
  cases l with
  | perIp | perUser | perClient | perTenant => exact hsg hk hk2
  | perEnvironment =>
    obtain ⟨tenant, environment, hte, rfl⟩ := keyFor_perEnvironment hk
    obtain ⟨t2, e2, ht2, rfl⟩ := keyFor_perEnvironment hk2
    obtain ⟨rfl, rfl⟩ := colon_inj (hpl _ hte) (hpl2 _ ht2) ht
    rfl

/-! ### Levels in the store -/

/-- A wall-clock reading in seconds. -/
def seconds (micros : ℤ) : ℚ := micros / 1000000

theorem seconds_le {m micros2 : ℤ} : seconds m ≤ seconds micros2 ↔ m ≤ micros2 := by
  unfold seconds
  rw [div_le_div_iff_of_pos_right (by norm_num), Int.cast_le]

/-- A bucket of the store, as a meter on the wall clock. -/
def BucketState.meter (bucket : BucketState) : Meter := ⟨bucket.tokens, seconds bucket.lastEpochMicros⟩

/-- The meter of a shared key, if its bucket was ever charged. -/
def SharedBuckets.meter? (shared : SharedBuckets) (name : String) : Option Meter :=
  (shared.lookup name).map BucketState.meter

/-- A bucket of the store refilled at a reading holds its level. -/
theorem BucketState.refill_tokens (bkt : BucketState) (l : Limit) (m : ℤ) :
    (bkt.refill l m).tokens = level l (some bkt.meter) (seconds m) := by
  have he : ((m - bkt.lastEpochMicros).toNat : ℚ) / 1000000 =
      durationSince (seconds m) (seconds bkt.lastEpochMicros) := by
    have hc : ((m - bkt.lastEpochMicros).toNat : ℚ) = max ((m : ℚ) - bkt.lastEpochMicros) 0 := by
      rw [← Int.cast_natCast, Int.toNat_eq_max]
      push_cast
      rfl
    rw [hc, durationSince, seconds, seconds, ← sub_div, ← max_div_div_right (by norm_num), zero_div]
  rw [refill, he]
  rfl

/-! ### What a shared admission does -/

/-- What a layer is found to hold in the store. -/
def foundAt (shared : SharedBuckets) (nowEpochMicros : ℤ) (bucket : BucketKey × Limit) : Evaluated where
  key := bucket.1
  limit := bucket.2
  tokens := level bucket.2 (shared.meter? (sharedKey bucket.1)) (seconds nowEpochMicros)
  source := .shared

theorem evaluatedAt_store (s : SharedBuckets) (now : ℚ) (n : ℤ) (st : Buckets)
    (bucket : BucketKey × Limit) :
    evaluatedAt (fun key => some (s.store.get (sharedKey key))) now n st bucket =
      foundAt s n bucket := by
  unfold evaluatedAt foundAt SharedBuckets.store SharedBuckets.meter?
  dsimp only
  cases s.lookup (sharedKey bucket.1) with
  | none => rfl
  | some found =>
    dsimp only
    rw [BucketState.refill_tokens]
    rfl

/-- The buckets of a request have distinct shared keys. -/
theorem LayeredLimiter.nodup_sharedKey (limiter : LayeredLimiter) (idt : RequestIdentity) :
    ((limiter.applicable idt).map fun bkt => sharedKey bkt.1).Nodup := by
  have hnd : ((limiter.applicable idt).map Prod.fst).Nodup := LayeredLimiter.nodup_applicable
  have hi : ((limiter.applicable idt).map Prod.fst |>.map sharedKey).Nodup := by
    refine List.Nodup.map_on (fun key hk key2 hk2 h => ?_) hnd
    obtain ⟨bkt, hbk, rfl⟩ := mem_map.mp hk
    obtain ⟨b2, hbk2, rfl⟩ := mem_map.mp hk2
    have hl := (sharedKey_layer h).1
    have hp := (LayeredLimiter.mem_applicable.mp hbk).2
    have hp2 := (LayeredLimiter.mem_applicable.mp hbk2).2
    rw [hl, hp2, Option.some.injEq] at hp
    exact Prod.ext hl hp.symm
  rwa [map_map] at hi

theorem lookup_putShared_of_ne (c : ℚ) (n : ℤ) (s : SharedBuckets) (l : Evaluated) (name : String) (h : name ≠ sharedKey l.key) :
    (putShared c n s l).lookup name = s.lookup name := by
  unfold putShared
  split
  · rfl
  · exact AList.lookup_insert_ne h

namespace Fleet

variable (limiters : ν → LayeredLimiter) (fleet : Fleet ν) (node : ν) (call : LayeredCall)

/-- Every layer that applies to the request has the cost in the store. -/
def Affords : Prop :=
  (limiters node).refuses call.identity = false ∧
    ∀ bucket ∈ (limiters node).applicable call.identity,
      max call.cost 0 ≤ level bucket.2 (fleet.shared.meter? (sharedKey bucket.1)) (seconds call.nowEpochMicros)

instance : Decidable (Affords limiters fleet node call) := by
  unfold Affords
  infer_instance

/-- **What a shared admission does.** A request that every layer affords is admitted, and each bucket is
written back charged; another is denied, and nothing is written. -/
theorem admitOn_spec :
    (¬ Affords limiters fleet node call → (fleet.admitOn limiters (node, call)).1.decision = .denied ∧
        (fleet.admitOn limiters (node, call)).2.shared = fleet.shared) ∧
      (Affords limiters fleet node call → (fleet.admitOn limiters (node, call)).1.decision = .admitted ∧
        (∀ bkt ∈ (limiters node).applicable call.identity,
          (fleet.admitOn limiters (node, call)).2.shared.lookup (sharedKey bkt.1) =
            some ⟨level bkt.2 (fleet.shared.meter? (sharedKey bkt.1)) (seconds call.nowEpochMicros) - max call.cost 0,
              call.nowEpochMicros⟩) ∧
        ∀ name, (∀ bkt ∈ (limiters node).applicable call.identity, sharedKey bkt.1 ≠ name) →
          (fleet.admitOn limiters (node, call)).2.shared.lookup name = fleet.shared.lookup name) := by
  obtain ⟨hr, -, hw⟩ := (limiters node).walkLayers_spec call.identity
    (fun key => some (fleet.shared.store.get (sharedKey key))) call.now call.nowEpochMicros (fleet.locals node)
  rw [funext (evaluatedAt_store fleet.shared call.now call.nowEpochMicros (fleet.locals node))] at hw
  unfold admitOn LayeredLimiter.admitShared
  dsimp only
  generalize (limiters node).walkLayers call.identity (fun key => some (fleet.shared.store.get (sharedKey key))) call.now
    call.nowEpochMicros (fleet.locals node) = walk at *
  unfold LayerWalk.conclude LayerWalk.writeBack
  rw [hr]
  cases hrf : (limiters node).refuses call.identity with
  | true => simp [Affords, hrf, LayeredOutcome.refusedForMissingIp]
  | false =>
    have hfd := (hw hrf).1
    cases hd : denier walk.evaluated (max call.cost 0) with
    | some l =>
      have hl : ¬ Affords limiters fleet node call := by
        rintro ⟨-, ha⟩
        have hlt := List.find?_some hd
        have hm := mem_of_find?_eq_some hd
        rw [hfd] at hm
        obtain ⟨bkt, hbk, rfl⟩ := mem_map.mp hm
        exact absurd (ha bkt hbk) (not_le.mpr (of_decide_eq_true hlt))
      exact ⟨fun _ => ⟨rfl, rfl⟩, fun h => absurd h hl⟩
    | none =>
      have ha : Affords limiters fleet node call := by
        refine ⟨hrf, fun bkt hbk => ?_⟩
        have hm : foundAt fleet.shared call.nowEpochMicros bkt ∈ walk.evaluated :=
          hfd ▸ mem_map_of_mem hbk
        exact not_lt.mp fun hlt => List.find?_eq_none.mp hd _ hm (decide_eq_true hlt)
      have hnm : (walk.evaluated.map fun l => sharedKey l.key) =
          ((limiters node).applicable call.identity).map fun bkt => sharedKey bkt.1 := by
        rw [hfd, map_map]
        rfl
      refine ⟨fun h => absurd ha h, fun _ => ⟨rfl, fun bkt hbk => ?_, fun name hn => ?_⟩⟩
      · have hm : foundAt fleet.shared call.nowEpochMicros bkt ∈ walk.evaluated :=
          hfd ▸ mem_map_of_mem hbk
        obtain ⟨s, -, hl⟩ := Store.lookup_foldl_of_mem (lookup_putShared_of_ne (max call.cost 0) call.nowEpochMicros)
          fleet.shared (hnm ▸ (limiters node).nodup_sharedKey call.identity) hm
        exact hl.trans (AList.lookup_insert _)
      · refine Store.lookup_foldl_of_notMem (lookup_putShared_of_ne _ _) _ fun hm => ?_
        rw [hnm] at hm
        obtain ⟨bkt, hbk, heq⟩ := mem_map.mp hm
        exact hn bkt hbk heq

variable {limiters fleet node call}

variable {key : BucketKey}

/-- The meter of a bucket after an admission that presents it. -/
theorem meter?_admitOn_of_affords (ha : Affords limiters fleet node call) {l : Limit}
    (hk : (key, l) ∈ (limiters node).applicable call.identity) :
    (fleet.admitOn limiters (node, call)).2.shared.meter? (sharedKey key) = some
      ⟨level l (fleet.shared.meter? (sharedKey key)) (seconds call.nowEpochMicros) - max call.cost 0,
        seconds call.nowEpochMicros⟩ :=
  congrArg (Option.map BucketState.meter) (((admitOn_spec limiters fleet node call).2 ha).2.1 (key, l) hk)

/-- A call that does not present a shared key leaves its bucket alone. -/
theorem lookup_admitOn_of_ne {name : String}
    (h : ∀ bkt ∈ (limiters node).applicable call.identity, sharedKey bkt.1 ≠ name) :
    (fleet.admitOn limiters (node, call)).2.shared.lookup name = fleet.shared.lookup name := by
  obtain ⟨hd, ha⟩ := admitOn_spec limiters fleet node call
  by_cases haf : Affords limiters fleet node call
  · exact (ha haf).2.2 name h
  · rw [(hd haf).2]

variable (limiters fleet node call) in
/-- A bucket of the store is charged by an admission that presents it, and left alone by any other call. -/
theorem draws_admitOn {l : Limit} (hl : (limiters node).limits.get key.1 = some l)
    (ho : ∀ bkt ∈ (limiters node).applicable call.identity, sharedKey bkt.1 = sharedKey key → bkt.1 = key) :
    TokenBucket.Draws l.burst l.refillPerSec (seconds call.nowEpochMicros)
      (LayeredLimiter.chargedTo key (call, (fleet.admitOn limiters (node, call)).1))
      (level l (fleet.shared.meter? (sharedKey key)))
      (level l ((fleet.admitOn limiters (node, call)).2.shared.meter? (sharedKey key))) := by
  obtain ⟨hd, ha⟩ := admitOn_spec limiters fleet node call
  unfold LayeredLimiter.chargedTo
  by_cases hp : call.identity.keyFor key.1 = some key.2
  · have hk : (key, l) ∈ (limiters node).applicable call.identity :=
      LayeredLimiter.mem_applicable.mpr ⟨hl, hp⟩
    by_cases haf : Affords limiters fleet node call
    · have hc : max call.cost 0 ≤ level l (fleet.shared.meter? (sharedKey key)) (seconds call.nowEpochMicros) :=
        haf.2 (key, l) hk
      rw [if_pos ⟨(ha haf).1, hp⟩, meter?_admitOn_of_affords haf hk]
      refine ⟨hc, fun t ht => ?_⟩
      rw [level, durationSince_of_le ht]
    · obtain ⟨hde, hs⟩ := hd haf
      rw [if_neg (by simp [hde]), hs]
      exact fun _ _ => rfl
  · have hne : ∀ bkt ∈ (limiters node).applicable call.identity, sharedKey bkt.1 ≠ sharedKey key := by
      intro bkt hbk heq
      have hpr := (LayeredLimiter.mem_applicable.mp hbk).2
      rw [ho bkt hbk heq] at hpr
      exact hp hpr
    rw [if_neg fun hin => hp hin.2, SharedBuckets.meter?, SharedBuckets.meter?, lookup_admitOn_of_ne hne]
    exact fun _ _ => rfl

end Fleet

/-! ### Answers -/

/-- What a caller is told, apart from whether the local buckets stood in. -/
structure Answer where
  decision : Decision
  limitingLayer : Option RateLayer
  snapshot : RateLimitSnapshot
  unenforced : List RateLayer

/-- The answer of an outcome. -/
def LayeredOutcome.answer (outcome : LayeredOutcome) : Answer :=
  ⟨outcome.decision, outcome.limitingLayer, outcome.snapshot, outcome.unenforced⟩

/-- A layer as the local tier would have found it. -/
def Evaluated.localized (layer : Evaluated) : Evaluated := { layer with source := .local }

theorem argmin_map {α β : Type*} (f : β → ℚ) (g : α → β) (as : List α) :
    (as.map g).argmin f = (as.argmin (f ∘ g)).map g := by
  induction as using List.reverseRecOn with
  | nil => rfl
  | append_singleton as a ih =>
    rw [map_append, map_singleton, argmin_concat, argmin_concat, ih]
    cases as.argmin (f ∘ g) with
    | none => rfl
    | some b =>
      simp only [Option.map_some, Function.comp_apply]
      split <;> rfl

/-- Where the tokens were found does not show in the answer. -/
theorem LayerWalk.answer_localized (w : LayerWalk) (c : ℚ) (f fe : Bool) :
    ({ w with evaluated := w.evaluated.map Evaluated.localized }.conclude c false false).1.answer =
      (w.conclude c f fe).1.answer := by
  unfold LayerWalk.conclude
  cases w.refuse with
  | true => rfl
  | false =>
    have hd : denier (w.evaluated.map Evaluated.localized) c = (denier w.evaluated c).map Evaluated.localized := by
      unfold denier
      rw [List.find?_map]
      rfl
    rw [hd]
    cases denier w.evaluated c with
    | some l =>
      simp only [Option.map_some, LayeredOutcome.answer, deniedOutcome, filter_map, filterMap_map]
      rfl
    | none =>
      simp only [Option.map_none, LayeredOutcome.answer, admittedOutcome, argmin_map]
      have hs : (fun l : Evaluated => (l.tokens - c) / max l.limit.burst minPositive) ∘ Evaluated.localized =
          fun l => (l.tokens - c) / max l.limit.burst minPositive := rfl
      rw [hs]
      cases w.evaluated.argmin fun l => (l.tokens - c) / max l.limit.burst minPositive <;> rfl

namespace LayeredLimiter

variable {limiter : LayeredLimiter}

/-- The layers that are limited but that the request presents no key for. -/
def missed (limiter : LayeredLimiter) (identity : RequestIdentity) (layers : List RateLayer) : List RateLayer :=
  layers.filter fun layer => (limiter.limits.get layer).isSome && (identity.keyFor layer).isNone

theorem foldl_walkLayer_unenforced (limiter : LayeredLimiter) (idt : RequestIdentity)
    (r : BucketKey → Option SharedRead) (now : ℚ) (n : ℤ) (layers : List RateLayer) (w : LayerWalk) :
    (layers.foldl (limiter.walkLayer idt r now n) w).unenforced =
      w.unenforced ++ limiter.missed idt layers := by
  induction layers generalizing w with
  | nil => simp [missed]
  | cons l layers ih =>
    have hs : (limiter.walkLayer idt r now n w l).unenforced =
        w.unenforced ++ limiter.missed idt [l] := by
      unfold walkLayer missed
      cases hl : limiter.limits.get l with
      | none => simp [hl]
      | some limit =>
        cases hk : idt.keyFor l with
        | none => simp [hl, hk]
        | some key =>
          have hn : [l].filter (fun l => (limiter.limits.get l).isSome && (idt.keyFor l).isNone) = [] := by
            simp [hl, hk]
          rw [hn, append_nil]
          dsimp only
          split
          · rfl
          · unfold LayerWalk.evaluate
            split <;> rfl
    rw [foldl_cons, ih, hs, append_assoc]
    congr 1
    unfold missed
    rw [← filter_append]
    rfl

/-- A request is answered from what its layers hold, wherever that is read. -/
theorem answer_congr (idt : RequestIdentity) {r r2 : BucketKey → Option SharedRead} {now now2 : ℚ}
    {n n2 : ℤ} {s s2 : Buckets} (c : ℚ) (f fe : Bool)
    (h : ∀ bkt ∈ limiter.applicable idt,
      (evaluatedAt r now n s bkt).localized = evaluatedAt r2 now2 n2 s2 bkt) :
    ((limiter.walkLayers idt r now n s).conclude c f fe).1.answer =
      ((limiter.walkLayers idt r2 now2 n2 s2).conclude c false false).1.answer := by
  obtain ⟨hr, -, hw⟩ := limiter.walkLayers_spec idt r now n s
  obtain ⟨hr2, -, hw2⟩ := limiter.walkLayers_spec idt r2 now2 n2 s2
  have hm := foldl_walkLayer_unenforced limiter idt r now n layerOrder
    ⟨[], [], false, false, s⟩
  have hm2 := foldl_walkLayer_unenforced limiter idt r2 now2 n2 layerOrder
    ⟨[], [], false, false, s2⟩
  rw [← LayerWalk.answer_localized]
  change (walkLayers ..).unenforced = _ at hm hm2
  generalize limiter.walkLayers idt r now n s = walk at *
  generalize limiter.walkLayers idt r2 now2 n2 s2 = walk2 at *
  unfold LayerWalk.conclude
  rw [hr, hr2, hm, hm2]
  cases hrf : limiter.refuses idt with
  | true => rfl
  | false =>
    have hs : walk.evaluated.map Evaluated.localized = walk2.evaluated := by
      rw [(hw hrf).1, (hw2 hrf).1, map_map]
      exact map_congr_left h
    rw [hs]
    simp only [Bool.false_eq_true, if_false]
    split <;> rfl

/-! ### One node on a shared store -/

/-- The local buckets and the store agree on every level from some time on; the local clock is ahead of the
wall clock by `offset`. -/
structure Mirrors (limiter : LayeredLimiter) (offset : ℚ) (shared : SharedBuckets) (state : Buckets) (past : ℚ) : Prop where
  level : ∀ identity : RequestIdentity, identity.PlainTenant → ∀ bucket ∈ limiter.applicable identity, ∀ time, past ≤ time →
    level bucket.2 (state.lookup bucket.1) (offset + time) = level bucket.2 (shared.meter? (sharedKey bucket.1)) time
  last : ∀ identity : RequestIdentity, identity.PlainTenant → ∀ bucket ∈ limiter.applicable identity,
    ∀ meter ∈ state.lookup bucket.1, meter.last ≤ offset + past

theorem mirrors_empty (limiter : LayeredLimiter) (o p : ℚ) : Mirrors limiter o ∅ ∅ p where
  level _ _ _ _ _ _ := rfl
  last _ _ _ _ _ h := by cases h

/-- **One admission on both tiers**: the answers are the same, and so are the levels left. -/
theorem Mirrors.step {o p : ℚ} {fleet : Fleet ν} {state : Buckets} (h : Mirrors limiter o fleet.shared state p)
    (node : ν) {call : LayeredCall} (hpl : call.identity.PlainTenant)
    (hn : call.now = o + seconds call.nowEpochMicros) (hp : p ≤ seconds call.nowEpochMicros)
    (hr : Store.size state < limiter.maxBuckets) :
    (fleet.admitOn (fun _ => limiter) (node, call)).1.answer = (limiter.admitLocal state call).1.answer ∧
      Mirrors limiter o (fleet.admitOn (fun _ => limiter) (node, call)).2.shared (limiter.admitLocal state call).2
        (seconds call.nowEpochMicros) := by
  have ha : (fleet.admitOn (fun _ => limiter) (node, call)).1.answer = (limiter.admitLocal state call).1.answer := by
    have hm : limiter.makeRoom call.order state call.now = state := if_neg (not_le.mpr hr)
    unfold Fleet.admitOn admitShared admitLocal
    rw [hm]
    refine answer_congr call.identity _ _ _ fun bkt hbk => ?_
    rw [evaluatedAt_store, Evaluated.localized, foundAt, ← h.level call.identity hpl bkt hbk _ hp, ← hn]
    rfl
  have hl : ∀ identity : RequestIdentity, identity.PlainTenant → ∀ bkt ∈ limiter.applicable identity,
      ∀ meter ∈ state.lookup bkt.1, meter.last ≤ call.now := by
    intro identity hid bkt hbk meter hmt
    rw [hn]
    exact (h.last identity hid bkt hbk meter hmt).trans (add_le_add_right hp o)
  refine ⟨ha, ?_, ?_⟩
  · intro identity hid bkt hbk
    obtain ⟨key, limit⟩ := bkt
    have hli := (mem_applicable.mp hbk).1
    have hlo : TokenBucket.Draws limit.burst limit.refillPerSec call.now
        (chargedTo key (call, (limiter.admitLocal state call).1)) _ _ :=
      (draws_admitLocal hli (hl identity hid _ hbk) (Or.inl hr)).1
    have hsh : TokenBucket.Draws limit.burst limit.refillPerSec (seconds call.nowEpochMicros) _ _ _ :=
      Fleet.draws_admitOn (fun _ => limiter) fleet node call hli
        fun other ho heq => keyFor_eq_of_sharedKey hpl hid (mem_applicable.mp ho).2 (mem_applicable.mp hbk).2 heq
    have hs : chargedTo key (call, (fleet.admitOn (fun _ => limiter) (node, call)).1) =
        chargedTo key (call, (limiter.admitLocal state call).1) := by
      have hd := congrArg Answer.decision ha
      unfold chargedTo
      dsimp only [LayeredOutcome.answer] at hd ⊢
      rw [hd]
    rw [hn] at hlo
    rw [hs] at hsh
    intro t ht
    cases hc : chargedTo key (call, (limiter.admitLocal state call).1) with
    | none =>
      rw [hc] at hlo hsh
      rw [hlo _ (add_le_add_right ht o), hsh t ht, h.level identity hid _ hbk t (hp.trans ht)]
    | some c =>
      rw [hc] at hlo hsh
      rw [hlo.2 _ (add_le_add_right ht o), hsh.2 t ht, h.level identity hid _ hbk _ hp]
      congr 1
      ring
  · intro identity hid bkt hbk
    have hli := (mem_applicable.mp hbk).1
    rw [← hn]
    exact (draws_admitLocal hli (hl identity hid _ hbk) (Or.inl hr)).2

/-- **The shared tier refines the local tier.** One node on a store that starts empty and always answers gives,
on every sequence of requests, the answers it gives from its local buckets alone, as long as these are never
reclaimed: the two clocks advance together in whole microseconds, and no tenant id has a colon. -/
theorem shared_refines_local (limiter : LayeredLimiter) (locals : Unit → Buckets) (offset : ℚ)
    {calls : List LayeredCall} (hplain : ∀ call ∈ calls, call.identity.PlainTenant)
    (hclocks : ∀ call ∈ calls, call.now = offset + seconds call.nowEpochMicros)
    (hforward : calls.Pairwise fun c1 c2 => c1.nowEpochMicros ≤ c2.nowEpochMicros)
    (hroom : Along limiter.admitLocal (fun state _ => Store.size state < limiter.maxBuckets) ∅ calls) :
    (transcript (Fleet.admitAlone limiter) ⟨∅, locals⟩ calls).map (fun entry => entry.2.answer) =
      (transcript limiter.admitLocal ∅ calls).map fun entry => entry.2.answer := by
  -- the relation: the tiers mirror each other from a time that no later call precedes
  let R := fun (fleet : Fleet Unit) (state : Buckets) (calls : List LayeredCall) =>
    (∃ past, (∀ call ∈ calls, past ≤ seconds call.nowEpochMicros) ∧ Mirrors limiter offset fleet.shared state past) ∧
      (∀ call ∈ calls, call.identity.PlainTenant) ∧
      (∀ call ∈ calls, call.now = offset + seconds call.nowEpochMicros) ∧
      (calls.Pairwise fun c1 c2 => c1.nowEpochMicros ≤ c2.nowEpochMicros) ∧
      Along limiter.admitLocal (fun state _ => Store.size state < limiter.maxBuckets) state calls
  refine map_transcript_eq (R := R) LayeredOutcome.answer LayeredOutcome.answer ?_ ⟨?_, hplain, hclocks, hforward, hroom⟩
  · rintro fleet state call calls ⟨⟨past, hpa, hmi⟩, hplain, hclocks, hforward, hfi, hroom⟩
    obtain ⟨hla, hforward⟩ := pairwise_cons.mp hforward
    obtain ⟨han, hne⟩ := hmi.step () (hplain call mem_cons_self) (hclocks call mem_cons_self)
      (hpa call mem_cons_self) hfi
    refine ⟨han, ⟨_, fun c hc => seconds_le.mpr (hla c hc), hne⟩, ?_, ?_, hforward, hroom⟩
    · exact fun c hc => hplain c (mem_cons_of_mem _ hc)
    · exact fun c hc => hclocks c (mem_cons_of_mem _ hc)
  · cases calls with
    | nil => exact ⟨0, fun _ h => (by cases h), mirrors_empty limiter offset 0⟩
    | cons call calls =>
      refine ⟨seconds call.nowEpochMicros, fun c hc => ?_, mirrors_empty limiter offset _⟩
      rcases mem_cons.mp hc with rfl | hc
      · exact le_refl _
      · exact seconds_le.mpr ((pairwise_cons.mp hforward).1 c hc)

end LayeredLimiter

/-- Two requests a second for an environment, ten for its tenant, one every two seconds. -/
def tieredLimiter : LayeredLimiter :=
  .new ((LayeredLimits.unlimited.withLimit .perTenant (.new (1 / 2) 10)).withLimit .perEnvironment (.new 1 2))

/-- Requests of one environment at whole and half seconds; the third is denied. -/
def environmentCalls : List LayeredCall :=
  [0, 0, 500000, 1500000].map fun micros =>
    { now := 3 + seconds micros, nowEpochMicros := micros, identity := { tenant := some "acme", environment := some "prod" },
      cost := 1 }

theorem environmentCalls_refined :
    (∀ call ∈ environmentCalls, call.identity.PlainTenant) ∧
      (∀ call ∈ environmentCalls, call.now = 3 + seconds call.nowEpochMicros) ∧
      environmentCalls.Pairwise (fun c1 c2 => c1.nowEpochMicros ≤ c2.nowEpochMicros) ∧
      Along tieredLimiter.admitLocal (fun state _ => Store.size state < tieredLimiter.maxBuckets) ∅ environmentCalls ∧
      (transcript tieredLimiter.admitLocal ∅ environmentCalls).map (fun entry => entry.2.decision) =
        [.admitted, .admitted, .denied, .admitted] ∧
      (transcript (Fleet.admitAlone tieredLimiter) ⟨∅, fun _ => ∅⟩ environmentCalls).map (fun entry => entry.2.answer) =
        (transcript tieredLimiter.admitLocal ∅ environmentCalls).map fun entry => entry.2.answer := by
  have hpl : ∀ call ∈ environmentCalls, call.identity.PlainTenant := by
    intro call hca tenant hte
    obtain ⟨micros, -, rfl⟩ := mem_map.mp hca
    cases hte
    decide
  have hcl : ∀ call ∈ environmentCalls, call.now = 3 + seconds call.nowEpochMicros := by decide +kernel
  have hfo : environmentCalls.Pairwise (fun c1 c2 => c1.nowEpochMicros ≤ c2.nowEpochMicros) := by decide +kernel
  have hro : Along tieredLimiter.admitLocal (fun state _ => Store.size state < tieredLimiter.maxBuckets) ∅
      environmentCalls := by decide +kernel
  exact ⟨hpl, hcl, hfo, hro, by decide +kernel,
    tieredLimiter.shared_refines_local (fun _ => ∅) 3 hpl hcl hfo hro⟩

end IronAuth.Quota
