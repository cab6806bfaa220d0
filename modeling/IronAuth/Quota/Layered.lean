import IronAuth.Quota.Admission

/-!
# The five-layer request limiter

The admission path of `ironauth-quota/src/layered.rs`. A request is charged to a bucket
of each layer that has a limit and that it presents a key for; it is admitted only if
all of them have the cost. The buckets are held locally. When their number reaches a
ceiling, buckets are reclaimed: first those that are full, then the fullest. With a
shared store attached, buckets are read from the store, and the local ones take over
when it cannot answer.

Time and tokens are rationals, as in the enforcer; the shared store counts microseconds.
The order a hash map is iterated in is an input of the call, and so is what the store
answers during it.
-/

namespace IronAuth.Quota

open Lib

/-- One enforcement layer. -/
inductive RateLayer where
  | perIp | perUser | perClient | perTenant | perEnvironment
  deriving DecidableEq

namespace RateLayer

/-- The next layer outward. -/
def nextWider : RateLayer → Option RateLayer
  | perIp => some perUser
  | perUser => some perClient
  | perClient => some perTenant
  | perTenant => some perEnvironment
  | perEnvironment => none

/-- A stable label. -/
def asStr : RateLayer → String
  | perIp => "per_ip"
  | perUser => "per_user"
  | perClient => "per_client"
  | perTenant => "per_tenant"
  | perEnvironment => "per_environment"

end RateLayer

/-- How many layers there are. -/
def layerCount : ℕ := 5

/-- Walk the chain of layers outward. -/
def buildLayerOrder : ℕ → RateLayer → List RateLayer
  | 0, _ => []
  | count + 1, current =>
    current :: match current.nextWider with
      | some next => buildLayerOrder count next
      | none => []

/-- The layers, the narrowest identity first. -/
def layerOrder : List RateLayer := buildLayerOrder layerCount .perIp

/-- Who a request is, for the layers that apply to it. -/
structure RequestIdentity where
  ip : Option String := none
  user : Option String := none
  client : Option String := none
  tenant : Option String := none
  environment : Option String := none

/-- The bucket identity a request presents to one layer. -/
inductive LayerKey where
  | single (value : String)
  | scoped (tenant environment : String)
  deriving DecidableEq

/-- The key an identity presents to a layer, if the layer applies. -/
def RequestIdentity.keyFor (identity : RequestIdentity) : RateLayer → Option LayerKey
  | .perIp => identity.ip.map .single
  | .perUser => identity.user.map .single
  | .perClient => identity.client.map .single
  | .perTenant => identity.tenant.map .single
  | .perEnvironment =>
    match identity.tenant, identity.environment with
    | some tenant, some environment => some (.scoped tenant environment)
    | _, _ => none

/-- What a configured per-IP limit does with a request that presents no address. -/
inductive MissingIpPolicy where
  | deny | skip
  deriving DecidableEq

/-- The limit of each layer; a layer without one is unlimited. -/
structure LayeredLimits where
  get : RateLayer → Option Limit

/-- No layer limited. -/
def LayeredLimits.unlimited : LayeredLimits := ⟨fun _ => none⟩

/-- `LayeredLimits::with`: set the limit of one layer. -/
def LayeredLimits.withLimit (limits : LayeredLimits) (layer : RateLayer) (limit : Limit) : LayeredLimits :=
  ⟨Function.update limits.get layer (some limit)⟩

/-- The result of one layered admission. -/
structure LayeredOutcome where
  decision : Decision
  limitingLayer : Option RateLayer
  snapshot : RateLimitSnapshot
  unenforced : List RateLayer
  missingIdentity : Bool
  sharedFellBack : Bool

/-- The refusal of a request without an address. -/
def LayeredOutcome.refusedForMissingIp (unenforced : List RateLayer) : LayeredOutcome where
  decision := .denied
  limitingLayer := some .perIp
  snapshot := ⟨none, none, 0, none, true, none⟩
  unenforced := unenforced
  missingIdentity := true
  sharedFellBack := false

/-! ### Buckets -/

/-- The key of a bucket. -/
abbrev BucketKey := RateLayer × LayerKey

/-- The bucket of a layer: its tokens, and when it was last refilled. -/
abbrev LayerBucket := Meter

/-- A full bucket. -/
def LayerBucket.full (limit : Limit) (now : ℚ) : LayerBucket := ⟨limit.burst, now⟩

/-- Replenish up to the burst. -/
def LayerBucket.refill (bucket : LayerBucket) (limit : Limit) (now : ℚ) : LayerBucket :=
  ⟨min (bucket.tokens + durationSince now bucket.last * limit.refillPerSec) limit.burst, now⟩

/-- The local buckets. -/
abbrev Buckets := AList fun _ : BucketKey => LayerBucket

/-- The state of a bucket in the shared store, refilled by the wall clock. -/
structure BucketState where
  tokens : ℚ
  lastEpochMicros : ℤ

/-- Replenish up to the burst; a clock that was set back gains nothing. -/
def BucketState.refill (bucket : BucketState) (limit : Limit) (nowEpochMicros : ℤ) : BucketState :=
  let elapsed : ℚ := (nowEpochMicros - bucket.lastEpochMicros).toNat / 1000000
  ⟨min (bucket.tokens + elapsed * limit.refillPerSec) limit.burst, nowEpochMicros⟩

/-- What a shared bucket read answered. -/
inductive SharedRead where
  | some (bucket : BucketState)
  | none
  | unavailable

/-- What a shared bucket write answered. -/
inductive SharedWrite where
  | ok | unavailable
  deriving DecidableEq

/-- The shared store, as it answers during one call. -/
structure SharedRateStore where
  get : String → SharedRead
  put : String → BucketState → SharedWrite

/-- The key of a bucket in the shared store. -/
def sharedKey : BucketKey → String
  | (layer, .single value) => layer.asStr ++ ":" ++ value
  | (layer, .scoped tenant environment) => layer.asStr ++ ":" ++ tenant ++ ":" ++ environment

/-! ### Snapshots -/

/-- The header snapshot of one bucket. -/
def snapshotFor (limit : Limit) (tokensBefore tokensAfter cost : ℚ) (admitted : Bool) : RateLimitSnapshot :=
  let toFull : ℚ :=
    if limit.refillPerSec > 0 then max (⌈(limit.burst - tokensAfter) / limit.refillPerSec⌉ : ℚ) 0 else 0
  let retryAfter :=
    if admitted then none
    else if cost > limit.burst then none
    else if limit.refillPerSec > 0 then some (f64ToU64Ceil ((cost - tokensBefore) / limit.refillPerSec))
    else none
  { limit := some (f64ToU64Floor limit.burst)
    remaining := some (if admitted then f64ToU64Floor tokensAfter else 0)
    resetSecs := f64ToU64Ceil toFull
    retryAfterSecs := retryAfter
    denied := !admitted
    policyWindowSecs := policyWindow limit.burst limit.refillPerSec }

/-- Where the tokens of a layer were found. -/
inductive Source where
  | shared | local
  deriving DecidableEq

/-- A layer that applies to a request, with the tokens found for it. -/
structure Evaluated where
  key : BucketKey
  limit : Limit
  tokens : ℚ
  source : Source

/-- `f64::MIN_POSITIVE`. -/
def minPositive : ℚ := 1 / 2 ^ 1022

/-- The first layer that lacks the cost. -/
def denier (evaluated : List Evaluated) (cost : ℚ) : Option Evaluated :=
  evaluated.find? fun layer => decide (layer.tokens < cost)

/-- The denial by a layer: it is named, and the wait is the longest of all layers that lack the cost. -/
def deniedOutcome (evaluated : List Evaluated) (unenforced : List RateLayer) (cost : ℚ) (fellBack : Bool)
    (layer : Evaluated) : LayeredOutcome where
  decision := .denied
  limitingLayer := some layer.key.1
  snapshot :=
    { snapshotFor layer.limit layer.tokens layer.tokens cost false with
      retryAfterSecs := ((evaluated.filter fun other => decide (other.tokens < cost)).filterMap fun other =>
        (snapshotFor other.limit other.tokens other.tokens cost false).retryAfterSecs).max? }
  unenforced := unenforced
  missingIdentity := false
  sharedFellBack := fellBack

/-- The admission: the snapshot is the one of the layer closest to exhaustion. -/
def admittedOutcome (evaluated : List Evaluated) (unenforced : List RateLayer) (cost : ℚ) (fellBack : Bool) :
    LayeredOutcome where
  decision := .admitted
  limitingLayer := none
  snapshot :=
    match evaluated.argmin fun layer => (layer.tokens - cost) / max layer.limit.burst minPositive with
    | some layer => snapshotFor layer.limit (layer.tokens - cost + cost) (layer.tokens - cost) cost true
    | none => .unlimited
  unenforced := unenforced
  missingIdentity := false
  sharedFellBack := fellBack

/-! ### Admission -/

/-- The fixed part of a limiter; the ceiling is at least one. -/
structure LayeredLimiter where
  limits : LayeredLimits
  maxBuckets : ℕ
  missingIp : MissingIpPolicy := .deny
  maxBuckets_pos : 1 ≤ maxBuckets

/-- How many buckets a limiter retains by default. -/
def defaultMaxBuckets : ℕ := 100000

/-- `LayeredLimiter::new`. -/
def LayeredLimiter.new (limits : LayeredLimits) : LayeredLimiter where
  limits := limits
  maxBuckets := defaultMaxBuckets
  maxBuckets_pos := by decide

/-- Override the ceiling. -/
def LayeredLimiter.withMaxBuckets (limiter : LayeredLimiter) (maxBuckets : ℕ) : LayeredLimiter :=
  { limiter with maxBuckets := max maxBuckets 1, maxBuckets_pos := le_max_right _ _ }

/-- Choose what a per-IP limit does without an address. -/
def LayeredLimiter.withMissingIpPolicy (limiter : LayeredLimiter) (missingIp : MissingIpPolicy) : LayeredLimiter :=
  { limiter with missingIp := missingIp }

/-- A bucket as reclamation finds it: refilled, and dropped if it is full or no limit applies to it. -/
def refillOrDrop (limits : LayeredLimits) (now : ℚ) (key : BucketKey) (bucket : LayerBucket) : Option LayerBucket :=
  match limits.get key.1 with
  | none => none
  | some limit =>
    let refilled := LayerBucket.refill bucket limit now
    if refilled.tokens < limit.burst then some refilled else none

/-- How many buckets reclamation leaves, at most. -/
def reclaimTarget (maxBuckets : ℕ) : ℕ := maxBuckets - layerCount

/-- Reclaim buckets: those that carry no state, and then the fullest, down to the target. -/
def reclaim (order : Store.IterOrder (BucketKey × ℚ)) (limits : LayeredLimits) (maxBuckets : ℕ) (now : ℚ)
    (state : Buckets) : Buckets :=
  let kept := Store.revise (refillOrDrop limits now) state
  let target := reclaimTarget maxBuckets
  if Store.size kept ≤ target then kept
  else
    let byFullness := Store.heaviest order Meter.tokens kept
    Store.evict ((byFullness.take (Store.size kept - target)).map Prod.fst) kept

/-- The walk over the layers: what it has found so far. -/
structure LayerWalk where
  evaluated : List Evaluated
  unenforced : List RateLayer
  refuse : Bool
  fellBack : Bool
  state : Buckets

/-- Refill the local bucket of a layer, creating it full. -/
def touch (now : ℚ) (state : Buckets) (key : BucketKey) (limit : Limit) : LayerBucket × Buckets :=
  let bucket := LayerBucket.refill ((state.lookup key).getD (.full limit now)) limit now
  (bucket, state.insert key bucket)

/-- Evaluate a layer that applies. Without a store, or when it cannot answer, the local bucket enforces. -/
def LayerWalk.evaluate (walk : LayerWalk) (read : Option SharedRead) (now : ℚ) (nowEpochMicros : ℤ) (key : BucketKey)
    (limit : Limit) : LayerWalk :=
  match read with
  | some (.some bucket) =>
    { walk with evaluated := walk.evaluated ++ [⟨key, limit, (bucket.refill limit nowEpochMicros).tokens, .shared⟩] }
  | some .none => { walk with evaluated := walk.evaluated ++ [⟨key, limit, limit.burst, .shared⟩] }
  | some .unavailable =>
    let touched := touch now walk.state key limit
    { walk with
      evaluated := walk.evaluated ++ [⟨key, limit, touched.1.tokens, .local⟩]
      fellBack := true
      state := touched.2 }
  | none =>
    let touched := touch now walk.state key limit
    { walk with evaluated := walk.evaluated ++ [⟨key, limit, touched.1.tokens, .local⟩], state := touched.2 }

/-- Charge a layer that was enforced locally. -/
def chargeLocal (cost : ℚ) (state : Buckets) (layer : Evaluated) : Buckets :=
  match layer.source, state.lookup layer.key with
  | .local, some bucket => state.insert layer.key ⟨bucket.tokens - cost, bucket.last⟩
  | _, _ => state

/-- What a request is told after the walk: a refusal, a denial, or an admission that charges every layer.
The flags say whether the local buckets stood in for the store, before charging and after. -/
def LayerWalk.conclude (walk : LayerWalk) (cost : ℚ) (fellBack fellBackCharged : Bool) : LayeredOutcome × Buckets :=
  if walk.refuse then (.refusedForMissingIp walk.unenforced, walk.state)
  else
    match denier walk.evaluated cost with
    | some layer => (deniedOutcome walk.evaluated walk.unenforced cost fellBack layer, walk.state)
    | none =>
      (admittedOutcome walk.evaluated walk.unenforced cost fellBackCharged,
        walk.evaluated.foldl (chargeLocal cost) walk.state)

/-- A write to the shared store that could not be made. -/
def putFails (store : SharedRateStore) (cost : ℚ) (nowEpochMicros : ℤ) (layer : Evaluated) : Bool :=
  match layer.source with
  | .local => false
  | .shared => decide (store.put (sharedKey layer.key) ⟨layer.tokens - cost, nowEpochMicros⟩ = .unavailable)

/-- One admission: when it is made, by whom, at what cost, and how the hash map and the store behave. -/
structure LayeredCall where
  now : ℚ
  nowEpochMicros : ℤ := 0
  identity : RequestIdentity
  cost : ℚ
  order : Store.IterOrder (BucketKey × ℚ) := .stored _
  store : Option SharedRateStore := none

namespace LayeredLimiter

variable (limiter : LayeredLimiter)

/-- One layer of the walk. A missing address may refuse the request, and then no bucket is touched. -/
def walkLayer (identity : RequestIdentity) (read : BucketKey → Option SharedRead) (now : ℚ) (nowEpochMicros : ℤ)
    (walk : LayerWalk) (layer : RateLayer) : LayerWalk :=
  match limiter.limits.get layer with
  | none => walk
  | some limit =>
    match identity.keyFor layer with
    | none =>
      { walk with
        unenforced := walk.unenforced ++ [layer]
        refuse := walk.refuse || decide (layer = .perIp ∧ limiter.missingIp = .deny) }
    | some key =>
      if walk.refuse then walk
      else walk.evaluate (read (layer, key)) now nowEpochMicros (layer, key) limit

/-- The walk over all layers. -/
def walkLayers (identity : RequestIdentity) (read : BucketKey → Option SharedRead) (now : ℚ) (nowEpochMicros : ℤ)
    (state : Buckets) : LayerWalk :=
  layerOrder.foldl (limiter.walkLayer identity read now nowEpochMicros) ⟨[], [], false, false, state⟩

/-- The local buckets when an admission begins: reclaimed if they are at the ceiling. -/
def makeRoom (order : Store.IterOrder (BucketKey × ℚ)) (state : Buckets) (now : ℚ) : Buckets :=
  if limiter.maxBuckets ≤ Store.size state then reclaim order limiter.limits limiter.maxBuckets now state else state

/-- `admit_local`: one check and charge over the local buckets. -/
def admitLocal (state : Buckets) (call : LayeredCall) : LayeredOutcome × Buckets :=
  let cost := max call.cost 0
  let walk := limiter.walkLayers call.identity (fun _ => none) call.now call.nowEpochMicros
    (limiter.makeRoom call.order state call.now)
  walk.conclude cost false false

/-- `admit_shared`: the buckets resolve through the store, with the local ones as the fallback. -/
def admitShared (store : SharedRateStore) (state : Buckets) (call : LayeredCall) : LayeredOutcome × Buckets :=
  let cost := max call.cost 0
  let walk := limiter.walkLayers call.identity (fun key => some (store.get (sharedKey key))) call.now
    call.nowEpochMicros state
  walk.conclude cost walk.fellBack (walk.fellBack || walk.evaluated.any (putFails store cost call.nowEpochMicros))

/-- `LayeredLimiter::admit`: admit or deny one request. -/
def admitRequest (state : Buckets) (call : LayeredCall) : LayeredOutcome × Buckets :=
  match call.store with
  | none => limiter.admitLocal state call
  | some store => limiter.admitShared store state call

/-- `bucket_count`: how many buckets are retained. -/
def bucketCount (state : Buckets) : ℕ := Store.size state

end LayeredLimiter

end IronAuth.Quota
