import IronAuth.Lib.Store
import IronAuth.Lib.TokenBucket
import Mathlib.Data.List.Destutter
import Mathlib.Data.List.MinMax
import Mathlib.Data.Rat.Floor

/-!
# The quota enforcer

The admission path of `ironauth-quota/src/lib.rs`: a token bucket for each scope and
dimension, nested for an environment under its tenant, limits that can be overridden
at runtime, and a sweep that drops idle buckets.

Numbers are exact rationals: an `f64` is a rational, an `Instant` is its seconds. The
source keeps one bucket map and one override map for each tier; here a map is keyed
by the scope, which tells the tiers apart. A `u64` cast from a float saturates, as in
the source.
-/

namespace IronAuth.Quota

open Lib

/-- A tenant key. -/
abbrev TenantId := String

/-- An environment key, within its tenant. -/
abbrev EnvironmentId := String

/-- The scope a spend is charged to. -/
inductive Scope where
  | tenant (tenant : TenantId)
  | environment (tenant : TenantId) (environment : EnvironmentId)
  deriving DecidableEq

namespace Scope

/-- The tenant a scope belongs to. -/
def tenantOf : Scope → TenantId
  | tenant t => t
  | environment t _ => t

/-- The scopes a spend is checked against: the tenant, then the environment. -/
def path : Scope → List Scope
  | tenant t => [tenant t]
  | environment t e => [tenant t, environment t e]

end Scope

/-- The independently enforced dimensions. -/
inductive QuotaDimension where
  | requests | tokenIssuance | hookSeconds | passwordHashing
  deriving DecidableEq

/-- A sustained rate and a burst capacity, neither of them negative. -/
structure Limit where
  refillPerSec : ℚ
  burst : ℚ
  refill_nonneg : 0 ≤ refillPerSec
  burst_nonneg : 0 ≤ burst
  deriving DecidableEq

/-- `Limit::new`: both are clamped. -/
def Limit.new (refillPerSec burst : ℚ) : Limit :=
  ⟨max refillPerSec 0, max burst 0, le_max_right _ _, le_max_right _ _⟩

/-- The limits of one tier; a dimension without one is unlimited. -/
structure ScopeLimits where
  requests : Option Limit := none
  tokenIssuance : Option Limit := none
  hookSeconds : Option Limit := none
  passwordHashing : Option Limit := none

/-- The limit of one dimension. -/
def ScopeLimits.get (limits : ScopeLimits) : QuotaDimension → Option Limit
  | .requests => limits.requests
  | .tokenIssuance => limits.tokenIssuance
  | .hookSeconds => limits.hookSeconds
  | .passwordHashing => limits.passwordHashing

/-- The limits of both tiers before any override. -/
structure Tiers where
  tenant : ScopeLimits
  environment : ScopeLimits

/-- The tier a scope belongs to. -/
def Tiers.tier (tiers : Tiers) : Scope → ScopeLimits
  | .tenant _ => tiers.tenant
  | .environment _ _ => tiers.environment

/-! ### Configuration -/

/-- The configured quota of one tier. -/
structure ScopeQuotaConfig where
  requestsPerSecond : ℕ
  requestsBurst : ℕ
  tokenIssuancePerSecond : ℕ
  tokenIssuanceBurst : ℕ
  hookSecondsPerSecond : ℕ
  hookSecondsBurst : ℕ
  passwordHashingPerSecond : ℕ
  passwordHashingBurst : ℕ

/-- The quota configuration. -/
structure QuotaConfig where
  tenant : ScopeQuotaConfig
  environment : ScopeQuotaConfig
  usageThresholdsPercent : List ℕ
  idleBucketTtlSecs : ℕ

/-- A configured pair; a burst of zero means unlimited. -/
def limitFrom (perSecond burst : ℕ) : Option Limit :=
  if burst = 0 then none else some (.new perSecond burst)

/-- `ScopeLimits::from_config`. -/
def ScopeLimits.fromConfig (config : ScopeQuotaConfig) : ScopeLimits where
  requests := limitFrom config.requestsPerSecond config.requestsBurst
  tokenIssuance := limitFrom config.tokenIssuancePerSecond config.tokenIssuanceBurst
  hookSeconds := limitFrom config.hookSecondsPerSecond config.hookSecondsBurst
  passwordHashing := limitFrom config.passwordHashingPerSecond config.passwordHashingBurst

/-- The enforcer's fixed part: the tiers, the usage thresholds in ascending order, and the idle
window of the sweep, if there is one. -/
structure QuotaEnforcer where
  tiers : Tiers
  thresholds : List ℕ
  idleTtl : Option ℚ

/-- `QuotaEnforcer::from_config`. -/
def QuotaEnforcer.fromConfig (config : QuotaConfig) : QuotaEnforcer where
  tiers := ⟨.fromConfig config.tenant, .fromConfig config.environment⟩
  thresholds := (config.usageThresholdsPercent.insertionSort (· ≤ ·)).destutter (· ≠ ·)
  idleTtl := if config.idleBucketTtlSecs > 0 then some config.idleBucketTtlSecs else none

/-! ### Buckets -/

/-- `saturating_duration_since`, in seconds. -/
def durationSince (now earlier : ℚ) : ℚ := max (now - earlier) 0

/-- A single token bucket. -/
structure Bucket where
  tokens : ℚ
  last : ℚ
  emittedLevel : ℕ
  admitted : ℕ
  denied : ℕ

/-- A full bucket as of `now`. -/
def Bucket.full (limit : Limit) (now : ℚ) : Bucket := ⟨limit.burst, now, 0, 0, 0⟩

/-- Replenish up to the burst. -/
def Bucket.refill (bucket : Bucket) (limit : Limit) (now : ℚ) : Bucket :=
  { bucket with
    tokens := min (bucket.tokens + durationSince now bucket.last * limit.refillPerSec) limit.burst
    last := now }

/-- The shared state behind the lock. -/
structure State where
  buckets : AList fun _ : Scope × QuotaDimension => Bucket
  overrides : AList fun _ : Scope => ScopeLimits
  lastReap : ℚ

/-- The state of a new enforcer. -/
def State.initial (now : ℚ) : State := ⟨∅, ∅, now⟩

variable (state : State) (scope : Scope) (tenant : TenantId)

/-- The bucket of a scope and dimension, if it is live. -/
def State.bucket? (dimension : QuotaDimension) : Option Bucket :=
  state.buckets.lookup (scope, dimension)

/-- Write a bucket. -/
def State.setBucket (dimension : QuotaDimension) (bucket : Bucket) : State :=
  { state with buckets := state.buckets.insert (scope, dimension) bucket }

/-- `bucket_mut`: change a bucket that was created during evaluation. -/
def State.updateBucket (dimension : QuotaDimension) (f : Bucket → Bucket) : State :=
  match state.bucket? scope dimension with
  | some bucket => state.setBucket scope dimension (f bucket)
  | none => state

/-- Drop every bucket that has been idle for `ttl`, and count them. -/
def reapIdleLocked (ttl now : ℚ) : ℕ × State :=
  let kept := Store.retain (fun _ bucket => decide (durationSince now bucket.last < ttl)) state.buckets
  (state.buckets.keys.length - kept.keys.length, { state with buckets := kept, lastReap := now })

/-! ### Outcomes -/

/-- The admission decision. -/
inductive Decision where
  | admitted | denied
  deriving DecidableEq

/-- A view of the binding bucket. -/
structure RateLimitSnapshot where
  limit : Option ℕ
  remaining : Option ℕ
  resetSecs : ℕ
  retryAfterSecs : Option ℕ
  denied : Bool
  policyWindowSecs : Option ℕ
  deriving DecidableEq

/-- The snapshot of an unlimited dimension. -/
def RateLimitSnapshot.unlimited : RateLimitSnapshot := ⟨none, none, 0, none, false, none⟩

/-- A crossed usage threshold. -/
structure UsageEvent where
  scope : Scope
  dimension : QuotaDimension
  thresholdPercent : ℕ
  utilizationPercent : ℕ

/-- The full result of a spend. -/
structure QuotaOutcome where
  decision : Decision
  snapshot : RateLimitSnapshot
  events : List UsageEvent

/-- A resolved bucket: what is in it before the spend and what would be after. -/
structure Eval where
  scope : Scope
  dimension : QuotaDimension
  limit : Limit
  tokensBefore : ℚ
  tokensAfter : ℚ
  hasCapacity : Bool

/-! ### Header values -/

/-- The greatest `u64`. -/
def u64Max : ℕ := 2 ^ 64 - 1

/-- `f64_to_u64_floor`. -/
def f64ToU64Floor (value : ℚ) : ℕ := min ⌊max value 0⌋.toNat u64Max

/-- `f64_to_u64_ceil`. -/
def f64ToU64Ceil (value : ℚ) : ℕ := min ⌈max value 0⌉.toNat u64Max

/-- Seconds for a deficit to refill; a zero rate never refills, reported as zero. -/
def secondsToRefill (deficit rate : ℚ) : ℕ :=
  if deficit ≤ 0 ∨ rate ≤ 0 then 0 else f64ToU64Ceil (deficit / rate)

/-- How long a full burst takes to accrue. -/
def policyWindow (burst refillPerSec : ℚ) : Option ℕ :=
  if refillPerSec ≤ 0 ∨ burst ≤ 0 then none else some (f64ToU64Ceil (burst / refillPerSec))

/-- The fraction of the burst that would remain. -/
def remainingFraction (eval : Eval) : ℚ :=
  if eval.limit.burst ≤ 0 then 0 else max eval.tokensAfter 0 / eval.limit.burst

/-- The utilization as a whole percent. -/
def utilizationPercent (tokens burst : ℚ) : ℕ :=
  if burst ≤ 0 then 100 else ⌊max 0 (min ((burst - tokens) / burst * 100) 100)⌋.toNat

/-- When a denied spend may be retried: never, when nothing refills or the cost exceeds the burst. -/
def retryAfter (eval : Eval) : Option ℕ :=
  if eval.limit.refillPerSec ≤ 0 ∨ eval.tokensBefore - eval.tokensAfter > eval.limit.burst then none
  else some (max (secondsToRefill (max (0 - eval.tokensAfter) 0) eval.limit.refillPerSec) 1)

/-- The snapshot of the bucket that governs the outcome: the tightest one when admitted, the first
without capacity when denied. -/
def bindingSnapshot (evals : List Eval) (admitted : Bool) : RateLimitSnapshot :=
  let binding :=
    if admitted then evals.argmin remainingFraction
    else (evals.find? fun eval => !eval.hasCapacity).or evals.head?
  match binding with
  | none => .unlimited
  | some eval =>
    let remaining := if admitted then max eval.tokensAfter 0 else 0
    let deficit :=
      if admitted then max (eval.limit.burst - remaining) 0 else max (eval.limit.burst - eval.tokensBefore) 0
    { limit := some (f64ToU64Floor eval.limit.burst)
      remaining := some (f64ToU64Floor remaining)
      resetSecs := secondsToRefill deficit eval.limit.refillPerSec
      retryAfterSecs := if admitted then none else retryAfter eval
      denied := !admitted
      policyWindowSecs := policyWindow eval.limit.burst eval.limit.refillPerSec }

/-! ### Admission -/

namespace QuotaEnforcer

variable (q : QuotaEnforcer)

variable (state : State) (tenant : TenantId)

/-- The effective limit of a scope: its override if there is one, else its tier. -/
def scopeLimit (scope : Scope) (dimension : QuotaDimension) : Option Limit :=
  match state.overrides.lookup scope with
  | some limits => limits.get dimension
  | none => (q.tiers.tier scope).get dimension

/-- The effective tenant limit. -/
def tenantLimit : QuotaDimension → Option Limit :=
  q.scopeLimit state (.tenant tenant)

/-- The effective environment limit. -/
def environmentLimit (environment : EnvironmentId) :
    QuotaDimension → Option Limit :=
  q.scopeLimit state (.environment tenant environment)

/-- Refill and evaluate the bucket of a scope under a limit; nothing happens without one. -/
def evalScope (limit : Option Limit) (state : State) (scope : Scope) (dimension : QuotaDimension) (cost now : ℚ) :
    Option Eval × State :=
  match limit with
  | none => (none, state)
  | some limit =>
    let bucket := ((state.bucket? scope dimension).getD (.full limit now)).refill limit now
    (some ⟨scope, dimension, limit, bucket.tokens, bucket.tokens - cost, decide (bucket.tokens ≥ cost)⟩,
      state.setBucket scope dimension bucket)

/-- `eval_tenant`. -/
def evalTenant (dimension : QuotaDimension) (cost now : ℚ) : Option Eval × State :=
  evalScope (q.tenantLimit state tenant dimension) state (.tenant tenant) dimension cost now

/-- `eval_environment`. -/
def evalEnvironment (environment : EnvironmentId) (dimension : QuotaDimension)
    (cost now : ℚ) : Option Eval × State :=
  evalScope (q.environmentLimit state tenant environment dimension) state (.environment tenant environment) dimension
    cost now

/-- Emit an event for each threshold newly crossed, and re-arm those fallen below. -/
def evaluateThresholds (bucket : Bucket) (eval : Eval) : Bucket × List UsageEvent :=
  let utilization := utilizationPercent bucket.tokens eval.limit.burst
  let currentLevel := (q.thresholds.reverse.find? fun threshold => decide (threshold ≤ utilization)).getD 0
  let crossed :=
    if currentLevel > bucket.emittedLevel then
      q.thresholds.filter fun threshold => decide (threshold > bucket.emittedLevel ∧ threshold ≤ currentLevel)
    else []
  ({ bucket with emittedLevel := currentLevel },
    crossed.map fun threshold => ⟨eval.scope, eval.dimension, threshold, utilization⟩)

/-- Charge an admitted spend to a bucket. -/
def chargeBucket (eval : Eval) (now : ℚ) (bucket : Bucket) : Bucket × List UsageEvent :=
  q.evaluateThresholds
    { bucket with tokens := max eval.tokensAfter 0, last := now, admitted := bucket.admitted + 1 } eval

/-- `charge`: charge an admitted spend and collect its events. -/
def charge (now : ℚ) (acc : State × List UsageEvent) (eval : Eval) : State × List UsageEvent :=
  match acc.1.bucket? eval.scope eval.dimension with
  | some bucket =>
    let charged := q.chargeBucket eval now bucket
    (acc.1.setBucket eval.scope eval.dimension charged.1, acc.2 ++ charged.2)
  | none => acc

/-- Count a denial against a bucket that lacked capacity. -/
def countDenial (eval : Eval) : State :=
  if eval.hasCapacity then state
  else state.updateBucket eval.scope eval.dimension fun bucket => { bucket with denied := bucket.denied + 1 }

/-- Charge every bucket, or none. -/
def settle (evals : List Eval) (state : State) (now : ℚ) : QuotaOutcome × State :=
  if evals.isEmpty then (⟨.admitted, .unlimited, []⟩, state)
  else if evals.all Eval.hasCapacity then
    let charged := evals.foldl (q.charge now) (state, [])
    (⟨.admitted, bindingSnapshot evals true, charged.2⟩, charged.1)
  else (⟨.denied, bindingSnapshot evals false, []⟩, evals.foldl countDenial state)

/-- The opportunistic sweep: at most once in an idle window. -/
def sweep (now : ℚ) : State :=
  match q.idleTtl with
  | some ttl => if durationSince now state.lastReap ≥ ttl then (reapIdleLocked state ttl now).2 else state
  | none => state

/-- `QuotaEnforcer::admit`: admit or deny a spend. -/
def admitSpend (scope : Scope) (dimension : QuotaDimension) (cost now : ℚ) : QuotaOutcome × State :=
  let cost := max cost 0
  let swept := q.sweep state now
  let tenant := q.evalTenant swept scope.tenantOf dimension cost now
  let environment :=
    match scope with
    | .tenant _ => (none, tenant.2)
    | .environment t e => q.evalEnvironment tenant.2 t e dimension cost now
  q.settle (tenant.1.toList ++ environment.1.toList) environment.2 now

/-- `reap_idle_buckets`: force a sweep. -/
def reapIdleBuckets (now : ℚ) : ℕ × State :=
  match q.idleTtl with
  | some ttl => reapIdleLocked state ttl now
  | none => (0, state)

end QuotaEnforcer

/-! ### Overrides -/

/-- Override the limits of a scope. -/
def State.setOverride (limits : ScopeLimits) : State :=
  { state with overrides := state.overrides.insert scope limits }

/-- Remove an override. -/
def State.clearOverride : State :=
  { state with overrides := state.overrides.erase scope }

/-- `set_tenant_override`. -/
def setTenantOverride : ScopeLimits → State := state.setOverride (.tenant tenant)

/-- `clear_tenant_override`. -/
def clearTenantOverride : State := state.clearOverride (.tenant tenant)

/-- `set_environment_override`. -/
def setEnvironmentOverride (environment : EnvironmentId) : ScopeLimits → State :=
  state.setOverride (.environment tenant environment)

/-- `clear_environment_override`. -/
def clearEnvironmentOverride (environment : EnvironmentId) : State :=
  state.clearOverride (.environment tenant environment)

end IronAuth.Quota
