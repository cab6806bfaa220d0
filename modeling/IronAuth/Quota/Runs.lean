import IronAuth.Quota.Admission

/-!
# Runs of the quota enforcer

A run is a list of calls, each at a clock reading: spends, changes of overrides and
forced sweeps. All tenants share one bucket map and one sweep clock, so the calls of
one tenant decide when the buckets of another are dropped and created again.

Two states are `Coupled` when they agree on the overrides and the levels of some scopes.
A sweep of either state keeps them coupled, as long as limits recover within the idle
window; so does the same call on both.
-/

namespace IronAuth.Quota

open Lib Lib.Machine Option

/-- The calls on an enforcer that read or change its state. -/
inductive Call where
  | spend (scope : Scope) (dimension : QuotaDimension) (cost : ℚ)
  | setTenantOverride (tenant : TenantId) (limits : ScopeLimits)
  | clearTenantOverride (tenant : TenantId)
  | setEnvironmentOverride (tenant : TenantId) (environment : EnvironmentId) (limits : ScopeLimits)
  | clearEnvironmentOverride (tenant : TenantId) (environment : EnvironmentId)
  | reapIdleBuckets

/-- The tenant a call names. -/
def Call.tenant? : Call → Option TenantId
  | spend scope _ _ => some scope.tenantOf
  | setTenantOverride tenant _ => some tenant
  | clearTenantOverride tenant => some tenant
  | setEnvironmentOverride tenant _ _ => some tenant
  | clearEnvironmentOverride tenant _ => some tenant
  | reapIdleBuckets => none

/-- A call that changes no override. -/
def Call.keepsLimits : Call → Bool
  | spend _ _ _ => true
  | reapIdleBuckets => true
  | _ => false

/-- A call and the clock reading it is made at. -/
abbrev TimedCall := ℚ × Call

/-- What a spend is told. -/
abbrev Reply := Decision × RateLimitSnapshot

/-- The clock never runs back. -/
def Chronological (calls : List TimedCall) : Prop := calls.Pairwise fun c1 c2 => c1.1 ≤ c2.1

namespace QuotaEnforcer

/-- One call. -/
def step (q : QuotaEnforcer) (state : State) (call : TimedCall) : Option Reply × State :=
  match call.2 with
  | .spend scope dimension cost =>
    let outcome := q.admitSpend state scope dimension cost call.1
    (some (outcome.1.decision, outcome.1.snapshot), outcome.2)
  | .setTenantOverride tenant limits => (none, Quota.setTenantOverride state tenant limits)
  | .clearTenantOverride tenant => (none, Quota.clearTenantOverride state tenant)
  | .setEnvironmentOverride tenant environment limits =>
    (none, Quota.setEnvironmentOverride state tenant environment limits)
  | .clearEnvironmentOverride tenant environment => (none, Quota.clearEnvironmentOverride state tenant environment)
  | .reapIdleBuckets => (none, (q.reapIdleBuckets state call.1).2)

/-- Two states agree on the overrides of the scopes `P` and on the levels under the limits `Q`, from
`now` on. -/
structure Coupled (P : Scope → Prop) (Q : Scope → QuotaDimension → Limit → Prop) (now : ℚ) (s1 s2 : State) : Prop where
  left : s1.Sound now
  right : s2.Sound now
  overrides : ∀ s, P s → s1.overrides.lookup s = s2.overrides.lookup s
  levels : ∀ s d limit, Q s d limit → ∀ time, now ≤ time →
    level limit (s1.meter? s d) time = level limit (s2.meter? s d) time

variable {q : QuotaEnforcer} {P : Scope → Prop} {Q : Scope → QuotaDimension → Limit → Prop} {now : ℚ}
  {state s1 s2 : State} {scope : Scope} {dimension : QuotaDimension} {cost : ℚ}

theorem mem_path_tenantOf {s : Scope} (h : s ∈ scope.path) : s.tenantOf = scope.tenantOf := by
  cases scope with
  | tenant t => rw [List.mem_singleton.mp h]
  | environment t e =>
    rcases List.mem_pair.mp h with rfl | rfl
    · rfl
    · rfl

/-- A spend leaves no debt. -/
theorem sound_admitSpend (h : state.Sound now) : (q.admitSpend state scope dimension cost now).2.Sound now := by
  have hs : (q.sweep state now).Sound now := sound_sweep h
  intro s d meter hmt
  rw [(admitSpend_overrides_meter? q state scope dimension cost now).2] at hmt
  split at hmt
  · rename_i hk
    split at hmt
    · rename_i limit hl
      rw [Option.some.injEq] at hmt
      refine ⟨?_, le_of_eq (hmt ▸ rfl)⟩
      have ht := congrArg Meter.tokens hmt
      rw [← ht]
      split
      · rename_i ha
        have hfd : q.scopeLimit (q.sweep state now) s dimension = some limit :=
          (scopeLimit_congr overrides_sweep).trans (hk.2 ▸ hl)
        rw [hk.2]
        exact sub_nonneg.mpr (affords_iff.mp ha s hk.1 limit hfd)
      · rw [sub_zero]
        exact level_nonneg fun m hm => (hs s d m hm).1
    · exact hs s d meter hmt
  · exact hs s d meter hmt

namespace Coupled

theorem refl (h : state.Sound now) : Coupled P Q now state state :=
  ⟨h, h, fun _ _ => rfl, fun _ _ _ _ _ _ => rfl⟩

section

variable (h : Coupled P Q now s1 s2)

include h

theorem symm : Coupled P Q now s2 s1 :=
  ⟨h.right, h.left, fun s hs => (h.overrides s hs).symm, fun s d limit hl t ht =>
    (h.levels s d limit hl t ht).symm⟩

theorem trans {s3 : State} (h2 : Coupled P Q now s2 s3) : Coupled P Q now s1 s3 :=
  ⟨h.left, h2.right, fun s hs => (h.overrides s hs).trans (h2.overrides s hs), fun s d limit hl t ht =>
    (h.levels s d limit hl t ht).trans (h2.levels s d limit hl t ht)⟩

theorem mono {ti : ℚ} (hti : now ≤ ti) : Coupled P Q ti s1 s2 :=
  ⟨h.left.mono hti, h.right.mono hti, h.overrides, fun s d limit hl t ht =>
    h.levels s d limit hl t (hti.trans ht)⟩

theorem scopeLimit_eq {s : Scope} {d : QuotaDimension} (hs : P s) :
    q.scopeLimit s1 s d = q.scopeLimit s2 s d := by
  rw [scopeLimit, scopeLimit, h.overrides s hs]

end

/-- A state is coupled with itself after a sweep. -/
theorem reapIdleBuckets (h : state.Sound now) (hQ : ∀ s d limit, Q s d limit → q.Recovers limit) :
    Coupled P Q now (q.reapIdleBuckets state now).2 state where
  left := sound_reapIdleBuckets h
  right := h
  overrides s _ := by rw [overrides_reapIdleBuckets]
  levels s d limit hl _ ht := level_reapIdleBuckets h (hQ s d limit hl) ht

theorem sweep (h : state.Sound now) (hQ : ∀ s d limit, Q s d limit → q.Recovers limit) :
    Coupled P Q now (q.sweep state now) state where
  left := sound_sweep h
  right := h
  overrides s _ := by rw [overrides_sweep]
  levels s d limit hl _ ht := level_sweep h (hQ s d limit hl) ht

/-- The same spend on coupled states gets the same reply and leaves them coupled. -/
theorem admitSpend (h : Coupled P Q now s1 s2) (cost : ℚ)
    (hQ : ∀ s d limit, Q s d limit → q.Recovers limit)
    (hP : ∀ s ∈ scope.path, P s)
    (hl : ∀ s ∈ scope.path, ∀ limit, q.scopeLimit s1 s dimension = some limit → Q s dimension limit) :
    (q.admitSpend s1 scope dimension cost now).1.decision = (q.admitSpend s2 scope dimension cost now).1.decision ∧
      (q.admitSpend s1 scope dimension cost now).1.snapshot = (q.admitSpend s2 scope dimension cost now).1.snapshot ∧
      Coupled P Q now (q.admitSpend s1 scope dimension cost now).2 (q.admitSpend s2 scope dimension cost now).2 := by
  have hsw : Coupled P Q now (q.sweep s1 now) (q.sweep s2 now) :=
    ((sweep h.left hQ).trans h).trans (sweep h.right hQ).symm
  -- both spends find the same limits and the same levels
  have hlm : ∀ s ∈ scope.path, ∀ d, q.scopeLimit s1 s d = q.scopeLimit s2 s d := fun s hs d => h.scopeLimit_eq (hP s hs)
  have hle : ∀ s ∈ scope.path, ∀ limit, q.scopeLimit s1 s dimension = some limit →
      level limit ((q.sweep s1 now).meter? s dimension) now = level limit ((q.sweep s2 now).meter? s dimension) now :=
    fun s hs limit heq => hsw.levels s dimension limit (hl s hs limit heq) now (le_refl _)
  have he : q.evals (q.sweep s1 now) scope.path dimension (max cost 0) now =
      q.evals (q.sweep s2 now) scope.path dimension (max cost 0) now := by
    refine List.filterMap_congr fun s hs => ?_
    rw [scopeLimit_congr overrides_sweep, scopeLimit_congr overrides_sweep, ← hlm s hs]
    cases heq : q.scopeLimit s1 s dimension with
    | none => rfl
    | some limit => rw [map_some, map_some, hle s hs limit heq]
  have ha : q.affords (q.sweep s1 now) scope dimension (max cost 0) now =
      q.affords (q.sweep s2 now) scope dimension (max cost 0) now := by rw [affords, affords, he]
  refine ⟨?_, ?_, ⟨sound_admitSpend h.left, sound_admitSpend h.right, fun s hs => ?_, fun s d limit hq t ht => ?_⟩⟩
  · rw [admitSpend_decision, admitSpend_decision, ha]
  · rw [admitSpend_snapshot, admitSpend_snapshot, he, ha]
  · rw [(admitSpend_overrides_meter? q s1 scope dimension cost now).1,
      (admitSpend_overrides_meter? q s2 scope dimension cost now).1, h.overrides s hs]
  · rw [(admitSpend_overrides_meter? q s1 scope dimension cost now).2,
      (admitSpend_overrides_meter? q s2 scope dimension cost now).2]
    have hk := hsw.levels s d limit hq t ht
    by_cases hke : s ∈ scope.path ∧ d = dimension
    · rw [if_pos hke, if_pos hke, ← hlm s hke.1]
      cases heq : q.scopeLimit s1 s d with
      | none => exact hk
      | some c =>
        rw [ha]
        simp [hke.2, hle s hke.1 c (hke.2 ▸ heq)]
    · rw [if_neg hke, if_neg hke]
      exact hk

/-- Only overrides of the scopes `P` matter. -/
theorem withOverrides {t1 t2 : State} (h : Coupled P Q now s1 s2) (h1 : t1.buckets = s1.buckets)
    (h2 : t2.buckets = s2.buckets) (hov : ∀ s, P s → t1.overrides.lookup s = t2.overrides.lookup s) :
    Coupled P Q now t1 t2 := by
  have hmt : ∀ {t u : State}, t.buckets = u.buckets → ∀ s d, t.meter? s d = u.meter? s d := by
    intro t u hb s d
    rw [State.meter?, State.bucket?, hb]
    rfl
  exact ⟨fun s d meter hm => h.left s d meter (hmt h1 s d ▸ hm),
    fun s d meter hm => h.right s d meter (hmt h2 s d ▸ hm), hov,
    fun s d limit hl ti ht => by rw [hmt h1, hmt h2, h.levels s d limit hl ti ht]⟩

end Coupled

end QuotaEnforcer

/-- A change of the override of one scope, and of nothing else a spend sees. -/
structure OverridesAt (f : State → State) (scope : Scope) (limits : Option ScopeLimits) : Prop where
  buckets : ∀ state, (f state).buckets = state.buckets
  lookup : ∀ state s, (f state).overrides.lookup s = if s = scope then limits else state.overrides.lookup s

theorem overridesAt_setOverride (scope : Scope) (l : ScopeLimits) :
    OverridesAt (fun state => state.setOverride scope l) scope (some l) := by
  refine ⟨fun _ => rfl, fun state s => ?_⟩
  split
  · rename_i heq
    exact heq ▸ AList.lookup_insert _
  · rename_i hne
    exact AList.lookup_insert_ne hne

theorem overridesAt_clearOverride (scope : Scope) : OverridesAt (fun state => state.clearOverride scope) scope none := by
  refine ⟨fun _ => rfl, fun state s => ?_⟩
  split
  · rename_i heq
    exact heq ▸ AList.lookup_erase _ _
  · rename_i hne
    exact AList.lookup_erase_ne hne

namespace QuotaEnforcer

/-- A call is a spend, a forced sweep, or a change of one override of the tenant it names. -/
theorem call_cases (q : QuotaEnforcer) (now : ℚ) (call : Call) :
    (∃ scope dimension cost, call = .spend scope dimension cost) ∨ call = .reapIdleBuckets ∨
      ∃ scope limits, call.keepsLimits = false ∧ call.tenant? = some scope.tenantOf ∧ (∀ state, (q.step state (now, call)).1 = none) ∧
        OverridesAt (fun state => (q.step state (now, call)).2) scope limits := by
  cases call with
  | spend scope dimension cost => exact Or.inl ⟨scope, dimension, cost, rfl⟩
  | setTenantOverride t limits =>
    exact Or.inr (Or.inr ⟨.tenant t, _, rfl, rfl, fun _ => rfl, overridesAt_setOverride _ limits⟩)
  | clearTenantOverride t => exact Or.inr (Or.inr ⟨.tenant t, _, rfl, rfl, fun _ => rfl, overridesAt_clearOverride _⟩)
  | setEnvironmentOverride t e limits =>
    exact Or.inr (Or.inr ⟨.environment t e, _, rfl, rfl, fun _ => rfl, overridesAt_setOverride _ limits⟩)
  | clearEnvironmentOverride t e =>
    exact Or.inr (Or.inr ⟨.environment t e, _, rfl, rfl, fun _ => rfl, overridesAt_clearOverride _⟩)
  | reapIdleBuckets => exact Or.inr (Or.inl rfl)

theorem overrides_step (q : QuotaEnforcer) (state : State) {call : TimedCall} (hc : call.2.keepsLimits = true) :
    (q.step state call).2.overrides = state.overrides := by
  obtain ⟨now, call⟩ := call
  cases call with
  | spend scope dimension cost => exact (admitSpend_overrides_meter? q state scope dimension cost now).1
  | reapIdleBuckets => exact overrides_reapIdleBuckets
  | _ => cases hc

/-- A call leaves the overrides of other tenants. -/
theorem lookup_overrides_step (q : QuotaEnforcer) (state : State) {call : TimedCall} {s : Scope}
    (hc : call.2.keepsLimits = true ∨ call.2.tenant? ≠ some s.tenantOf) :
    (q.step state call).2.overrides.lookup s = state.overrides.lookup s := by
  rcases q.call_cases call.1 call.2 with ⟨scope, dimension, cost, heq⟩ | heq | ⟨scope, limits, hkp, hsc, -, hch⟩
  · rw [q.overrides_step state (heq ▸ rfl)]
  · rw [q.overrides_step state (heq ▸ rfl)]
  · have hne : call.2.tenant? ≠ some s.tenantOf := hc.resolve_left (by simp [hkp])
    exact (hch.lookup state s).trans (if_neg fun heq : s = scope => hne (heq ▸ hsc))

/-- The same call on coupled states is answered alike and leaves them coupled, if it spends only where
they agree. -/
theorem Coupled.step {P : Scope → Prop} {Q : Scope → QuotaDimension → Limit → Prop} {q : QuotaEnforcer} {now : ℚ}
    {s1 s2 : State} {call : Call} (h : Coupled P Q now s1 s2) (hQ : ∀ s d limit, Q s d limit → q.Recovers limit)
    (hc : ∀ scope dimension cost, call = .spend scope dimension cost → ∀ s ∈ scope.path,
      P s ∧ ∀ limit, q.scopeLimit s1 s dimension = some limit → Q s dimension limit) :
    (q.step s1 (now, call)).1 = (q.step s2 (now, call)).1 ∧
      Coupled P Q now (q.step s1 (now, call)).2 (q.step s2 (now, call)).2 := by
  rcases q.call_cases now call with ⟨scope, dimension, cost, rfl⟩ | rfl | ⟨scope, limits, -, -, ha, hch⟩
  · have hp := hc scope dimension cost rfl
    obtain ⟨hd, hsn, hn⟩ :=
      h.admitSpend cost hQ (fun s hs => (hp s hs).1) fun s hs limit => (hp s hs).2 limit
    exact ⟨congrArg some (Prod.ext hd hsn), hn⟩
  · exact ⟨rfl, ((Coupled.reapIdleBuckets h.left hQ).trans h).trans (Coupled.reapIdleBuckets h.right hQ).symm⟩
  · refine ⟨(ha s1).trans (ha s2).symm, h.withOverrides (hch.buckets s1) (hch.buckets s2) fun s hs => ?_⟩
    rw [hch.lookup, hch.lookup, h.overrides s hs]

/-! ### Isolation -/

/-- The limits in force for a tenant recover within the idle window. -/
def TenantRecovers (q : QuotaEnforcer) (tenant : TenantId) (state : State) : Prop :=
  ∀ s d limit, s.tenantOf = tenant → q.scopeLimit state s d = some limit → q.Recovers limit

/-- The states look the same to a tenant. -/
abbrev LooksAlike (q : QuotaEnforcer) (tenant : TenantId) : ℚ → State → State → Prop :=
  Coupled (fun s => s.tenantOf = tenant) fun s _ limit => s.tenantOf = tenant ∧ q.Recovers limit

variable {q : QuotaEnforcer} {tenant : TenantId} {now : ℚ} {s1 s2 : State} {call : Call}

/-- The same call, by the tenant or by none, is answered alike and keeps the states alike. -/
theorem LooksAlike.step (h : q.LooksAlike tenant now s1 s2) (hl : q.TenantRecovers tenant s1)
    (hc : call.tenant? = some tenant ∨ call.tenant? = none) :
    (q.step s1 (now, call)).1 = (q.step s2 (now, call)).1 ∧
      q.LooksAlike tenant now (q.step s1 (now, call)).2 (q.step s2 (now, call)).2 := by
  refine Coupled.step h (fun _ _ _ hlm => hlm.2) ?_
  rintro scope dimension cost rfl s hs
  have ht : s.tenantOf = tenant := (mem_path_tenantOf hs).trans (by simpa [Call.tenant?] using hc)
  exact ⟨ht, fun limit hlm => ⟨ht, hl s dimension limit ht hlm⟩⟩

/-- A call by another tenant does not show. -/
theorem LooksAlike.step_other (h : q.LooksAlike tenant now s1 s2) {o : TenantId} (hc : call.tenant? = some o)
    (ho : o ≠ tenant) : q.LooksAlike tenant now (q.step s1 (now, call)).2 s2 := by
  have hQ : ∀ (s : Scope) (d : QuotaDimension) limit, s.tenantOf = tenant ∧ q.Recovers limit → q.Recovers limit :=
    fun _ _ _ hl => hl.2
  rcases q.call_cases now call with ⟨scope, dimension, cost, rfl⟩ | rfl | ⟨scope, limits, -, hsc, -, hch⟩
  · have hne : scope.tenantOf ≠ tenant := (some.inj hc).symm ▸ ho
    obtain ⟨hov, hm⟩ := admitSpend_overrides_meter? q s1 scope dimension cost now
    -- outside the path of the spend only the sweep can be seen
    have hsw : q.LooksAlike tenant now (q.sweep s1 now) s2 := (Coupled.sweep h.left hQ).trans h
    refine ⟨sound_admitSpend h.left, h.right, fun s hs => ?_, fun s d limit hl t ht => ?_⟩
    · rw [← h.overrides s hs]
      exact congrArg (AList.lookup s) hov
    · refine Eq.trans (congrArg (fun m => level limit m t) ((hm s d).trans ?_))
        (hsw.levels s d limit hl t ht)
      exact if_neg fun hk => hne ((mem_path_tenantOf hk.1).symm.trans hl.1)
  · exact (Coupled.reapIdleBuckets h.left hQ).trans h
  · have hne : scope.tenantOf ≠ tenant := (some.inj (hsc.symm.trans hc)).symm ▸ ho
    refine h.withOverrides (hch.buckets s1) rfl fun s hs => ?_
    rw [hch.lookup, if_neg (fun heq : s = scope => hne (heq ▸ hs)), h.overrides s hs]

/-- **Tenant isolation.** When the limits in force for a tenant recover within the idle window, deleting
the calls that name other tenants changes no reply to this one. -/
theorem tenant_isolation (q : QuotaEnforcer) (tenant : TenantId) (start : ℚ) {calls : List TimedCall}
    (hclock : Chronological calls)
    (hlimits : Along q.step (fun state _ => q.TenantRecovers tenant state) (State.initial start) calls) :
    (transcript q.step (State.initial start) calls).filter (fun entry => entry.1.2.tenant? = some tenant) =
      (transcript q.step (State.initial start)
        (calls.filter fun call => call.2.tenant? = some tenant ∨ call.2.tenant? = none)).filter
        fun entry => entry.1.2.tenant? = some tenant := by
  refine filter_transcript_eq
    (R := fun s1 s2 calls => (∀ call ∈ calls, q.LooksAlike tenant call.1 s1 s2) ∧ Chronological calls ∧
      Along q.step (fun state _ => q.TenantRecovers tenant state) s1 calls)
    (fun call => call.2.tenant? = some tenant ∨ call.2.tenant? = none) (fun call => call.2.tenant? = some tenant)
    ?_ ?_ ⟨fun call _ => Coupled.refl (State.sound_initial start call.1), hclock, hlimits⟩
  · intro s1 s2 call calls hR hke
    obtain ⟨hal, hclock, hlimits, hre⟩ := hR
    obtain ⟨hla, hclock⟩ := List.pairwise_cons.mp hclock
    obtain ⟨han, hnex⟩ := (hal call List.mem_cons_self).step hlimits (of_decide_eq_true hke)
    exact ⟨fun _ => han, fun lat hmem => hnex.mono (hla lat hmem), hclock, hre⟩
  · intro s1 s2 call calls hR hdr
    obtain ⟨hal, hclock, -, hre⟩ := hR
    obtain ⟨hla, hclock⟩ := List.pairwise_cons.mp hclock
    have hna := not_or.mp (of_decide_eq_false hdr)
    obtain ⟨other, hot⟩ := ne_none_iff_exists'.mp hna.2
    have hne : other ≠ tenant := fun heq => hna.1 (heq ▸ hot)
    have hnex := (hal call List.mem_cons_self).step_other hot hne
    exact ⟨decide_eq_false hna.1, fun lat hmem => hnex.mono (hla lat hmem), hclock, hre⟩

end QuotaEnforcer

/-! ### A fleet of two tenants -/

/-- Two requests a second with a burst of four for a tenant, one with a burst of two for an
environment, and an idle window of a minute. -/
def smallFleet : QuotaEnforcer where
  tiers := ⟨{ requests := some (.new 2 4) }, { requests := some (.new 1 2) }⟩
  thresholds := [80, 100]
  idleTtl := some 60

/-- `acme` spends its burst; `globex` calls in between, once late enough to sweep the bucket of `acme`. -/
def smallFleetCalls : List TimedCall :=
  [(0, .spend (.environment "acme" "prod") .requests 2),
    (0, .setTenantOverride "globex" { requests := some (.new 0 1) }),
    (1, .spend (.tenant "globex") .requests 1),
    (1, .spend (.environment "acme" "prod") .requests 2),
    (61, .spend (.tenant "globex") .requests 1),
    (62, .spend (.environment "acme" "prod") .requests 2)]

theorem smallFleet_recovers {tenant : TenantId} {state : State}
    (h : ∀ s : Scope, s.tenantOf = tenant → state.overrides.lookup s = none) : smallFleet.TenantRecovers tenant state := by
  intro s d limit hs hl
  rw [QuotaEnforcer.scopeLimit, h s hs] at hl
  intro ttl ht
  obtain rfl : 60 = ttl := some.inj ht
  cases s <;> cases d <;> cases hl <;> decide +kernel

theorem smallFleet_isolated :
    Chronological smallFleetCalls ∧
      Along smallFleet.step (fun state _ => smallFleet.TenantRecovers "acme" state) (State.initial 0) smallFleetCalls ∧
      (transcript smallFleet.step (State.initial 0) smallFleetCalls).filter (fun entry => entry.1.2.tenant? = some "acme") =
        (transcript smallFleet.step (State.initial 0)
          (smallFleetCalls.filter fun call => call.2.tenant? = some "acme" ∨ call.2.tenant? = none)).filter
          fun entry => entry.1.2.tenant? = some "acme" := by
  have hcl : Chronological smallFleetCalls := by
    unfold Chronological
    decide +kernel
  have hfo : ∀ call ∈ smallFleetCalls, call.2.keepsLimits = true ∨ call.2.tenant? ≠ some "acme" := by
    decide +kernel
  have hli : Along smallFleet.step (fun state _ => smallFleet.TenantRecovers "acme" state) (State.initial 0)
      smallFleetCalls := by
    refine along_of_invariant
      (I := fun state calls => (∀ s : Scope, s.tenantOf = "acme" → state.overrides.lookup s = none) ∧
        ∀ call ∈ calls, call.2.keepsLimits = true ∨ call.2.tenant? ≠ some "acme")
      (fun state call calls h => ⟨smallFleet_recovers h.1, fun s hs => ?_, fun c hc => h.2 c (List.mem_cons_of_mem _ hc)⟩)
      ⟨fun _ _ => rfl, hfo⟩
    have hca := h.2 call List.mem_cons_self
    rw [smallFleet.lookup_overrides_step state (by rw [hs]; exact hca), h.1 s hs]
  exact ⟨hcl, hli, smallFleet.tenant_isolation "acme" 0 hcl hli⟩

/-- The replies to `acme`: spent, not yet refilled, and full again. -/
example : ((transcript smallFleet.step (State.initial 0) smallFleetCalls).filter fun entry =>
    entry.1.2.tenant? = some "acme").map (fun entry => entry.2.map Prod.fst) =
      [some .admitted, some .denied, some .admitted] := by
  decide +kernel

end IronAuth.Quota
