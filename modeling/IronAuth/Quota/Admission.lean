import IronAuth.Quota.Enforcer

/-!
# What an admission does

One statement for the whole admission path: which buckets it looks at, what it
decides, and what it leaves in them. All of it is a function of the effective limits
and of the `level` of each bucket on the path, where a bucket that is not live counts
as full. So a sweep that drops only full buckets changes nothing that can be seen.

## What is proved

* `admitSpend_decision`, `admitSpend_snapshot`, `admitSpend_overrides_meter?`: the specification of
  `admitSpend`.
* `level_sweep`, `level_reapIdleBuckets`: a sweep keeps every level, where limits recover within
  the idle window.
-/

namespace IronAuth.Quota

open Lib List

/-! ### Meters and levels -/

/-- The part of a bucket that decides admissions. -/
structure Meter where
  tokens : ℚ
  last : ℚ

/-- The meter of a bucket. -/
def Bucket.meter (bucket : Bucket) : Meter := ⟨bucket.tokens, bucket.last⟩

/-- The meter of a scope and dimension, if its bucket is live. -/
def State.meter? (state : State) (scope : Scope) (dimension : QuotaDimension) : Option Meter :=
  (state.bucket? scope dimension).map Bucket.meter

/-- The tokens a spend at `time` finds: a full burst if the bucket is not live. -/
def level (limit : Limit) (meter : Option Meter) (time : ℚ) : ℚ :=
  match meter with
  | none => limit.burst
  | some meter => TokenBucket.wait limit.burst limit.refillPerSec meter.tokens (durationSince time meter.last)

/-- The evaluation of a bucket that holds `tokens`. -/
def evalAt (scope : Scope) (dimension : QuotaDimension) (cost : ℚ) (limit : Limit) (tokens : ℚ) : Eval :=
  ⟨scope, dimension, limit, tokens, tokens - cost, decide (tokens ≥ cost)⟩

@[simp] theorem evalAt_scope (scope : Scope) (dimension : QuotaDimension) (cost : ℚ) (l : Limit) (t : ℚ) :
    (evalAt scope dimension cost l t).scope = scope := rfl

@[simp] theorem evalAt_dimension (scope : Scope) (dimension : QuotaDimension) (cost : ℚ) (l : Limit) (t : ℚ) :
    (evalAt scope dimension cost l t).dimension = dimension := rfl

/-- The evaluations of a spend: one for each limited scope. -/
def QuotaEnforcer.evals (q : QuotaEnforcer) (state : State) (scopes : List Scope) (dimension : QuotaDimension)
    (cost now : ℚ) : List Eval :=
  scopes.filterMap fun s => (q.scopeLimit state s dimension).map fun limit =>
    evalAt s dimension cost limit (level limit (state.meter? s dimension) now)

/-- Every bucket of a spend has the cost. -/
def QuotaEnforcer.affords (q : QuotaEnforcer) (state : State) (scope : Scope) (dimension : QuotaDimension)
    (cost now : ℚ) : Bool :=
  (q.evals state scope.path dimension cost now).all Eval.hasCapacity

variable {now time : ℚ} {me : Option Meter}

theorem durationSince_of_le {earlier : ℚ} (h : earlier ≤ now) : durationSince now earlier = now - earlier :=
  max_eq_left (sub_nonneg.mpr h)

@[simp] theorem durationSince_self (now : ℚ) : durationSince now now = 0 := by simp [durationSince]

theorem level_le_burst (l : Limit) (m : Option Meter) (t : ℚ) : level l m t ≤ l.burst := by
  cases m with
  | none => exact le_refl _
  | some m => exact TokenBucket.wait_le_burst

/-- A bucket refilled now holds its level. -/
theorem refill_meter (l : Limit) (bkt : Option Bucket) (now : ℚ) :
    ((bkt.getD (.full l now)).refill l now).meter = ⟨level l (bkt.map Bucket.meter) now, now⟩ := by
  cases bkt with
  | none =>
    rw [Option.getD_none, Bucket.refill, Bucket.full, Bucket.meter, durationSince_self, zero_mul, add_zero, min_self]
    rfl
  | some bkt => rfl

/-! ### Writing buckets -/

theorem State.meter?_setBucket (state : State) (s s2 : Scope) (d d2 : QuotaDimension) (bkt : Bucket) :
    (state.setBucket s d bkt).meter? s2 d2 =
      if s2 = s ∧ d2 = d then some bkt.meter else state.meter? s2 d2 := by
  unfold State.meter? State.bucket? State.setBucket
  by_cases hk : s2 = s ∧ d2 = d
  · obtain ⟨rfl, rfl⟩ := hk
    simp
  · rw [AList.lookup_insert_ne, if_neg hk]
    exact fun heq => hk (Prod.mk.inj heq)

namespace QuotaEnforcer

variable {q : QuotaEnforcer} {state : State} {scope s : Scope} {dimension d : QuotaDimension} {cost now : ℚ}

theorem scopeLimit_congr {s2 : State} (h : s2.overrides = state.overrides) :
    q.scopeLimit s2 s d = q.scopeLimit state s d := by
  rw [scopeLimit, scopeLimit, h]

/-- Evaluating a scope finds its level and leaves it there. -/
theorem evalScope_spec (l : Option Limit) (state : State) (scope : Scope) (dimension : QuotaDimension)
    (cost now : ℚ) :
    (evalScope l state scope dimension cost now).1 =
        l.map (fun l => evalAt scope dimension cost l (level l (state.meter? scope dimension) now)) ∧
      (evalScope l state scope dimension cost now).2.overrides = state.overrides ∧
      ∀ s d, (evalScope l state scope dimension cost now).2.meter? s d =
        match l with
        | some l =>
          if s = scope ∧ d = dimension then some ⟨level l (state.meter? scope dimension) now, now⟩
          else state.meter? s d
        | none => state.meter? s d := by
  cases l with
  | none => exact ⟨rfl, rfl, fun _ _ => rfl⟩
  | some l =>
    have hmt := refill_meter l (state.bucket? scope dimension) now
    refine ⟨?_, rfl, fun s d => ?_⟩
    · have ht := congrArg Meter.tokens hmt
      simp only [Bucket.meter] at ht
      simp only [evalScope, Option.map_some, ht]
      rfl
    · simp only [evalScope, State.meter?_setBucket, hmt]
      rfl

/-- One charge writes its meter, if that is live. -/
theorem charge_spec (q : QuotaEnforcer) (now : ℚ) (acc : State × List UsageEvent) (e : Eval) :
    (q.charge now acc e).1.overrides = acc.1.overrides ∧
      ∀ s d, (q.charge now acc e).1.meter? s d =
        if s = e.scope ∧ d = e.dimension then (acc.1.meter? s d).map fun _ => ⟨max e.tokensAfter 0, now⟩
        else acc.1.meter? s d := by
  unfold charge
  split
  · rename_i b hbk
    refine ⟨rfl, fun s d => ?_⟩
    rw [State.meter?_setBucket]
    split
    · rename_i hk
      rw [hk.1, hk.2, State.meter?, hbk]
      rfl
    · rfl
  · rename_i hbk
    refine ⟨rfl, fun s d => ?_⟩
    split
    · rename_i hk
      rw [hk.1, hk.2, State.meter?, hbk]
      rfl
    · rfl

/-- Charging writes the charged meters, and only those. -/
theorem meter?_foldl_charge (q : QuotaEnforcer) (now : ℚ) {ev : List Eval}
    (hnd : (ev.map fun e => (e.scope, e.dimension)).Nodup)
    (acc : State × List UsageEvent) :
    (ev.foldl (q.charge now) acc).1.overrides = acc.1.overrides ∧
      ∀ s d, (ev.foldl (q.charge now) acc).1.meter? s d =
        match ev.find? fun e => decide (e.scope = s ∧ e.dimension = d) with
        | some e => (acc.1.meter? s d).map fun _ => ⟨max e.tokensAfter 0, now⟩
        | none => acc.1.meter? s d := by
  induction ev generalizing acc with
  | nil => exact ⟨rfl, fun _ _ => rfl⟩
  | cons e ev ih =>
    rw [map_cons, nodup_cons] at hnd
    obtain ⟨hov, hm⟩ := ih hnd.2 (q.charge now acc e)
    obtain ⟨hov1, hm1⟩ := charge_spec q now acc e
    refine ⟨hov.trans hov1, fun s d => ?_⟩
    rw [foldl_cons, hm, List.find?_cons, hm1]
    by_cases hk : e.scope = s ∧ e.dimension = d
    · have hn : (ev.find? fun e => decide (e.scope = s ∧ e.dimension = d)) = none := by
        refine List.find?_eq_none.mpr fun e2 he2 heq => hnd.1 ?_
        rw [decide_eq_true_eq] at heq
        rw [hk.1, hk.2, ← heq.1, ← heq.2]
        exact mem_map_of_mem he2
      rw [hn]
      simp [hk]
    · have hk2 : ¬ (s = e.scope ∧ d = e.dimension) := fun heq => hk ⟨heq.1.symm, heq.2.symm⟩
      simp [hk, hk2]

/-- Counting denials changes no meter. -/
theorem meter?_foldl_countDenial (ev : List Eval) (state : State) :
    (ev.foldl countDenial state).overrides = state.overrides ∧
      ∀ s d, (ev.foldl countDenial state).meter? s d = state.meter? s d := by
  induction ev generalizing state with
  | nil => exact ⟨rfl, fun _ _ => rfl⟩
  | cons e ev ih =>
    have ho : (countDenial state e).overrides = state.overrides ∧
        ∀ s d, (countDenial state e).meter? s d = state.meter? s d := by
      unfold countDenial
      split
      · exact ⟨rfl, fun _ _ => rfl⟩
      · unfold State.updateBucket
        split
        · rename_i bkt hbk
          refine ⟨rfl, fun s d => ?_⟩
          rw [State.meter?_setBucket]
          split
          · rename_i hk
            rw [hk.1, hk.2, State.meter?, hbk]
            rfl
          · rfl
        · exact ⟨rfl, fun _ _ => rfl⟩
    obtain ⟨hov, hm⟩ := ih (countDenial state e)
    exact ⟨hov.trans ho.1, fun s d => (hm s d).trans (ho.2 s d)⟩

/-! ### The specification of an admission -/

/-- Sweeping changes no override. -/
@[simp] theorem overrides_sweep : (q.sweep state now).overrides = state.overrides := by
  unfold sweep
  split
  · split <;> rfl
  · rfl

/-- An empty evaluation is an admission that charges nothing. -/
theorem settle_eq (e : List Eval) (state : State) (now : ℚ) :
    q.settle e state now =
      if e.all Eval.hasCapacity then
        (⟨.admitted, bindingSnapshot e true, (e.foldl (q.charge now) (state, [])).2⟩,
          (e.foldl (q.charge now) (state, [])).1)
      else (⟨.denied, bindingSnapshot e false, []⟩, e.foldl countDenial state) := by
  cases e with
  | nil | cons => rfl

/-- The evaluations of some scopes, in order. -/
def evalPath (q : QuotaEnforcer) (dimension : QuotaDimension) (cost now : ℚ) : List Scope → State → List Eval × State
  | [], state => ([], state)
  | s :: scopes, state =>
    let first := evalScope (q.scopeLimit state s dimension) state s dimension cost now
    let rest := evalPath q dimension cost now scopes first.2
    (first.1.toList ++ rest.1, rest.2)

theorem admitSpend_eq_evalPath (q : QuotaEnforcer) (state : State) (scope : Scope) (dimension : QuotaDimension)
    (cost now : ℚ) :
    q.admitSpend state scope dimension cost now =
      q.settle (q.evalPath dimension (max cost 0) now scope.path (q.sweep state now)).1
        (q.evalPath dimension (max cost 0) now scope.path (q.sweep state now)).2 now := by
  cases scope with
  | tenant t => rfl
  | environment t e => simp [admitSpend, evalPath, Scope.path, Scope.tenantOf, evalTenant, evalEnvironment, tenantLimit,
      environmentLimit]

variable {sc : List Scope}

/-- Distinct scopes are evaluated each on its own. -/
theorem evalPath_spec (q : QuotaEnforcer) (dimension : QuotaDimension) (cost now : ℚ)
    (hnd : sc.Nodup) (state : State) :
    (q.evalPath dimension cost now sc state).1 = q.evals state sc dimension cost now ∧
      (q.evalPath dimension cost now sc state).2.overrides = state.overrides ∧
      ∀ s d, (q.evalPath dimension cost now sc state).2.meter? s d =
        if s ∈ sc ∧ d = dimension then
          match q.scopeLimit state s d with
          | some limit => some ⟨level limit (state.meter? s d) now, now⟩
          | none => state.meter? s d
        else state.meter? s d := by
  induction sc generalizing state with
  | nil => exact ⟨rfl, rfl, fun _ _ => by simp [evalPath]⟩
  | cons s1 sc ih =>
    rw [nodup_cons] at hnd
    obtain ⟨he, hov, hm⟩ :=
      evalScope_spec (q.scopeLimit state s1 dimension) state s1 dimension cost now
    obtain ⟨hev, hov2, hm2⟩ :=
      ih hnd.2 (evalScope (q.scopeLimit state s1 dimension) state s1 dimension cost now).2
    -- the first scope keeps what the others see
    have hl : ∀ s d, q.scopeLimit (evalScope (q.scopeLimit state s1 dimension) state s1 dimension cost now).2 s d =
        q.scopeLimit state s d := fun s d => scopeLimit_congr hov
    have ho : ∀ s d, s ≠ s1 →
        (evalScope (q.scopeLimit state s1 dimension) state s1 dimension cost now).2.meter? s d = state.meter? s d := by
      intro s d hne
      rw [hm]
      split
      · rw [if_neg fun hk => hne hk.1]
      · rfl
    refine ⟨?_, hov2.trans hov, fun s d => ?_⟩
    · rw [evalPath, hev, he, evals, evals, filterMap_cons]
      have hr : ∀ s ∈ sc, s ≠ s1 := fun s hs heq => hnd.1 (heq ▸ hs)
      rw [filterMap_congr (g := fun s => (q.scopeLimit state s dimension).map fun limit =>
        evalAt s dimension cost limit (level limit (state.meter? s dimension) now))
        (fun s hs => by rw [hl, ho s dimension (hr s hs)])]
      cases q.scopeLimit state s1 dimension <;> rfl
    · rw [evalPath, hm2, hl]
      by_cases hs : s = s1
      · rw [if_neg (hs ▸ fun hin => hnd.1 hin.1), hm, hs]
        by_cases hd : d = dimension
        · rw [if_pos ⟨mem_cons_self, hd⟩, hd]
          cases q.scopeLimit state s1 dimension <;> simp
        · rw [if_neg fun hin => hd hin.2]
          cases q.scopeLimit state s1 dimension <;> simp [hd]
      · simp [ho s d hs, hs]

theorem nodup_path (scope : Scope) : scope.path.Nodup := by
  cases scope <;> simp [Scope.path]

/-- Each limited scope has its evaluation, and there is no other. -/
theorem find?_evals (sc : List Scope) :
    ((q.evals state sc dimension cost now).find? fun e => decide (e.scope = s ∧ e.dimension = d)) =
      if s ∈ sc ∧ d = dimension then
        (q.scopeLimit state s dimension).map fun limit =>
          evalAt s dimension cost limit (level limit (state.meter? s dimension) now)
      else none := by
  unfold evals
  induction sc with
  | nil => simp
  | cons s1 sc ih =>
    rw [filterMap_cons]
    by_cases hk : s1 = s ∧ dimension = d
    · obtain ⟨rfl, rfl⟩ := hk
      cases hl : q.scopeLimit state s1 dimension with
      | none => simp only [Option.map_none, ih, hl, ite_self]
      | some limit => simp
    · have hm : (s ∈ s1 :: sc ∧ d = dimension) ↔ (s ∈ sc ∧ d = dimension) := by grind
      cases hl : q.scopeLimit state s1 dimension with
      | none => simp only [Option.map_none, ih, hm]
      | some limit =>
        simp only [Option.map_some, List.find?_cons, evalAt_scope, evalAt_dimension, hk, decide_false, ih, hm]

theorem nodup_map_evals (q : QuotaEnforcer) (state : State) (dimension : QuotaDimension) (cost now : ℚ)
    (hnd : sc.Nodup) :
    ((q.evals state sc dimension cost now).map fun e => (e.scope, e.dimension)).Nodup := by
  have hs : (q.evals state sc dimension cost now).map (fun e => (e.scope, e.dimension)) =
      (sc.filter fun s => (q.scopeLimit state s dimension).isSome).map fun s => (s, dimension) := by
    unfold evals
    clear hnd
    induction sc with
    | nil => rfl
    | cons s sc ih => cases hl : q.scopeLimit state s dimension <;> simp [hl, ih]
  rw [hs]
  exact (hnd.filter _).map fun _ _ heq => (Prod.mk.inj heq).1

/-- A spend is afforded when the level of each limited scope of its path covers it. -/
theorem affords_iff :
    q.affords state scope dimension cost now = true ↔
      ∀ s ∈ scope.path, ∀ limit, q.scopeLimit state s dimension = some limit →
        cost ≤ level limit (state.meter? s dimension) now := by
  unfold affords evals
  rw [all_eq_true]
  constructor
  · intro ha s hs limit hl
    refine of_decide_eq_true (ha (evalAt s dimension cost limit _) (mem_filterMap.mpr ⟨s, hs, ?_⟩))
    rw [hl]
    rfl
  · intro ha e he
    obtain ⟨s, hs, heq⟩ := mem_filterMap.mp he
    obtain ⟨limit, hl, rfl⟩ := Option.map_eq_some_iff.mp heq
    exact decide_eq_true (ha s hs limit hl)

section Admit

variable (q state scope dimension cost now)

/-- An admission is granted exactly when every bucket of its path affords the cost. -/
theorem admitSpend_decision :
    (q.admitSpend state scope dimension cost now).1.decision =
      if q.affords (q.sweep state now) scope dimension (max cost 0) now then .admitted else .denied := by
  rw [admitSpend_eq_evalPath, (evalPath_spec q dimension _ now (nodup_path scope) _).1, settle_eq, affords]
  split <;> rfl

/-- The snapshot is the one of the binding bucket. -/
theorem admitSpend_snapshot :
    (q.admitSpend state scope dimension cost now).1.snapshot =
      bindingSnapshot (q.evals (q.sweep state now) scope.path dimension (max cost 0) now)
        (q.affords (q.sweep state now) scope dimension (max cost 0) now) := by
  rw [admitSpend_eq_evalPath, (evalPath_spec q dimension _ now (nodup_path scope) _).1, settle_eq, affords]
  split
  · rename_i ha
    rw [ha]
  · rename_i ha
    rw [Bool.eq_false_of_not_eq_true ha]

/-- The meters an admission leaves: each limited scope of the path is refilled, and charged when the
spend is admitted; nothing else is touched. -/
theorem admitSpend_overrides_meter? :
    (q.admitSpend state scope dimension cost now).2.overrides = state.overrides ∧
      ∀ s d, (q.admitSpend state scope dimension cost now).2.meter? s d =
        if s ∈ scope.path ∧ d = dimension then
          match q.scopeLimit state s d with
          | some limit =>
            some ⟨level limit ((q.sweep state now).meter? s d) now -
              (if q.affords (q.sweep state now) scope dimension (max cost 0) now then max cost 0 else 0), now⟩
          | none => (q.sweep state now).meter? s d
        else (q.sweep state now).meter? s d := by
  have hl : ∀ s d, q.scopeLimit (q.sweep state now) s d = q.scopeLimit state s d :=
    fun s d => scopeLimit_congr overrides_sweep
  obtain ⟨he, hov, hm⟩ :=
    evalPath_spec q dimension (max cost 0) now (nodup_path scope) (q.sweep state now)
  rw [overrides_sweep] at hov
  rw [admitSpend_eq_evalPath, he, settle_eq, ← affords]
  by_cases ha : q.affords (q.sweep state now) scope dimension (max cost 0) now = true
  · obtain ⟨hov2, hm2⟩ := meter?_foldl_charge q now
      (nodup_map_evals q (q.sweep state now) dimension (max cost 0) now (nodup_path scope))
      ((q.evalPath dimension (max cost 0) now scope.path (q.sweep state now)).2, [])
    rw [if_pos ha, if_pos ha]
    refine ⟨hov2.trans hov, fun s d => (hm2 s d).trans ?_⟩
    rw [find?_evals, hm]
    by_cases hk : s ∈ scope.path ∧ d = dimension
    · obtain ⟨hs, rfl⟩ := hk
      simp only [hs, and_self, if_true, hl]
      cases hlm : q.scopeLimit state s d with
      | none => rfl
      | some limit =>
        have hc := affords_iff.mp ha s hs limit ((hl s d).trans hlm)
        simp [evalAt, hc]
    · simp [if_neg hk]
  · obtain ⟨hov2, hm2⟩ := meter?_foldl_countDenial
      (q.evals (q.sweep state now) scope.path dimension (max cost 0) now)
      (q.evalPath dimension (max cost 0) now scope.path (q.sweep state now)).2
    rw [if_neg ha, if_neg ha]
    refine ⟨hov2.trans hov, fun s d => (hm2 s d).trans ?_⟩
    simp [hm, hl, sub_zero]

end Admit

/-! ### Sweeps -/

/-- A limit recovers within the idle window: a bucket that a sweep drops was full. -/
def Recovers (q : QuotaEnforcer) (limit : Limit) : Prop := ∀ ttl ∈ q.idleTtl, limit.burst ≤ ttl * limit.refillPerSec

end QuotaEnforcer

/-- The meters hold no debt and were last looked at in the past. -/
def State.Sound (state : State) (now : ℚ) : Prop :=
  ∀ s d meter, state.meter? s d = some meter → 0 ≤ meter.tokens ∧ meter.last ≤ now

theorem State.sound_initial (now0 now : ℚ) : (State.initial now0).Sound now := by
  intro s d meter hmt
  simp [State.meter?, State.bucket?, State.initial] at hmt

theorem State.Sound.mono {state : State} (h : state.Sound now) (ht : now ≤ time) : state.Sound time :=
  fun s d meter hmt => ⟨(h s d meter hmt).1, (h s d meter hmt).2.trans ht⟩

theorem level_nonneg {l : Limit} (h : ∀ m ∈ me, 0 ≤ m.tokens) :
    0 ≤ level l me time := by
  cases me with
  | none => exact l.burst_nonneg
  | some me =>
    exact le_min (add_nonneg (h me rfl) (mul_nonneg (le_max_right _ _) l.refill_nonneg)) l.burst_nonneg

/-- A level now is the level later, as seen from now. -/
theorem level_level {l : Limit} (h : ∀ m ∈ me, m.last ≤ now)
    (ht : now ≤ time) :
    TokenBucket.wait l.burst l.refillPerSec (level l me now) (time - now) = level l me time := by
  have hg := mul_nonneg (sub_nonneg.mpr ht) l.refill_nonneg
  cases me with
  | none => exact TokenBucket.wait_burst hg
  | some me =>
    have hl := h me rfl
    rw [level, level, TokenBucket.wait_wait hg, durationSince_of_le hl, durationSince_of_le (hl.trans ht)]
    congr 1
    ring

namespace QuotaEnforcer

variable {q : QuotaEnforcer} {state : State} {s : Scope} {d : QuotaDimension} {now : ℚ}

theorem meter?_reapIdleLocked (ttl : ℚ) :
    (reapIdleLocked state ttl now).2.meter? s d =
      (state.meter? s d).filter fun meter => decide (durationSince now meter.last < ttl) := by
  unfold State.meter? State.bucket? reapIdleLocked
  rw [Store.lookup_retain]
  cases state.buckets.lookup (s, d) with
  | none => rfl
  | some b => by_cases hk : durationSince now b.last < ttl <;> simp [hk, Option.filter, Bucket.meter]

theorem sweep_eq_or : q.sweep state now = state ∨ q.sweep state now = (q.reapIdleBuckets state now).2 := by
  unfold sweep reapIdleBuckets
  split
  · split
    · exact Or.inr rfl
    · exact Or.inl rfl
  · exact Or.inl rfl

theorem overrides_reapIdleBuckets : (q.reapIdleBuckets state now).2.overrides = state.overrides := by
  unfold reapIdleBuckets
  split <;> rfl

/-- A sweep adds no meter. -/
theorem meter?_of_reapIdleBuckets {meter : Meter} (h : (q.reapIdleBuckets state now).2.meter? s d = some meter) :
    state.meter? s d = some meter := by
  unfold reapIdleBuckets at h
  split at h
  · rw [meter?_reapIdleLocked] at h
    exact (Option.filter_eq_some_iff.mp h).1
  · exact h

theorem sound_reapIdleBuckets (h : state.Sound now) : (q.reapIdleBuckets state now).2.Sound now :=
  fun s d meter hmt => h s d meter (meter?_of_reapIdleBuckets hmt)

/-- A sweep keeps the level of every limit that recovers within the idle window. -/
theorem level_reapIdleBuckets {l : Limit} {time : ℚ} (hs : state.Sound now) (hli : q.Recovers l)
    (ht : now ≤ time) :
    level l ((q.reapIdleBuckets state now).2.meter? s d) time = level l (state.meter? s d) time := by
  unfold reapIdleBuckets
  split
  · rename_i ttl htt
    rw [meter?_reapIdleLocked]
    cases hmt : state.meter? s d with
    | none => rfl
    | some meter =>
      by_cases hk : durationSince now meter.last < ttl
      · rw [Option.filter_some, if_pos (decide_eq_true hk)]
      · -- the bucket is dropped: it has been idle long enough to be full
        rw [Option.filter_some, if_neg (by simpa using hk)]
        have hi := (not_lt.mp hk).trans (max_le_max_right 0 (sub_le_sub_right ht meter.last))
        have hl := (hli ttl htt).trans (mul_le_mul_of_nonneg_right hi l.refill_nonneg)
        exact (min_eq_right (hl.trans (le_add_of_nonneg_left (hs s d meter hmt).1))).symm
  · rfl

theorem sound_sweep (h : state.Sound now) : (q.sweep state now).Sound now := by
  rcases sweep_eq_or with heq | heq <;> rw [heq]
  · exact h
  · exact sound_reapIdleBuckets h

theorem level_sweep {l : Limit} {time : ℚ} (hs : state.Sound now) (hl : q.Recovers l)
    (ht : now ≤ time) : level l ((q.sweep state now).meter? s d) time = level l (state.meter? s d) time := by
  rcases sweep_eq_or with heq | heq <;> rw [heq]
  exact level_reapIdleBuckets hs hl ht

end QuotaEnforcer

end IronAuth.Quota
