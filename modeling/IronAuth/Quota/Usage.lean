import IronAuth.Quota.Admission

/-!
# Usage thresholds

An admitted spend emits an event for each threshold between the level that the bucket recorded at its last
charge and the utilization that this charge leaves. A refill in between lowers the utilization but not the
recorded level, so that a threshold which is crossed again after a refill stays silent.
-/

namespace IronAuth.Quota

open Lib List

/-- The level that a bucket recorded at its last charge; a new one has none. -/
def State.emitted (state : State) (s : Scope) (d : QuotaDimension) : ℕ := ((state.bucket? s d).map Bucket.emittedLevel).getD 0

theorem State.bucket?_setBucket (state : State) (s s2 : Scope) (d d2 : QuotaDimension) (b : Bucket) :
    (state.setBucket s d b).bucket? s2 d2 = if s2 = s ∧ d2 = d then some b else state.bucket? s2 d2 := by
  unfold State.bucket? State.setBucket
  by_cases hk : s2 = s ∧ d2 = d
  · rw [if_pos hk, hk.1, hk.2, AList.lookup_insert]
  · rw [if_neg hk, AList.lookup_insert_ne (by simpa [Prod.ext_iff] using hk)]

namespace QuotaEnforcer

section events

variable {q : QuotaEnforcer} {state : State} {dimension : QuotaDimension} {cost now : ℚ}

/-- Looking at a bucket keeps what it has recorded. -/
theorem emitted_evalScope (l : Option Limit) (s s2 : Scope) (d d2 : QuotaDimension) :
    (evalScope l state s d cost now).2.emitted s2 d2 = state.emitted s2 d2 := by
  cases l with
  | none => rfl
  | some l =>
    simp only [evalScope, State.emitted, State.bucket?_setBucket]
    by_cases hk : s2 = s ∧ d2 = d
    · obtain ⟨rfl, rfl⟩ := hk
      cases hb : state.bucket? s2 d2 <;> simp [Bucket.refill, Bucket.full]
    · rw [if_neg hk]

theorem emitted_evalPath (sc : List Scope) (s : Scope) (d : QuotaDimension) :
    (q.evalPath dimension cost now sc state).2.emitted s d = state.emitted s d := by
  induction sc generalizing state with
  | nil => rfl
  | cons s1 sc ih => rw [evalPath, ih, emitted_evalScope]

/-- The events of one charge. -/
def eventsOf (q : QuotaEnforcer) (e : Eval) (emitted : ℕ) : List UsageEvent := (q.chargeBucket e 0 ⟨0, 0, emitted, 0, 0⟩).2

/-- Each charge emits what its own bucket has recorded, whatever was charged before. -/
theorem events_foldl_charge {ev : List Eval} (hnd : (ev.map fun e => (e.scope, e.dimension)).Nodup)
    (acc : State × List UsageEvent) (hl : ∀ e ∈ ev, (acc.1.bucket? e.scope e.dimension).isSome) :
    (ev.foldl (q.charge now) acc).2 =
      acc.2 ++ ev.flatMap fun e => q.eventsOf e (acc.1.emitted e.scope e.dimension) := by
  induction ev generalizing acc with
  | nil => simp
  | cons e ev ih =>
    rw [map_cons, nodup_cons] at hnd
    rw [forall_mem_cons] at hl
    obtain ⟨b, hb⟩ := Option.isSome_iff_exists.mp hl.1
    have hch : q.charge now acc e = (acc.1.setBucket e.scope e.dimension (q.chargeBucket e now b).1,
        acc.2 ++ q.eventsOf e (acc.1.emitted e.scope e.dimension)) := by
      simp [charge, hb, State.emitted, eventsOf, chargeBucket, evaluateThresholds]
    have ho : ∀ e2 ∈ ev, (q.charge now acc e).1.bucket? e2.scope e2.dimension = acc.1.bucket? e2.scope e2.dimension := by
      intro e2 he2
      rw [hch, State.bucket?_setBucket, if_neg]
      rintro ⟨hs, hd⟩
      exact hnd.1 (mem_map.mpr ⟨e2, he2, by rw [hs, hd]⟩)
    rw [foldl_cons, ih hnd.2 _ fun e2 he2 => (ho e2 he2).symm ▸ hl.2 e2 he2, flatMap_cons, ← append_assoc, hch]
    congr 1
    refine flatMap_congr fun e2 he2 => ?_
    have := ho e2 he2
    rw [hch] at this
    rw [State.emitted, this, State.emitted]

/-- The thresholds are in ascending order. -/
def Ascending (q : QuotaEnforcer) : Prop := q.thresholds.Pairwise (· ≤ ·)

theorem ascending_fromConfig (c : QuotaConfig) : (fromConfig c).Ascending :=
  (pairwise_insertionSort (· ≤ ·) c.usageThresholdsPercent).sublist (destutter_sublist _ _)

/-- The last threshold at or below the utilization bounds the others there. -/
theorem le_level_iff (h : q.Ascending) {t u : ℕ} (ht : t ∈ q.thresholds) :
    t ≤ (q.thresholds.reverse.find? fun x => decide (x ≤ u)).getD 0 ↔ t ≤ u ∨ t = 0 := by
  cases hf : q.thresholds.reverse.find? fun x => decide (x ≤ u) with
  | none =>
    have := List.find?_eq_none.mp hf t (mem_reverse.mpr ht)
    simp_all
  | some m =>
    obtain ⟨hm, f, back, heq, hr⟩ := List.find?_eq_some_iff_append.mp hf
    have hm := of_decide_eq_true hm
    have hs : (f ++ m :: back).Pairwise (· ≥ ·) := heq ▸ pairwise_reverse.mpr h
    refine ⟨fun hle => .inl (hle.trans hm), fun hle => ?_⟩
    rcases hle with hle | rfl
    · have htm : t ∈ f ++ m :: back := heq ▸ mem_reverse.mpr ht
      rcases mem_append.mp htm with hin | hin
      · have := hr t hin
        simp_all
      · rcases mem_cons.mp hin with rfl | hin
        · exact le_rfl
        · exact (pairwise_cons.mp (pairwise_append.mp hs).2.1).1 t hin
    · exact Nat.zero_le _

theorem mem_eventsOf (h : q.Ascending) {e : Eval} {em t : ℕ} (ht : t ∈ q.thresholds) :
    (∃ ev ∈ q.eventsOf e em, ev.thresholdPercent = t) ↔
      em < t ∧ t ≤ utilizationPercent (max e.tokensAfter 0) e.limit.burst := by
  simp only [eventsOf, chargeBucket, evaluateThresholds, mem_map, exists_exists_and_eq_and]
  have hlv := le_level_iff h (u := utilizationPercent (max e.tokensAfter 0) e.limit.burst) ht
  split_ifs with hc
  · simp only [mem_filter, ht, true_and, decide_eq_true_eq, exists_eq_right, hlv]
    omega
  · simp only [not_mem_nil, false_and, exists_false, false_iff, not_and, not_le]
    intro hlt
    by_contra hle
    have := hlv.mpr (.inl (not_lt.mp hle))
    omega

end events

variable (q : QuotaEnforcer) (state : State) (scope : Scope) (dimension : QuotaDimension) (cost now : ℚ)

/-- The spend emits the event of a threshold on the bucket of a scope. -/
def Emits (s : Scope) (t : ℕ) : Prop :=
  ∃ event ∈ (q.admitSpend state scope dimension cost now).1.events,
    event.scope = s ∧ event.dimension = dimension ∧ event.thresholdPercent = t

/-- The utilization of a bucket before a spend, after refilling; and if this much is charged. -/
def utilization (limit : Limit) (s : Scope) (charged : ℚ) : ℕ :=
  utilizationPercent (level limit ((q.sweep state now).meter? s dimension) now - charged) limit.burst

/-- An admitted spend emits the events of the thresholds that its charge crosses. -/
def FiresOnce : Prop :=
  (q.admitSpend state scope dimension cost now).1.decision = .admitted →
    ∀ s ∈ scope.path, ∀ limit, q.scopeLimit state s dimension = some limit → ∀ t ∈ q.thresholds,
      (q.Emits state scope dimension cost now s t ↔ q.utilization state dimension now limit s 0 < t ∧
        t ≤ q.utilization state dimension now limit s (max cost 0))

variable {q state scope dimension cost now}

/-- The events of an admitted spend: the thresholds past what the bucket has recorded. -/
theorem emits_iff (h : q.Ascending) (ha : (q.admitSpend state scope dimension cost now).1.decision = .admitted)
    {s : Scope} (hs : s ∈ scope.path) {l : Limit} (hl : q.scopeLimit state s dimension = some l) {t : ℕ}
    (ht : t ∈ q.thresholds) : q.Emits state scope dimension cost now s t ↔
      (q.sweep state now).emitted s dimension < t ∧ t ≤ q.utilization state dimension now l s (max cost 0) := by
  rw [admitSpend_decision] at ha
  split_ifs at ha with hcan
  obtain ⟨he, -, hm⟩ := evalPath_spec q dimension (max cost 0) now (nodup_path scope) (q.sweep state now)
  have hsl : ∀ s, q.scopeLimit (q.sweep state now) s dimension = q.scopeLimit state s dimension :=
    fun s => scopeLimit_congr overrides_sweep
  have hlive : ∀ e ∈ q.evals (q.sweep state now) scope.path dimension (max cost 0) now,
      ((q.evalPath dimension (max cost 0) now scope.path (q.sweep state now)).2.bucket? e.scope e.dimension).isSome := by
    intro e hmem
    obtain ⟨s1, hs1, hmap⟩ := mem_filterMap.mp hmem
    obtain ⟨l1, hl1, rfl⟩ := Option.map_eq_some_iff.mp hmap
    have := hm s1 dimension
    rw [if_pos ⟨hs1, rfl⟩, hl1] at this
    simpa [State.meter?] using congrArg Option.isSome this
  have hev : (q.admitSpend state scope dimension cost now).1.events =
      (q.evals (q.sweep state now) scope.path dimension (max cost 0) now).flatMap
        fun e => q.eventsOf e ((q.sweep state now).emitted e.scope e.dimension) := by
    rw [admitSpend_eq_evalPath, he, settle_eq, ← affords, if_pos hcan]
    dsimp only
    rw [events_foldl_charge (nodup_map_evals q _ dimension _ now (nodup_path scope)) _ hlive, nil_append]
    exact flatMap_congr fun e _ => by rw [emitted_evalPath]
  have hcost := affords_iff.mp hcan s hs l ((hsl s).trans hl)
  rw [utilization, ← max_eq_left (sub_nonneg.mpr hcost)]
  refine Iff.trans ?_ (mem_eventsOf h (e := evalAt s dimension (max cost 0) l _) ht)
  rw [Emits, hev]
  constructor
  · rintro ⟨ev, hmem, hes, hed, het⟩
    obtain ⟨e, hmem, hin⟩ := mem_flatMap.mp hmem
    obtain ⟨s1, hs1, hmap⟩ := mem_filterMap.mp hmem
    obtain ⟨l1, hl1, rfl⟩ := Option.map_eq_some_iff.mp hmap
    obtain ⟨x, -, hx⟩ := mem_map.mp hin
    obtain rfl : s1 = s := by rw [← hes, ← hx]; rfl
    obtain rfl := Option.some.inj (hl1.symm.trans ((hsl s1).trans hl))
    exact ⟨ev, hin, het⟩
  · rintro ⟨ev, hin, het⟩
    have hmem : evalAt s dimension (max cost 0) l (level l ((q.sweep state now).meter? s dimension) now) ∈
        q.evals (q.sweep state now) scope.path dimension (max cost 0) now :=
      mem_filterMap.mpr ⟨s, hs, by rw [hsl, hl]; rfl⟩
    obtain ⟨x, -, hx⟩ := mem_map.mp hin
    refine ⟨ev, mem_flatMap.mpr ⟨_, hmem, hin⟩, ?_, ?_, het⟩
    · rw [← hx]; rfl
    · rw [← hx]; rfl

/-- **When the events are the crossings**: no threshold at or below the utilization after the charge lies between
the utilization before it and what the bucket has recorded. -/
theorem firesOnce_iff (config : QuotaConfig) (state : State) (scope : Scope) (dimension : QuotaDimension) (cost now : ℚ) :
    (fromConfig config).FiresOnce state scope dimension cost now ↔
      ((fromConfig config).admitSpend state scope dimension cost now).1.decision = .admitted →
        ∀ s ∈ scope.path, ∀ limit, (fromConfig config).scopeLimit state s dimension = some limit →
          ∀ t ∈ (fromConfig config).thresholds,
            t ≤ (fromConfig config).utilization state dimension now limit s (max cost 0) →
              (((fromConfig config).sweep state now).emitted s dimension < t ↔
                (fromConfig config).utilization state dimension now limit s 0 < t) := by
  refine forall_congr' fun ha => forall₂_congr fun s hs => forall₂_congr fun limit hl => forall₂_congr fun t ht => ?_
  rw [emits_iff (ascending_fromConfig config) ha hs hl ht]
  tauto

end QuotaEnforcer

/-- A burst of ten that refills in ten seconds, with a threshold at half of it. -/
def halfWatched : QuotaConfig :=
  ⟨⟨1, 10, 0, 0, 0, 0, 0, 0⟩, ⟨0, 0, 0, 0, 0, 0, 0, 0⟩, [50], 0⟩

/-- **A crossing after a refill is silent**: six of ten, a pause that refills the bucket, and six again. -/
theorem refilled_silent : ¬ (QuotaEnforcer.fromConfig halfWatched).FiresOnce
    ((QuotaEnforcer.fromConfig halfWatched).admitSpend (.initial 0) (.tenant "acme") .requests 6 0).2
      (.tenant "acme") .requests 6 100 := by
  intro h
  have := (h (by decide +kernel) (.tenant "acme") (by decide) (.new 1 10) (by decide +kernel) 50 (by decide +kernel)).mpr
    (by decide +kernel)
  obtain ⟨eve, hmem, -⟩ := this
  revert hmem
  have : (((QuotaEnforcer.fromConfig halfWatched).admitSpend ((QuotaEnforcer.fromConfig halfWatched).admitSpend
    (.initial 0) (.tenant "acme") .requests 6 0).2 (.tenant "acme") .requests 6 100).1.events).length = 0 := by decide +kernel
  rw [length_eq_zero_iff.mp this]
  exact not_mem_nil

end IronAuth.Quota
