import IronAuth.Quota.Runs

/-!
# What a run charges

With limits that stay as they are, the admitted spends of a bucket are draws from one
token bucket of the library, and a denied spend leaves every level where it was. The
sweep cannot be seen, since limits recover within the idle window.
-/

namespace IronAuth.Quota

open Lib Lib.Machine

/-- What an entry of a transcript charges to the bucket of a scope and dimension. -/
def charge? (s : Scope) (d : QuotaDimension) (entry : TimedCall × Option Reply) : Option ℚ :=
  match entry with
  | ((_, .spend scope dimension cost), some (.admitted, _)) =>
    if s ∈ scope.path ∧ d = dimension then some (max cost 0) else none
  | _ => none

/-- The charges to the bucket of a scope and dimension, each at its time. -/
def charges (s : Scope) (d : QuotaDimension) (entries : List (TimedCall × Option Reply)) : List (ℚ × ℚ) :=
  TokenBucket.draws Prod.fst (charge? s d) entries

/-- An entry of a denied spend. -/
def IsDenied (entry : TimedCall × Option Reply) : Prop := ∃ snapshot, entry.2 = some (.denied, snapshot)

/-- A denial charges nothing. -/
theorem charge?_of_isDenied {e : TimedCall × Option Reply} (h : IsDenied e) (s : Scope) (d : QuotaDimension) :
    charge? s d e = none := by
  obtain ⟨⟨now, call⟩, r⟩ := e
  obtain ⟨snapshot, rfl⟩ := h
  cases call <;> rfl

namespace QuotaEnforcer

variable {q : QuotaEnforcer} {state start : State} {now : ℚ}

variable {s : Scope} {d : QuotaDimension} {c cl : TimedCall} {calls : List TimedCall}

/-- A spend draws its cost from each bucket of its path when it is admitted, and leaves every other
level alone. -/
theorem draws_admitSpend {limit : Limit} (h : state.Sound now)
    (hl : q.scopeLimit state s d = some limit) (hr : q.Recovers limit) (sc : Scope)
    (dim : QuotaDimension) (c : ℚ) :
    TokenBucket.Draws limit.burst limit.refillPerSec now
      (if (q.admitSpend state sc dim c now).1.decision = .admitted ∧ s ∈ sc.path ∧ d = dim then
        some (max c 0) else none)
      (level limit (state.meter? s d)) (level limit ((q.admitSpend state sc dim c now).2.meter? s d)) := by
  have hsw : ∀ t, now ≤ t → level limit ((q.sweep state now).meter? s d) t = level limit (state.meter? s d) t :=
    fun t ht => level_sweep h hr ht
  have hsn : (q.sweep state now).Sound now := sound_sweep h
  have hmt := (admitSpend_overrides_meter? q state sc dim c now).2 s d
  by_cases hk : s ∈ sc.path ∧ d = dim
  · rw [if_pos hk, hl] at hmt
    dsimp only at hmt
    obtain ⟨hs, rfl⟩ := hk
    rw [hmt, admitSpend_decision]
    by_cases ha : q.affords (q.sweep state now) sc d (max c 0) now = true
    · have hfd : q.scopeLimit (q.sweep state now) s d = some limit := (scopeLimit_congr overrides_sweep).trans hl
      have hc := affords_iff.mp ha s hs limit hfd
      rw [hsw now (le_refl _)] at hc
      rw [if_pos ⟨if_pos ha, hs, rfl⟩, if_pos ha, hsw now (le_refl _)]
      refine ⟨hc, fun t ht => ?_⟩
      rw [level, durationSince_of_le ht]
    · rw [if_neg ha, if_neg ha, if_neg fun hin => Decision.noConfusion hin.1]
      intro t ht
      rw [sub_zero, level, durationSince_of_le ht, level_level (fun m hm => (hsn s d m hm).2) ht, hsw t ht]
  · rw [if_neg hk] at hmt
    rw [if_neg fun hin => hk hin.2, hmt]
    exact hsw

/-- A call that changes no limit draws what it charges. -/
theorem draws_step {l : Limit} (h : state.Sound c.1)
    (hl : q.scopeLimit state s d = some l) (hr : q.Recovers l)
    (hc : c.2.keepsLimits = true) :
    TokenBucket.Draws l.burst l.refillPerSec c.1 (charge? s d (c, (q.step state c).1))
      (level l (state.meter? s d)) (level l ((q.step state c).2.meter? s d)) := by
  obtain ⟨now, c⟩ := c
  cases c with
  | spend scope dimension cost =>
    have hd := draws_admitSpend h hl hr scope dimension cost
    simp only [step, charge?]
    cases hr : (q.admitSpend state scope dimension cost now).1.decision <;> simpa [hr] using hd
  | reapIdleBuckets => exact fun t ht => level_reapIdleBuckets h hr ht
  | _ => cases hc

/-- A run with the limits of `start`: no call of it changes one. -/
structure FixedLimits (start state : State) (calls : List TimedCall) : Prop where
  overrides : state.overrides = start.overrides
  keeps : ∀ call ∈ calls, call.2.keepsLimits = true
  sound : ∀ call ∈ calls, state.Sound call.1
  clock : Chronological calls

theorem sound_step (h : state.Sound c.1) (hc : c.2.keepsLimits = true) :
    (q.step state c).2.Sound c.1 := by
  obtain ⟨now, c⟩ := c
  cases c with
  | spend scope dimension cost => exact sound_admitSpend h
  | reapIdleBuckets => exact sound_reapIdleBuckets h
  | _ => cases hc

theorem FixedLimits.step (h : FixedLimits start state (cl :: calls)) :
    FixedLimits start (q.step state cl).2 calls := by
  have hkp := h.keeps cl List.mem_cons_self
  obtain ⟨hl, hcl⟩ := List.pairwise_cons.mp h.clock
  refine ⟨(q.overrides_step state hkp).trans h.overrides, fun c hc => h.keeps c (List.mem_cons_of_mem _ hc),
    fun c hc => ?_, hcl⟩
  exact (sound_step (h.sound cl List.mem_cons_self) hkp).mono (hl c hc)

theorem FixedLimits.scopeLimit_eq {c : List TimedCall}
    (h : FixedLimits start state c) : q.scopeLimit state s d = q.scopeLimit start s d :=
  scopeLimit_congr h.overrides

/-- A denied spend leaves every level, so what follows is answered as without it. -/
theorem transcript_of_denied (h : FixedLimits start state (cl :: calls))
    (hl : ∀ s d limit, q.scopeLimit start s d = some limit → q.Recovers limit)
    (hd : IsDenied (cl, (q.step state cl).1)) :
    transcript q.step (q.step state cl).2 calls = transcript q.step state calls := by
  have hs := h.sound cl List.mem_cons_self
  have hkp := h.keeps cl List.mem_cons_self
  obtain ⟨hla, hcl⟩ := List.pairwise_cons.mp h.clock
  -- a denied call draws nothing, so the states before and after it are coupled
  have hco : Coupled (fun _ => True) (fun s d limit => q.scopeLimit start s d = some limit) cl.1
      (q.step state cl).2 state := by
    refine ⟨sound_step hs hkp, hs, fun s _ => by rw [q.overrides_step state hkp], ?_⟩
    intro s d limit hlm t ht
    have hdr := draws_step hs (h.scopeLimit_eq.trans hlm) (hl s d limit hlm) hkp
    rw [charge?_of_isDenied hd] at hdr
    exact hdr t ht
  refine transcript_eq
    (R := fun s1 s2 calls => (∀ c ∈ calls, Coupled (fun _ => True) (fun s d limit => q.scopeLimit start s d = some limit)
      c.1 s1 s2) ∧ FixedLimits start s1 calls) ?_ ⟨fun c hc => hco.mono (hla c hc), h.step⟩
  intro s1 s2 c calls hR
  obtain ⟨hco, hf⟩ := hR
  obtain ⟨hla, -⟩ := List.pairwise_cons.mp hf.clock
  obtain ⟨ha, hn⟩ := (hco c List.mem_cons_self).step hl
    fun scope dimension cost _ s _ => ⟨trivial, fun limit hlm => hf.scopeLimit_eq.symm.trans hlm⟩
  exact ⟨ha, fun l hm => hn.mono (hla l hm), hf.step⟩

/-- **A bucket never oversells, and a denial is never charged.** In every run with fixed limits that
recover within the idle window, every bucket admits in a window of length `d` at most its burst and what
it refills in that time, and deleting a denied spend changes nothing else in the transcript. -/
theorem never_oversells (q : QuotaEnforcer) {start : State} (hempty : start.buckets = ∅)
    (hlimits : ∀ s d limit, q.scopeLimit start s d = some limit → q.Recovers limit) {calls : List TimedCall}
    (hclock : Chronological calls) (hkeeps : ∀ call ∈ calls, call.2.keepsLimits = true) :
    (∀ s dimension limit, q.scopeLimit start s dimension = some limit → ∀ a d : ℚ, 0 ≤ d →
      TokenBucket.drawn a (a + d) (charges s dimension (transcript q.step start calls)) ≤
        limit.burst + limit.refillPerSec * d) ∧
      ∀ i entry, (transcript q.step start calls)[i]? = some entry → IsDenied entry →
        transcript q.step start (calls.eraseIdx i) = (transcript q.step start calls).eraseIdx i := by
  have hno : ∀ s d, start.meter? s d = none := by
    intro s d
    rw [State.meter?, State.bucket?, hempty]
    rfl
  have hfi : FixedLimits start start calls :=
    ⟨rfl, hkeeps, fun c _ s d meter hme => by simp [hno] at hme, hclock⟩
  refine ⟨fun s dimension limit hli a d hd => ?_, fun i entry hen hde => ?_⟩
  · have hdr : ∀ state call calls, FixedLimits start state (call :: calls) →
        TokenBucket.Draws limit.burst limit.refillPerSec call.1 (charge? s dimension (call, (q.step state call).1))
          (level limit (state.meter? s dimension)) (level limit ((q.step state call).2.meter? s dimension)) :=
      fun state call calls h => draws_step (h.sound call List.mem_cons_self) (h.scopeLimit_eq.trans hli)
        (hlimits s dimension limit hli) (h.keeps call List.mem_cons_self)
    have hwi := TokenBucket.drawn_draws_le limit.burst_nonneg limit.refill_nonneg
      (fun state call calls h => FixedLimits.step h) hdr hfi hclock (fun t => by rw [hno, level])
      (le_add_of_nonneg_right hd : a ≤ a + d)
    rw [add_sub_cancel_left, mul_comm] at hwi
    exact hwi
  · exact transcript_eraseIdx (fun state call calls h => FixedLimits.step h)
      (fun state call calls h hde => transcript_of_denied h hlimits hde) hfi hen hde

end QuotaEnforcer

/-- `acme` asks for more than its burst: the second request is denied and costs nothing. -/
def impatientCalls : List TimedCall :=
  [(0, .spend (.environment "acme" "prod") .requests 2),
    (1, .spend (.environment "acme" "prod") .requests 2),
    (1, .spend (.environment "acme" "prod") .requests 1),
    (90, .reapIdleBuckets),
    (90, .spend (.tenant "acme") .requests 4)]

theorem impatientCalls_never_oversold :
    Chronological impatientCalls ∧ (∀ call ∈ impatientCalls, call.2.keepsLimits = true) ∧
      TokenBucket.drawn 0 (0 + 1) (charges (.environment "acme" "prod") .requests
        (transcript smallFleet.step (State.initial 0) impatientCalls)) ≤ (Limit.new 1 2).burst + (Limit.new 1 2).refillPerSec * 1 ∧
      transcript smallFleet.step (State.initial 0) (impatientCalls.eraseIdx 1) =
        (transcript smallFleet.step (State.initial 0) impatientCalls).eraseIdx 1 := by
  have hcl : Chronological impatientCalls := by
    unfold Chronological
    decide +kernel
  have hke : ∀ call ∈ impatientCalls, call.2.keepsLimits = true := by decide
  have hli : ∀ s d limit, smallFleet.scopeLimit (State.initial 0) s d = some limit → smallFleet.Recovers limit :=
    fun s d limit him => smallFleet_recovers (fun _ _ => rfl) s d limit rfl him
  have hen : ((transcript smallFleet.step (State.initial 0) impatientCalls)[1]?.bind fun entry =>
      entry.2.map Prod.fst) = some .denied := by decide +kernel
  obtain ⟨entry, hnt, hre⟩ := Option.bind_eq_some_iff.mp hen
  obtain ⟨rep, hre, hde⟩ := Option.map_eq_some_iff.mp hre
  have hso := smallFleet.never_oversells rfl hli hcl hke
  exact ⟨hcl, hke, hso.1 _ _ _ rfl 0 1 zero_le_one,
    hso.2 1 entry hnt ⟨rep.2, hre.trans (congrArg some (Prod.ext hde rfl))⟩⟩

end IronAuth.Quota
