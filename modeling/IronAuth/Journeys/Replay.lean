import IronAuth.Journeys.CompiledWalks
import IronAuth.Lib.BoundedWalk

/-!
# Routing a hop

Two walks over a compiled table that both pass through decision steps in one call: the
replay harness (`route_hop`) and the routing loop of the live engine
(`drive_via_table`). Each re-seats the context on its cursor and makes at most one hop
more than the table has steps.

The live engine also walks through a custom challenge or an organization picker whose
entry renders nothing, and it does not enter a registration or a recovery start; the
harness lands on all four. Nothing in the acceptance checks looks at cycles of decision
steps, so either walk can use up its hops.

What an entry renders, the mint and the persistence of a flow are outside the routing
and left out: `renders` stands for whether the entry nodes of a step are non-empty.
-/

namespace IronAuth.Journeys

open Relation Option
open Lib

variable (compiled : CompiledJourney) (base : EvalContext)

/-- The context with its cursor re-seated. -/
def EvalContext.seat (cursor : StepId) : EvalContext :=
  { base with flow := { base.flow with stepId := cursor } }

/-! ### The replay harness -/

/-- What one hop of the harness observes. -/
inductive HopOutcome where
  | landed («to» : StepId) (terminal : Bool)
  | deadEnd («at» : StepId)
  | unsettled
  deriving DecidableEq

/-- What `route_hop` does on reaching a step, by its kind: pass on through a decision, or return. -/
def routeArrive (cursor nextId : StepId) : StepKind → StepId ⊕ HopOutcome
  | .terminal => .inr (.landed nextId true)
  | .decision => .inl nextId
  | .identifierPassword | .mfaChallenge | .mfaEnroll | .customChallenge | .progressiveProfiling | .orgPicker
  | .registration | .recoveryStart | .recoveryVerify => .inr (.landed nextId false)
  | .subflowCall | .unknown _ => .inr (.deadEnd cursor)

/-- One turn of the loop of `route_hop`. -/
def routeTurn (cursor : StepId) : StepId ⊕ HopOutcome :=
  match compiled.chooseEdge cursor (base.seat cursor) with
  | none => .inr (.deadEnd cursor)
  | some nextId =>
    match compiled.step nextId with
    | none => .inr (.deadEnd cursor)
    | some next => routeArrive cursor nextId next.kind

/-- Route one hop, through decision steps. -/
def routeHop (start : StepId) (base : EvalContext) : HopOutcome :=
  (BoundedWalk.settle (routeTurn compiled base) (compiled.steps.keys.length + 1) start).getD .unsettled

/-! ### The live engine -/

/-- Where the routing loop of `drive_via_table` ends. -/
inductive DriveOutcome where
  | completed («at» : StepId)
  | held («at» : StepId)
  | notFound
  deriving DecidableEq

/-- What the routing loop does on reaching a step, by its kind. -/
def driveArrive (renders : StepId → Bool) (cursor nextId : StepId) :
    StepKind → StepId ⊕ DriveOutcome
  | .terminal =>
    -- the step before the terminal decides what a fenced mint renders
    match compiled.step cursor with
    | none => .inr .notFound
    | some _ => .inr (.completed nextId)
  | .decision => .inl nextId
  | .identifierPassword | .mfaChallenge | .mfaEnroll | .progressiveProfiling => .inr (.held nextId)
  | .customChallenge | .orgPicker => if renders nextId then .inr (.held nextId) else .inl nextId
  | .recoveryVerify => .inr (.held nextId)
  | .registration | .recoveryStart | .subflowCall | .unknown _ => .inr .notFound

/-- One turn of the routing loop of `drive_via_table`. -/
def driveTurn (renders : StepId → Bool) (base : EvalContext) (cursor : StepId) :
    StepId ⊕ DriveOutcome :=
  match compiled.chooseEdge cursor (base.seat cursor) with
  | none => .inr .notFound
  | some nextId =>
    match compiled.step nextId with
    | none => .inr .notFound
    | some next => driveArrive compiled renders cursor nextId next.kind

/-- The routing loop of `drive_via_table`. -/
def driveRoute (renders : StepId → Bool) (start : StepId) (base : EvalContext) :
    DriveOutcome :=
  (BoundedWalk.settle (driveTurn compiled renders base) (compiled.steps.keys.length + 1) start).getD .notFound

/-- The step a hop settles on, and whether it completes. -/
def HopOutcome.settled : HopOutcome → Option (StepId × Bool)
  | landed id terminal => some (id, terminal)
  | deadEnd _ => none
  | unsettled => none

/-- The step a drive settles on, and whether it completes. -/
def DriveOutcome.settled : DriveOutcome → Option (StepId × Bool)
  | completed id => some (id, true)
  | held id => some (id, false)
  | notFound => none

/-! ### The edges that are chosen -/

/-- The edge chosen at `a` leads to `b`. -/
def CompiledJourney.Hop (a b : StepId) : Prop :=
  compiled.chooseEdge a (base.seat a) = some b

/-- The edge chosen at `a` leads to the decision step `b`. -/
def CompiledJourney.DecisionHop (a b : StepId) : Prop :=
  compiled.Hop base a b ∧ ∃ s, compiled.step b = some s ∧ s.kind = .decision

section Turns

variable {compiled : CompiledJourney} {renders : StepId → Bool} {base : EvalContext} {a b : StepId} {s : CompiledStep}

theorem routeTurn_of_hop (hh : compiled.Hop base a b) (hs : compiled.step b = some s) :
    routeTurn compiled base a = routeArrive a b s.kind := by
  unfold routeTurn
  rw [hh]
  simp [hs]

theorem driveTurn_of_hop (hh : compiled.Hop base a b) (hs : compiled.step b = some s) :
    driveTurn compiled renders base a = driveArrive compiled renders a b s.kind := by
  unfold driveTurn
  rw [hh]
  simp [hs]

/-- A turn reaches a step, or neither walk goes anywhere. -/
theorem hop_or_stuck (compiled : CompiledJourney) (renders : StepId → Bool) (base : EvalContext) (a : StepId) :
    (∃ b s, compiled.Hop base a b ∧ compiled.step b = some s) ∨
      (routeTurn compiled base a = .inr (.deadEnd a) ∧ driveTurn compiled renders base a = .inr .notFound) := by
  cases hh : compiled.chooseEdge a (base.seat a) with
  | none =>
    right
    constructor
    · rw [routeTurn, hh]
    · rw [driveTurn, hh]
  | some b =>
    cases hs : compiled.step b with
    | none =>
      right
      constructor
      · rw [routeTurn, hh]
        simp [hs]
      · rw [driveTurn, hh]
        simp [hs]
    | some s => exact .inl ⟨b, s, hh, hs⟩

/-- The harness passes exactly through decision steps. -/
theorem passes_routeTurn : BoundedWalk.Passes (routeTurn compiled base) a b ↔ compiled.DecisionHop base a b := by
  rw [BoundedWalk.Passes, CompiledJourney.DecisionHop]
  constructor
  · intro hp
    rcases hop_or_stuck compiled (fun _ => true) base a with ⟨c, s, hh, hs⟩ | ⟨hst, -⟩
    · rw [routeTurn_of_hop hh hs] at hp
      cases hk : s.kind <;> rw [hk] at hp <;> cases hp
      exact ⟨hh, s, hs, hk⟩
    · rw [hst] at hp
      cases hp
  · rintro ⟨hh, s, hs, hk⟩
    rw [routeTurn_of_hop hh hs, hk]
    rfl

theorem mem_keys_of_step (hs : compiled.step a = some s) : a ∈ compiled.steps.keys :=
  AList.mem_keys.mp (AList.lookup_isSome.mp (isSome_iff_exists.mpr ⟨s, hs⟩))

theorem mem_keys_of_passes_routeTurn (h : BoundedWalk.Passes (routeTurn compiled base) a b) :
    b ∈ compiled.steps.keys := by
  obtain ⟨-, s, hs, -⟩ := passes_routeTurn.mp h
  exact mem_keys_of_step hs

theorem mem_keys_of_passes_driveTurn (h : BoundedWalk.Passes (driveTurn compiled renders base) a b) :
    b ∈ compiled.steps.keys := by
  rcases hop_or_stuck compiled renders base a with ⟨c, s, hh, hs⟩ | ⟨-, hst⟩
  · suffices hbc : c = b from hbc ▸ mem_keys_of_step hs
    rw [BoundedWalk.Passes, driveTurn_of_hop hh hs] at h
    unfold driveArrive at h
    split at h
    · split at h <;> cases h
    all_goals first | cases h; rfl | (split at h <;> cases h; rfl) | cases h
  · rw [BoundedWalk.Passes, hst] at h
    cases h

theorem routeTurn_ne_unsettled : routeTurn compiled base a ≠ .inr .unsettled := by
  intro ht
  rcases hop_or_stuck compiled (fun _ => true) base a with ⟨c, s, hh, hs⟩ | ⟨hst, -⟩
  · rw [routeTurn_of_hop hh hs] at ht
    cases hk : s.kind <;> rw [hk] at ht <;> cases ht
  · rw [hst] at ht
    cases ht

end Turns

/-- The harness gives up exactly when the bounded loop does. -/
theorem routeHop_eq_unsettled {compiled : CompiledJourney} {st : StepId} {base : EvalContext} :
    routeHop compiled st base = .unsettled ↔
      BoundedWalk.settle (routeTurn compiled base) (compiled.steps.keys.length + 1) st = none := by
  rw [routeHop]
  cases hs : BoundedWalk.settle (routeTurn compiled base) (compiled.steps.keys.length + 1) st with
  | none => simp
  | some outcome =>
    obtain ⟨c, -, hc⟩ := BoundedWalk.exists_of_settle hs
    simp only [getD_some, reduceCtorEq, iff_false]
    intro ho
    exact routeTurn_ne_unsettled (ho ▸ hc)

theorem passes_routeTurn_eq :
    BoundedWalk.Passes (routeTurn compiled base) = compiled.DecisionHop base := by
  ext a b
  exact passes_routeTurn

/-- **The harness settles unless the chosen edges cycle** through decision steps. -/
theorem routeHop_settles_iff (compiled : CompiledJourney) (start : StepId) (base : EvalContext) :
    routeHop compiled start base ≠ .unsettled ↔
      ¬ ∃ d, TransGen (compiled.DecisionHop base) start d ∧ TransGen (compiled.DecisionHop base) d d := by
  rw [Ne, routeHop_eq_unsettled, BoundedWalk.settle_eq_none_iff mem_keys_of_passes_routeTurn (Nat.lt_succ_self _),
    passes_routeTurn_eq]

/-- **The hop bound cuts off no walk that would settle**: the harness gives up exactly when the walk
along the chosen edges passes through decision steps forever, in any table. -/
theorem routeHop_unsettled_iff_forever (compiled : CompiledJourney) (start : StepId) (base : EvalContext) :
    routeHop compiled start base = .unsettled ↔
      ∃ visit : ℕ → StepId, visit 0 = start ∧ ∀ n, compiled.DecisionHop base (visit n) (visit (n + 1)) := by
  rw [routeHop_eq_unsettled,
    BoundedWalk.settle_eq_none_iff_forever mem_keys_of_passes_routeTurn (Nat.lt_succ_self _), BoundedWalk.Forever,
    passes_routeTurn_eq]

/-- No signal, no traits, no risk. -/
def blankContext : EvalContext :=
  ⟨⟨"", [], "", ⟨[]⟩⟩, .null, [], [], ⟨.low, 0⟩⟩

/-- A decision that completes when a second factor is due and otherwise asks itself again. -/
def decisionCycle : Journey where
  id := "decision_cycle"
  entry := "password"
  steps :=
    [{ id := "password", kind := .identifierPassword },
     { id := "check", kind := .decision },
     { id := "done", kind := .terminal }]
  transitions :=
    [{ «from» := "password", «to» := "check" },
     { «from» := "check", «to» := "done", guard := some mfaRequired },
     { «from» := "check", «to» := "check" }]

/-- It is compiled, and without the signal the walk from its entry never settles. -/
theorem decisionCycle_unsettled :
    ∃ compiled, compile decisionCycle = some (.ok compiled) ∧
      ReflTransGen compiled.Edge compiled.entry "password" ∧
      routeHop compiled "password" blankContext = .unsettled := by
  have hok : loads (fun compiled => compiled.entry == "password" &&
      decide (routeHop compiled "password" blankContext = .unsettled)) (compile decisionCycle) = true := by decide
  obtain ⟨compiled, hco, hte⟩ := loads_eq_true.mp hok
  rw [Bool.and_eq_true, beq_iff_eq, decide_eq_true_eq] at hte
  exact ⟨compiled, hco, hte.1 ▸ .refl, hte.2⟩

/-! ### The two walks side by side -/

/-- The kinds the walks treat differently: an entry the engine never routes into, and an entry that
renders nothing, which only the engine walks through. -/
def partsWays (rendered : Bool) : StepKind → Bool
  | .registration | .recoveryStart => true
  | .customChallenge | .orgPicker => !rendered
  | _ => false

section Sides

variable {compiled : CompiledJourney} {renders : StepId → Bool} {base : EvalContext} {a b : StepId} {s : CompiledStep}

/-- The engine passes through decision steps too. -/
theorem passes_driveTurn (hh : compiled.DecisionHop base a b) :
    BoundedWalk.Passes (driveTurn compiled renders base) a b := by
  obtain ⟨hh, s, hs, hk⟩ := hh
  rw [BoundedWalk.Passes, driveTurn_of_hop hh hs, hk]
  rfl

variable {k : StepKind} {o : HopOutcome}

/-- The engine holds only where they do not. -/
theorem not_partsWays_of_held {c : StepId}
    (h : driveArrive compiled renders a c k = .inr (.held b)) : c = b ∧ partsWays (renders b) k = false := by
  have hre : ∀ {r : Bool}, (if r then .inr (.held c) else .inl c : StepId ⊕ DriveOutcome) = .inr (.held b) →
      c = b ∧ r = true := by
    intro r hr
    cases r
    · cases hr
    · cases hr
      exact ⟨rfl, rfl⟩
  cases k with
  | identifierPassword | mfaChallenge | mfaEnroll | progressiveProfiling | recoveryVerify =>
    cases h
    exact ⟨rfl, rfl⟩
  | customChallenge | orgPicker =>
    obtain ⟨rfl, hr⟩ := hre h
    exact ⟨rfl, by simp [partsWays, hr]⟩
  | terminal =>
    rw [driveArrive] at h
    split at h <;> cases h
  | decision | registration | recoveryStart | subflowCall | unknown => cases h

/-- Where they do not part ways, what settles the harness settles the engine alike. -/
theorem driveArrive_agrees (hc : ∃ s, compiled.step a = some s)
    (hsa : partsWays (renders b) k = false) (h : routeArrive a b k = .inr o) :
    ∃ o2, driveArrive compiled renders a b k = .inr o2 ∧ o2.settled = o.settled := by
  cases k with
  | identifierPassword | mfaChallenge | mfaEnroll | progressiveProfiling | recoveryVerify =>
    cases h
    exact ⟨.held b, rfl, rfl⟩
  | customChallenge | orgPicker =>
    cases h
    have hr : renders b = true := by simpa [partsWays] using hsa
    exact ⟨.held b, by simp [driveArrive, hr], rfl⟩
  | terminal =>
    cases h
    obtain ⟨s, hs⟩ := hc
    exact ⟨.completed b, by simp [driveArrive, hs], rfl⟩
  | subflowCall | unknown =>
    cases h
    exact ⟨.notFound, rfl, rfl⟩
  | registration | recoveryStart => cases hsa
  | decision => cases h

/-- The harness lands on a step where they part ways. -/
theorem routeHop_of_partsWays {st : StepId}
    (ha : ReflTransGen (compiled.DecisionHop base) st a) (hh : compiled.Hop base a b) (hs : compiled.step b = some s)
    (hps : partsWays (renders b) s.kind = true) : routeHop compiled st base = .landed b false := by
  have ht : routeTurn compiled base a = .inr (.landed b false) := by
    rw [routeTurn_of_hop hh hs]
    revert hps
    cases s.kind <;> intro hps <;> first | rfl | cases hps
  have hr := ReflTransGen.mono (fun _ _ hab => passes_routeTurn.mpr hab) _ _ ha
  have hse := (BoundedWalk.settle_eq_some_iff mem_keys_of_passes_routeTurn
    (Nat.lt_succ_self compiled.steps.keys.length)).mpr ⟨a, hr, ht⟩
  rw [routeHop, hse]
  rfl

/-- The engine holds only where they do not part ways. -/
theorem not_partsWays_of_driveRoute {st : StepId}
    (hh : (driveRoute compiled renders st base).settled = some (b, false)) (hs : compiled.step b = some s) :
    partsWays (renders b) s.kind = false := by
  rw [driveRoute] at hh
  cases hse : BoundedWalk.settle (driveTurn compiled renders base) (compiled.steps.keys.length + 1) st with
  | none =>
    rw [hse] at hh
    cases hh
  | some outcome =>
    rw [hse, getD_some] at hh
    obtain rfl : outcome = .held b := by
      cases outcome with
      | completed | notFound => cases hh
      | held id =>
        cases hh
        rfl
    obtain ⟨c, -, hc⟩ := BoundedWalk.exists_of_settle hse
    rcases hop_or_stuck compiled renders base c with ⟨d, s2, hho, hs2⟩ | ⟨-, hst⟩
    · rw [driveTurn_of_hop hho hs2] at hc
      obtain ⟨rfl, hsa⟩ := not_partsWays_of_held hc
      rw [hs, Option.some.injEq] at hs2
      rw [hs2]
      exact hsa
    · rw [hst] at hc
      cases hc

end Sides

/-- **The harness settles as the engine does exactly when the first step that is no decision is one
they treat alike.** -/
theorem routeHop_agrees_iff {compiled : CompiledJourney} {start : StepId} {first : CompiledStep}
    (hstart : compiled.step start = some first) (renders : StepId → Bool) (base : EvalContext) :
    (routeHop compiled start base).settled = (driveRoute compiled renders start base).settled ↔
      ∀ a b s, ReflTransGen (compiled.DecisionHop base) start a → compiled.Hop base a b → compiled.step b = some s →
        partsWays (renders b) s.kind = false := by
  have hbo := Nat.lt_succ_self compiled.steps.keys.length
  constructor
  · intro hse a b s ha hhop hs
    by_contra hparts
    rw [routeHop_of_partsWays ha hhop hs (Bool.not_eq_false _ ▸ hparts)] at hse
    exact hparts (not_partsWays_of_driveRoute hse.symm hs)
  · intro hsa
    rw [routeHop, driveRoute]
    cases hsettle : BoundedWalk.settle (routeTurn compiled base) (compiled.steps.keys.length + 1) start with
    | none =>
      -- a cycle of decisions is one for both
      obtain ⟨c, hin, hcy⟩ := (BoundedWalk.settle_eq_none_iff mem_keys_of_passes_routeTurn hbo).mp hsettle
      have hmo : ∀ a b, BoundedWalk.Passes (routeTurn compiled base) a b →
          BoundedWalk.Passes (driveTurn compiled renders base) a b :=
        fun _ _ hab => passes_driveTurn (passes_routeTurn.mp hab)
      have hno := (BoundedWalk.settle_eq_none_iff mem_keys_of_passes_driveTurn hbo).mpr
        ⟨c, TransGen.mono hmo _ _ hin, TransGen.mono hmo _ _ hcy⟩
      rw [hno]
      rfl
    | some outcome =>
      obtain ⟨c, hre, hc⟩ := BoundedWalk.exists_of_settle hsettle
      have hre : ReflTransGen (compiled.DecisionHop base) start c :=
        ReflTransGen.mono (fun _ _ hab => passes_routeTurn.mp hab) _ _ hre
      have hcu : ∃ s, compiled.step c = some s := by
        rcases ReflTransGen.cases_tail hre with rfl | ⟨d, -, -, s, hs, -⟩
        · exact ⟨first, hstart⟩
        · exact ⟨s, hs⟩
      obtain ⟨out2, htu, hse⟩ : ∃ o2, driveTurn compiled renders base c = .inr o2 ∧ o2.settled = outcome.settled := by
        rcases hop_or_stuck compiled renders base c with ⟨b, s, hh, hs⟩ | ⟨hst, hs2⟩
        · rw [routeTurn_of_hop hh hs] at hc
          rw [driveTurn_of_hop hh hs]
          exact driveArrive_agrees hcu (hsa c b s hre hh hs) hc
        · rw [hst, Sum.inr.injEq] at hc
          exact ⟨_, hs2, hc ▸ rfl⟩
      have hre2 : ReflTransGen (BoundedWalk.Passes (driveTurn compiled renders base)) start c :=
        ReflTransGen.mono (fun _ _ hab => passes_driveTurn hab) _ _ hre
      rw [(BoundedWalk.settle_eq_some_iff mem_keys_of_passes_driveTurn hbo).mpr ⟨c, hre2, htu⟩]
      exact hse.symm

/-- From the password both walks stop at the second factor. -/
theorem passwordThenMfa_agrees :
    ∃ compiled first, compile passwordThenMfa = some (.ok compiled) ∧ compiled.step "password" = some first ∧
      (routeHop compiled "password" blankContext).settled =
        (driveRoute compiled (fun _ => false) "password" blankContext).settled := by
  have hok : loads (fun compiled => (compiled.step "password").isSome &&
      decide (compiled.chooseEdge "password" (blankContext.seat "password") = some "mfa") &&
      decide ((compiled.step "mfa").map CompiledStep.kind = some .mfaChallenge)) (compile passwordThenMfa) = true := by
    decide
  obtain ⟨compiled, hco, hte⟩ := loads_eq_true.mp hok
  simp only [Bool.and_eq_true, decide_eq_true_eq, isSome_iff_exists] at hte
  obtain ⟨⟨⟨first, hfi⟩, hhop⟩, hki⟩ := hte
  refine ⟨compiled, first, hco, hfi, (routeHop_agrees_iff hfi _ _).mpr ?_⟩
  intro a b s ha hb hs
  -- the walk stops at the second factor
  have hst : a = "password" := by
    rcases ReflTransGen.cases_head ha with rfl | ⟨c, ⟨hc, s2, hs2, hde⟩, -⟩
    · rfl
    · rw [CompiledJourney.Hop, hhop, Option.some.injEq] at hc
      rw [hc, hs2, map_some, hde] at hki
      cases hki
  subst hst
  rw [CompiledJourney.Hop, hhop, Option.some.injEq] at hb
  rw [hb, hs, map_some, Option.some.injEq] at hki
  rw [hki]
  rfl

/-- Password, then the organization picker, then done. -/
def skippedPicker : Journey where
  id := "skipped_picker"
  entry := "password"
  steps :=
    [{ id := "password", kind := .identifierPassword },
     { id := "pick", kind := .orgPicker },
     { id := "done", kind := .terminal }]
  transitions := [{ «from» := "password", «to» := "pick" }, { «from» := "pick", «to» := "done" }]

/-- With nothing to pick the engine completes, and the harness lands on the picker. -/
theorem skippedPicker_diverges :
    ∃ compiled, compile skippedPicker = some (.ok compiled) ∧
      (routeHop compiled "password" blankContext).settled = some ("pick", false) ∧
      (driveRoute compiled (fun _ => false) "password" blankContext).settled = some ("done", true) := by
  have hok : loads (fun compiled =>
      decide ((routeHop compiled "password" blankContext).settled = some ("pick", false)) &&
        decide ((driveRoute compiled (fun _ => false) "password" blankContext).settled = some ("done", true)))
      (compile skippedPicker) = true := by decide
  obtain ⟨compiled, hco, hte⟩ := loads_eq_true.mp hok
  rw [Bool.and_eq_true, decide_eq_true_eq, decide_eq_true_eq] at hte
  exact ⟨compiled, hco, hte⟩

end IronAuth.Journeys
