import IronAuth.Journeys.Routing

/-!
# The compiled table

`compile` lowers a composed journey into the table the engine runs: the steps by id,
the guarded edges of each step in document order, and the reachable set. It refuses a
journey from whose entry no terminal step is reachable.
-/

namespace IronAuth.Journeys

open Relation List
open Lib

/-- One compiled step. -/
structure CompiledStep where
  kind : StepKind
  nodeGroup : Option String
  decision : Option DecisionSpec
  factor : Option String

/-- The transition table. A `BTreeMap` is an association list that keeps its keys distinct. -/
structure CompiledJourney where
  entry : StepId
  steps : AList fun _ : StepId => CompiledStep
  transitions : AList fun _ : StepId => List (GuardedEdge StepId)
  reachable : List StepId

namespace CompiledJourney

variable (compiled : CompiledJourney)

/-- The compiled step for an id. -/
def step (id : StepId) : Option CompiledStep := compiled.steps.lookup id

/-- The ordered edges that leave a step. -/
def edges (id : StepId) : List (GuardedEdge StepId) := (compiled.transitions.lookup id).getD []

/-- The first edge that applies. -/
def chooseEdge (id : StepId) (ctx : EvalContext) : Option StepId :=
  firstTaken (fun guard => evaluate guard ctx) (compiled.edges id)

/-- An edge of the table, whatever its guard. -/
def Edge (a b : StepId) : Prop := ∃ edge ∈ compiled.edges a, edge.to = b

end CompiledJourney

/-! ### Lowering -/

/-- The part of a step the engine keeps. -/
def compileStep (step : Step) : CompiledStep := ⟨step.kind, step.nodeGroup, step.decision, step.factor⟩

/-- The steps by id. -/
def indexSteps (steps : List Step) : AList fun _ : StepId => CompiledStep :=
  steps.foldl (fun table step => table.insert step.id (compileStep step)) ∅

/-- The edges by source, in document order. -/
def indexTransitions (transitions : List Transition) : AList fun _ : StepId => List (GuardedEdge StepId) :=
  transitions.foldl (fun table t => table.insert t.from ((table.lookup t.from).getD [] ++ [⟨t.to, t.guard⟩])) ∅

/-- The table of a flat journey. -/
def lower (flat : Journey) : CompiledJourney where
  entry := flat.entry
  steps := indexSteps flat.steps
  transitions := indexTransitions flat.transitions
  reachable := reachableSteps flat.entry flat.transitions (stepIds flat.steps)

/-- Compile a journey: compose it, build the table, and ask for a reachable terminal. -/
def compileInner (doc : Journey) (admitBuiltinOnly : Bool) : Option (Except (List JourneyError) CompiledJourney) :=
  match composeInner doc admitBuiltinOnly with
  | none => none
  | some (.error errors) => some (.error errors)
  | some (.ok flat) =>
    let table := lower flat
    if flat.steps.any fun step => step.kind.isTerminal && table.reachable.contains step.id then some (.ok table)
    else some (.error [.noReachableCompletion])

/-- Compile a custom journey. -/
def compile (doc : Journey) : Option (Except (List JourneyError) CompiledJourney) := compileInner doc false

/-- Compile an embedded built-in journey. -/
def compileBuiltin (doc : Journey) : Option (Except (List JourneyError) CompiledJourney) := compileInner doc true

/-! ### What the table holds -/

/-- The fold over the transitions appends those of each source in order. -/
theorem lookup_indexTransitions_aux (id : StepId) (ts : List Transition) :
    ∀ ta : AList fun _ : StepId => List (GuardedEdge StepId),
      ((ts.foldl (fun ta t => ta.insert t.from ((ta.lookup t.from).getD [] ++ [⟨t.to, t.guard⟩]))
        ta).lookup id).getD [] = (ta.lookup id).getD [] ++
          (ts.filter fun t => t.from == id).map fun t => ⟨t.to, t.guard⟩ := by
  induction ts with
  | nil => intro ta; simp
  | cons t ts ih =>
    intro ta
    rw [foldl_cons, ih]
    by_cases hf : t.from = id
    · subst hf
      simp
    · rw [AList.lookup_insert_ne (Ne.symm hf)]
      simp [hf]

/-- The edges of a step are its transitions in document order. -/
theorem edges_lower (f : Journey) (id : StepId) : (lower f).edges id = flatEdges f id := by
  rw [CompiledJourney.edges, lower, indexTransitions, lookup_indexTransitions_aux, AList.lookup_empty]
  rfl

theorem edge_lower {f : Journey} {a b : StepId} : (lower f).Edge a b ↔ FlowEdge f.transitions a b := by
  rw [CompiledJourney.Edge, edges_lower, flatEdges]
  constructor
  · rintro ⟨e, he, hto⟩
    obtain ⟨t, ht, rfl⟩ := mem_map.mp he
    obtain ⟨hm, hf⟩ := mem_filter.mp ht
    exact ⟨t, hm, beq_iff_eq.mp hf, hto⟩
  · rintro ⟨t, hm, hf, hto⟩
    exact ⟨⟨t.to, t.guard⟩, mem_map.mpr ⟨t, mem_filter.mpr ⟨hm, by simp [hf]⟩, rfl⟩, hto⟩

theorem lookup_indexSteps_aux {s : List Step} (hnd : (stepIds s).Nodup) (id : StepId) :
    ∀ t : AList fun _ : StepId => CompiledStep,
      (s.foldl (fun t step => t.insert step.id (compileStep step)) t).lookup id =
        ((s.find? fun step => step.id == id).map compileStep).or (t.lookup id) := by
  induction s with
  | nil => intro t; rfl
  | cons step s ih =>
    intro t
    rw [stepIds, map_cons, nodup_cons] at hnd
    rw [foldl_cons, ih hnd.2]
    by_cases hid : step.id = id
    · subst hid
      have hn : (s.find? fun s2 => s2.id == step.id) = none := by
        refine List.find?_eq_none.mpr fun s2 hs2 hid => hnd.1 ?_
        rw [← beq_iff_eq.mp hid]
        exact mem_map_of_mem hs2
      rw [hn, AList.lookup_insert]
      simp
    · rw [AList.lookup_insert_ne (Ne.symm hid)]
      simp [hid]

/-- The steps of the table are those of the flat journey. -/
theorem step_lower {f : Journey} (hnd : (stepIds f.steps).Nodup) {id : StepId} {s : CompiledStep} :
    (lower f).step id = some s ↔ ∃ step ∈ f.steps, step.id = id ∧ compileStep step = s := by
  rw [CompiledJourney.step, lower, indexSteps, lookup_indexSteps_aux hnd, AList.lookup_empty, Option.or_none,
    Option.map_eq_some_iff]
  simp [find?_step_eq_some hnd, and_assoc]

/-- **What is compiled**: the table of a composed journey with a reachable terminal. -/
theorem compileInner_eq_ok {doc : Journey} {admitBuiltinOnly : Bool} {compiled : CompiledJourney} :
    compileInner doc admitBuiltinOnly = some (.ok compiled) ↔
      ∃ f, composeInner doc admitBuiltinOnly = some (.ok f) ∧ compiled = lower f ∧
        ∃ step ∈ f.steps, step.kind = .terminal ∧
          ReflTransGen (DeclaredEdge f.transitions (stepIds f.steps)) f.entry step.id := by
  have hr : ∀ f : Journey, (f.steps.any fun step =>
      step.kind.isTerminal && (lower f).reachable.contains step.id) = true ↔
      ∃ step ∈ f.steps, step.kind = .terminal ∧
        ReflTransGen (DeclaredEdge f.transitions (stepIds f.steps)) f.entry step.id := by
    intro f
    simp [any_eq_true, StepKind.isTerminal_eq_true, lower, mem_reachableSteps]
  unfold compileInner
  cases hc : composeInner doc admitBuiltinOnly with
  | none => simp
  | some r =>
    cases r with
    | error e => simp
    | ok f =>
      simp only [Option.some.injEq, Except.ok.injEq, exists_eq_left']
      by_cases ht : (f.steps.any fun step =>
          step.kind.isTerminal && (lower f).reachable.contains step.id) = true
      · rw [if_pos ht]
        simp only [Option.some.injEq, Except.ok.injEq, (hr f).mp ht, and_true]
        exact eq_comm
      · rw [if_neg ht]
        simp only [Option.some.injEq, reduceCtorEq, false_iff, not_and]
        exact fun _ he => ht ((hr f).mpr he)

/-! ### The guards of a compiled table -/

section Guards

variable {doc : Journey} {admitBuiltinOnly : Bool} {compiled : CompiledJourney}

/-- The guards, those of inlined subflows included, are those of a flat journey that validates. -/
theorem typeChecks_of_compileInner (h : compileInner doc admitBuiltinOnly = some (.ok compiled)) {id : StepId}
    {e : GuardedEdge StepId} (he : e ∈ compiled.edges id) {guard : Predicate} (hgd : guard ∈ e.guard) :
    TypeChecks guard := by
  obtain ⟨f, hf, rfl, -⟩ := compileInner_eq_ok.mp h
  have hok := (validateErrors_eq_nil.mp (composeInner_eq_ok.mp hf).2.2).1
  rw [edges_lower, flatEdges] at he
  obtain ⟨t, ht, rfl⟩ := mem_map.mp he
  exact hok.graph.guards t (mem_of_mem_filter ht) guard hgd

/-- **Every guard of a compiled journey evaluates, in every context**, so that the walk stops exactly
where all edges are guarded and no guard holds. -/
theorem guards_evaluate (h : compileInner doc admitBuiltinOnly = some (.ok compiled)) (id : StepId) (ctx : EvalContext) :
    (∀ edge ∈ compiled.edges id, ∀ guard ∈ edge.guard, ∃ b, evaluate guard ctx = .ok b) ∧
      (compiled.chooseEdge id ctx = none ↔ Exhausted (fun guard => evaluate guard ctx) (compiled.edges id)) := by
  have hall : ∀ edge ∈ compiled.edges id, ∀ guard ∈ edge.guard, ∃ b, evaluate guard ctx = .ok b := by
    intro edge hed guard hgu
    obtain ⟨b, hb⟩ := evaluate_live ctx (typeChecks_of_compileInner h hed hgu)
    exact ⟨b, hb ctx ⟨rfl, rfl, rfl⟩⟩
  exact ⟨hall, firstTaken_eq_none_iff hall⟩

theorem exists_compile_stepUpJourney : ∃ compiled, compile stepUpJourney = some (.ok compiled) := by
  have hok : loads (fun _ => true) (compile stepUpJourney) = true := by decide
  obtain ⟨compiled, hc, -⟩ := loads_eq_true.mp hok
  exact ⟨compiled, hc⟩

theorem stepUpJourney_guards_evaluate :
    ∃ compiled, compile stepUpJourney = some (.ok compiled) ∧ ∀ ctx,
      (∀ edge ∈ compiled.edges "password", ∀ guard ∈ edge.guard, ∃ b, evaluate guard ctx = .ok b) ∧
        (compiled.chooseEdge "password" ctx = none ↔
          Exhausted (fun guard => evaluate guard ctx) (compiled.edges "password")) := by
  obtain ⟨compiled, hco⟩ := exists_compile_stepUpJourney
  exact ⟨compiled, hco, guards_evaluate hco "password"⟩

/-- **The chosen edge depends on live sources only**: not on groups, scopes or the risk score. -/
theorem chooseEdge_reads_live (h : compileInner doc admitBuiltinOnly = some (.ok compiled)) {ctx ctx2 : EvalContext}
    (hagrees : ctx.AgreesLive ctx2) (id : StepId) : compiled.chooseEdge id ctx = compiled.chooseEdge id ctx2 := by
  refine firstTaken_congr fun edge hed guard hgu => ?_
  obtain ⟨b, hb⟩ := evaluate_live ctx (typeChecks_of_compileInner h hed hgu)
  rw [hb ctx ⟨rfl, rfl, rfl⟩, hb ctx2 hagrees]

theorem stepUpJourney_ignores_scopes :
    ∃ compiled, compile stepUpJourney = some (.ok compiled) ∧ ∀ ctx,
      compiled.chooseEdge "password" ctx = compiled.chooseEdge "password" { ctx with subjectScopes := ["admin"] } := by
  obtain ⟨compiled, hco⟩ := exists_compile_stepUpJourney
  refine ⟨compiled, hco, fun ctx => ?_⟩
  have hag : ctx.AgreesLive { ctx with subjectScopes := ["admin"] } := ⟨rfl, rfl, rfl⟩
  exact chooseEdge_reads_live hco hag "password"

end Guards

end IronAuth.Journeys
