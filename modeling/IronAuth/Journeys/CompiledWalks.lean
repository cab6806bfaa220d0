import IronAuth.Journeys.Compile
import IronAuth.Lib.Graph

/-!
# Walks of a compiled journey

What holds on every walk along the edges of a compiled table, whatever its guards
evaluate to. A step that reads the subject is always preceded by one that establishes
it. A walk need not be able to complete: the liveness check asks for one reachable
terminal, not for one that is reachable from everywhere.
-/

namespace IronAuth.Journeys

open Relation
open Lib

/-! ### The subject -/

variable (compiled : CompiledJourney)

/-- The table has a step at the id that reads the subject. -/
def CompiledJourney.RequiresSubject (id : StepId) : Prop :=
  ∃ s, compiled.step id = some s ∧ s.kind.requiresSubject = true

/-- The table has a step at the id that establishes the subject. -/
def CompiledJourney.EstablishesSubject (id : StepId) : Prop :=
  ∃ s, compiled.step id = some s ∧ s.kind.establishesSubject = true

/-- Some step with the id reads the subject. -/
def RequiresSubjectAt (steps : List Step) (id : StepId) : Prop :=
  ∃ step ∈ steps, step.id = id ∧ step.kind.requiresSubject = true

/-- The check finds nothing exactly when the subject comes first on every walk. -/
theorem checkSubjectEstablishment_eq_nil_iff_walks {e : StepId} {s : List Step} {ts : List Transition}
    {ids : List StepId} {b : String} :
    checkSubjectEstablishment e s ts ids b = [] ↔
      ∀ walk, Graph.WalkFrom (DeclaredEdge ts ids) e walk →
        Graph.Precedes (fun id => establishes s id = true) (RequiresSubjectAt s) walk := by
  rw [checkSubjectEstablishment_eq_nil, Graph.forall_walk_precedes_iff]
  simp only [Bool.not_eq_true]
  constructor
  · intro hn id hid
    obtain ⟨step, hs, rfl, hr⟩ := hid
    exact hn step hs hr
  · intro hn step hs hr
    exact hn step.id ⟨step, hs, rfl, hr⟩

variable {f : Journey} {rej : Bool}

theorem establishesSubject_lower (hnd : (stepIds f.steps).Nodup) {id : StepId} :
    (lower f).EstablishesSubject id ↔ establishes f.steps id = true := by
  rw [CompiledJourney.EstablishesSubject, establishes, Option.any_eq_true]
  simp only [step_lower hnd, Option.map_eq_some_iff, find?_step_eq_some hnd]
  constructor
  · rintro ⟨s, ⟨step, hs, hid, rfl⟩, hk⟩
    exact ⟨step.kind, ⟨step, ⟨hs, hid⟩, rfl⟩, hk⟩
  · intro ⟨kind, ⟨step, ⟨hs, hid⟩, hk⟩, he⟩
    refine ⟨compileStep step, ⟨step, hs, hid, rfl⟩, ?_⟩
    rw [compileStep, hk]
    exact he

/-- **No step reads a subject that is not there.** On every walk of a compiled table each step that
reads the subject comes after one that establishes it; and a graph all of whose walks have that
property passes the check. -/
theorem subject_established_first :
    (∀ (doc : Journey) (admitBuiltinOnly : Bool) (compiled : CompiledJourney),
      compileInner doc admitBuiltinOnly = some (.ok compiled) →
        ∀ walk, Graph.WalkFrom compiled.Edge compiled.entry walk →
          Graph.Precedes compiled.EstablishesSubject compiled.RequiresSubject walk) ∧
    (∀ (flat : Journey) (base : String),
      (∀ walk, Graph.WalkFrom (DeclaredEdge flat.transitions (stepIds flat.steps)) flat.entry walk →
        Graph.Precedes (fun id => establishes flat.steps id = true) (RequiresSubjectAt flat.steps) walk) →
      checkSubjectEstablishment flat.entry flat.steps flat.transitions (stepIds flat.steps) base = []) := by
  refine ⟨?_, fun flat base hwa => checkSubjectEstablishment_eq_nil_iff_walks.mpr hwa⟩
  intro doc admitBuiltinOnly compiled hom walk hal
  obtain ⟨flat, hco, rfl, -⟩ := compileInner_eq_ok.mp hom
  obtain ⟨hok, hsu⟩ := validateErrors_eq_nil.mp (composeInner_eq_ok.mp hco).2.2
  have hnd := hok.graph.nodup
  have hwa := checkSubjectEstablishment_eq_nil_iff_walks.mp
    (checkSubjectEstablishment_eq_nil.mpr hsu : checkSubjectEstablishment _ _ _ _ "" = [])
  have hde : Graph.WalkFrom (DeclaredEdge flat.transitions (stepIds flat.steps)) flat.entry walk := by
    refine ⟨hal.1, hal.2.imp fun a b hed => ?_⟩
    obtain ⟨t, ht, rfl, rfl⟩ := edge_lower.mp hed
    exact ⟨edge_lower.mp hed, hok.graph.endpoints t ht⟩
  intro before id after hsp hid
  obtain ⟨s, hs, hre⟩ := hid
  obtain ⟨step, hte, hst, rfl⟩ := (step_lower hnd).mp hs
  obtain ⟨id2, hid2, hest⟩ := hwa walk hde before id after hsp ⟨step, hte, hst, hre⟩
  exact ⟨id2, hid2, (establishesSubject_lower hnd).mpr hest⟩

/-- Password, then a second factor, then done. -/
def passwordThenMfa : Journey where
  id := "password_then_mfa"
  entry := "password"
  steps :=
    [{ id := "password", kind := .identifierPassword },
     { id := "mfa", kind := .mfaChallenge },
     { id := "done", kind := .terminal }]
  transitions := [{ «from» := "password", «to» := "mfa" }, { «from» := "mfa", «to» := "done" }]

theorem passwordThenMfa_subject_first :
    (∃ compiled, compileInner passwordThenMfa false = some (.ok compiled) ∧
      ∀ walk, Graph.WalkFrom compiled.Edge compiled.entry walk →
        Graph.Precedes compiled.EstablishesSubject compiled.RequiresSubject walk) ∧
    checkSubjectEstablishment passwordThenMfa.entry passwordThenMfa.steps passwordThenMfa.transitions
      (stepIds passwordThenMfa.steps) "" = [] := by
  constructor
  · have hok : loads (fun _ => true) (compileInner passwordThenMfa false) = true := by decide
    obtain ⟨compiled, hco, -⟩ := loads_eq_true.mp hok
    exact ⟨compiled, hco, subject_established_first.1 _ _ _ hco⟩
  · apply subject_established_first.2
    intro walk hwa before id after hsp hid
    -- the walk starts at the password, which establishes the subject
    cases before with
    | nil =>
      obtain ⟨hhe, -⟩ := hwa
      rw [hsp] at hhe
      obtain rfl : id = "password" := Option.some.inj hhe
      exact absurd hid (by unfold RequiresSubjectAt; decide)
    | cons x before =>
      obtain ⟨hhe, -⟩ := hwa
      rw [hsp] at hhe
      obtain rfl : x = "password" := Option.some.inj hhe
      exact ⟨_, List.mem_cons_self .., by decide⟩

/-! ### Completion -/

/-- The table has a terminal step at the id. -/
def CompiledJourney.IsTerminal (id : StepId) : Prop :=
  ∃ s, compiled.step id = some s ∧ s.kind = .terminal

/-- Every step that can be reached can complete. -/
def CompiledJourney.Completes : Prop :=
  ∀ id, ReflTransGen compiled.Edge compiled.entry id → ∃ last, ReflTransGen compiled.Edge id last ∧ compiled.IsTerminal last

/-- A reachable cycle that no transition leaves for good: whatever it leads to leads back. -/
def HasTrap (flat : Journey) : Prop :=
  ∃ id, ReflTransGen (FlowEdge flat.transitions) flat.entry id ∧ TransGen (FlowEdge flat.transitions) id id ∧
    ∀ id2, ReflTransGen (FlowEdge flat.transitions) id id2 → ReflTransGen (FlowEdge flat.transitions) id2 id

/-- A declared step has no transition exactly when it is terminal. -/
theorem isTerminal_lower_iff {a : Bool}
    (hok : JourneyOk rej a f) {id : StepId} (hid : id ∈ stepIds f.steps) :
    (lower f).IsTerminal id ↔ ¬ ∃ id2, FlowEdge f.transitions id id2 := by
  have hte : (lower f).IsTerminal id ↔ id ∈ terminalIds f.steps := by
    rw [CompiledJourney.IsTerminal, terminalIds, mem_stepIds]
    simp only [step_lower hok.graph.nodup, List.mem_filter, StepKind.isTerminal_eq_true]
    constructor
    · rintro ⟨s, ⟨step, hs, hid, rfl⟩, hk⟩
      exact ⟨step, ⟨hs, hk⟩, hid⟩
    · intro ⟨step, ⟨hs, hk⟩, hid⟩
      exact ⟨compileStep step, ⟨step, hs, hid, rfl⟩, hk⟩
  rw [hte]
  constructor
  · intro hm he
    obtain ⟨id2, t, ht, hf, -⟩ := he
    exact hok.leaf t ht (hf ▸ hm)
  · intro hst
    obtain ⟨step, hs, rfl⟩ := mem_stepIds.mp hid
    rcases hok.graph.onward step hs with hm | ⟨t, ht, hf⟩
    · exact hm
    · exact absurd ⟨t.to, t, ht, hf, rfl⟩ hst

/-- **Every reachable step can complete exactly when the composed journey has no trap.** -/
theorem completes_iff_no_trap {doc flat : Journey} {admitBuiltinOnly : Bool} {compiled : CompiledJourney}
    (hcompose : composeInner doc admitBuiltinOnly = some (.ok flat))
    (hcompile : compileInner doc admitBuiltinOnly = some (.ok compiled)) : compiled.Completes ↔ ¬ HasTrap flat := by
  obtain ⟨flat2, hco2, rfl, -⟩ := compileInner_eq_ok.mp hcompile
  obtain rfl : flat = flat2 := by simpa using hcompose.symm.trans hco2
  have hok := (validateErrors_eq_nil.mp (composeInner_eq_ok.mp hcompose).2.2).1
  have hdg : (lower flat).Edge = FlowEdge flat.transitions := by
    ext a b
    exact edge_lower
  have hde : ∀ {id : StepId}, ReflTransGen (FlowEdge flat.transitions) flat.entry id → id ∈ stepIds flat.steps := by
    intro id hre
    rcases ReflTransGen.cases_tail hre with rfl | ⟨c, -, t, ht, -, rfl⟩
    · exact hok.graph.entry_mem
    · exact (hok.graph.endpoints t ht).2
  rw [CompiledJourney.Completes, hdg]
  constructor
  · intro hco ⟨id, hid, hcycle, hba⟩
    obtain ⟨last, hla, hte⟩ := hco id hid
    have hst := (isTerminal_lower_iff hok (hde (hid.trans hla))).mp hte
    -- the terminal leads back to the cycle, so it has an edge
    apply hst
    rcases ReflTransGen.cases_head (hba last hla) with heq | ⟨next, hne, -⟩
    · obtain ⟨next, hne, -⟩ := TransGen.head'_iff.mp hcycle
      exact ⟨next, heq ▸ hne⟩
    · exact ⟨next, hne⟩
  · intro hno id hid
    by_contra hnever
    push Not at hnever
    have hfi : {id2 | ReflTransGen (FlowEdge flat.transitions) id id2}.Finite := by
      refine (List.finite_toSet (stepIds flat.steps)).subset fun id2 hid2 => ?_
      exact hde (hid.trans hid2)
    obtain ⟨trap, htr, hba⟩ := Graph.exists_trap hfi
    apply hno
    refine ⟨trap, hid.trans htr, ?_, hba⟩
    -- the trap is not terminal, so it has an edge, and that leads back
    have hed := mt (isTerminal_lower_iff hok (hde (hid.trans htr))).mpr (hnever trap htr)
    push Not at hed
    obtain ⟨next, hne⟩ := hed
    exact TransGen.head' hne (hba next (.single hne))

/-- The check is passed and there is no trap. -/
theorem passwordThenMfa_completes :
    ∃ flat compiled, composeInner passwordThenMfa false = some (.ok flat) ∧
      compileInner passwordThenMfa false = some (.ok compiled) ∧ (compiled.Completes ↔ ¬ HasTrap flat) := by
  have hok : loads (fun _ => true) (compileInner passwordThenMfa false) = true := by decide
  obtain ⟨compiled, hco, -⟩ := loads_eq_true.mp hok
  obtain ⟨flat, hom, -⟩ := compileInner_eq_ok.mp hco
  exact ⟨flat, compiled, hom, hco, completes_iff_no_trap hom hco⟩

/-- Done when a second factor is due, and otherwise a profile step that leads only to itself. -/
def exitlessCycle : Journey where
  id := "exitless_cycle"
  entry := "password"
  steps :=
    [{ id := "password", kind := .identifierPassword },
     { id := "profile", kind := .progressiveProfiling },
     { id := "done", kind := .terminal }]
  transitions :=
    [{ «from» := "password", «to» := "done", guard := some mfaRequired },
     { «from» := "password", «to» := "profile" },
     { «from» := "profile", «to» := "profile" }]

/-- It is compiled, and from the profile step no terminal can be reached. -/
theorem exitlessCycle_accepted :
    ∃ compiled, compile exitlessCycle = some (.ok compiled) ∧ ¬ compiled.Completes := by
  have hok : loads (fun compiled =>
      (compiled.edges compiled.entry).any (fun edge => edge.to == "profile") &&
        (compiled.edges "profile").all (fun edge => edge.to == "profile") &&
        ((compiled.step "profile").map CompiledStep.kind != some .terminal)) (compile exitlessCycle) = true := by decide
  obtain ⟨compiled, hom, hes⟩ := loads_eq_true.mp hok
  refine ⟨compiled, hom, fun hco => ?_⟩
  simp only [Bool.and_eq_true, List.any_eq_true, List.all_eq_true, beq_iff_eq, bne_iff_ne] at hes
  obtain ⟨⟨hen, hse⟩, hki⟩ := hes
  have hst : ∀ last, ReflTransGen compiled.Edge "profile" last → last = "profile" := by
    intro last hla
    induction hla with
    | refl => rfl
    | tail _ hed ih =>
      obtain ⟨edge, hmem, rfl⟩ := hed
      exact hse edge (ih ▸ hmem)
  obtain ⟨last, hla, s, hs, hte⟩ := hco "profile" (.single hen)
  rw [hst last hla] at hs
  exact hki (by rw [hs, Option.map_some, hte])

end IronAuth.Journeys
