import IronAuth.Journeys.Eval
import IronAuth.Lib.Loops
import IronAuth.Lib.Worklist

/-!
# The structural checks of the load-time validator

The checks of `ironauth-journey/src/validate.rs` that a journey and a subflow
fragment share. Each returns the errors it pushes, in document order; `base` is
the pointer of the document that carries the steps (empty for a journey).

For each check one theorem says when it pushes nothing. These verdicts do not
mention `base`: a check refuses a document for what is in it, not for where it
stands.
-/

namespace IronAuth.Journeys

open Relation List
open Lib

/-! ### Errors -/

/-- `NODE_GROUPS`. -/
def nodeGroups : List String :=
  ["default", "password", "passkey", "totp", "email_otp", "sms_otp", "recovery_code", "oidc", "profile",
    "client_identity", "scope", "submit"]

/-- Why an artifact is refused. -/
inductive JourneyError where
  | unknownStepKind (pointer kind : String)
  | builtinOnlyStepKind (pointer kind : String)
  | unknownNodeGroup (pointer group : String)
  | danglingTransition (pointer : String) («to» : StepId)
  | danglingSubflowRef (pointer : String) (subflow : SubflowId)
  | unreachableStep (pointer : String) (step : StepId)
  | deadEndStep (pointer : String) (step : StepId)
  | subjectStepNotEstablished (pointer : String) (step : StepId)
  | missingStepAttachment (pointer : String) (step : StepId) (kind : String)
  | unexpectedStepAttachment (pointer : String) (step : StepId)
  | terminalHasTransition (pointer : String) (step : StepId)
  | engineIncompatible (pointer : String) (declared supported : UInt32)
  | nonDeterministicTransition (pointer : String)
  | duplicateStepId (pointer : String) (id : StepId)
  | unknownEntry (pointer : String)
  | predicateType (error : PredicateTypeError)
  | unknownBuiltinSubflow (pointer name : String)
  | unknownSubflowDefinition (pointer : String) (subflow : SubflowId)
  | duplicateSubflowDefinition (pointer : String) (id : SubflowId)
  | subflowCycle (pointer : String) (subflow : SubflowId)
  | subflowTerminalStep (pointer : String) (step : StepId)
  | subflowNoExit (pointer : String) (subflow : SubflowId)
  | unknownSubflowExit (pointer : String) (exit : StepId)
  | subflowExitNotLeaf (pointer : String) (exit : StepId)
  | reservedStepIdSeparator (pointer : String) (id : StepId)
  | duplicateSubflowRef (pointer : String) (id : SubflowId)
  | composedTooLarge (limit : ℕ)
  | noReachableCompletion
  deriving DecidableEq

/-! ### Step ids, kinds and node groups -/

/-- Flag each step whose id an earlier step has. -/
def collectStepIds (steps : List Step) (base : String) : List JourneyError :=
  (Loops.markRepeats (fun step => some (Step.id step)) [] steps).zipIdx.flatMap fun ((step, repeated), index) =>
    if repeated then [.duplicateStepId s!"{base}/steps/{index}/id" step.id] else []

/-- The vocabulary of one step: its kind and its node group. -/
def checkKindAndNodeGroup (step : Step) (stepPtr : String) (admitBuiltinOnly : Bool) : List JourneyError :=
  (if !step.kind.isKnown then [JourneyError.unknownStepKind (stepPtr ++ "/kind") step.kind.asWire]
    else if step.kind.isBuiltinOnly && !admitBuiltinOnly then
      [JourneyError.builtinOnlyStepKind (stepPtr ++ "/kind") step.kind.asWire]
    else []) ++
  (match step.nodeGroup with
    | some group => if !nodeGroups.contains group then [JourneyError.unknownNodeGroup (stepPtr ++ "/node_group") group] else []
    | none => [])

/-- The attachments of one step: each required one is there, and no stray one is. -/
def checkAttachmentCoherence (step : Step) (stepPtr : String) : List JourneyError :=
  (if step.kind = .subflowCall ∧ step.subflow.isNone then
      [JourneyError.missingStepAttachment stepPtr step.id "subflow_call"]
    else if step.kind = .customChallenge ∧ step.factor.isNone then
      [JourneyError.missingStepAttachment stepPtr step.id "custom_challenge"]
    else []) ++
  (if step.subflow.isSome ∧ step.kind ≠ .subflowCall ∧ step.kind.isKnown then
      [JourneyError.unexpectedStepAttachment (stepPtr ++ "/subflow") step.id] else []) ++
  (if step.decision.isSome ∧ step.kind ≠ .decision ∧ step.kind.isKnown then
      [JourneyError.unexpectedStepAttachment (stepPtr ++ "/decision") step.id] else []) ++
  (if step.factor.isSome ∧ step.kind ≠ .customChallenge ∧ step.kind.isKnown then
      [JourneyError.unexpectedStepAttachment (stepPtr ++ "/factor") step.id] else [])

/-! ### Transitions -/

/-- The source of an unguarded transition. -/
def unguardedSource (transition : Transition) : Option StepId :=
  if transition.guard.isNone then some transition.from else none

/-- Flag each endpoint outside `ids`, and each unguarded transition after the first from one step. -/
def checkTransitionEndpoints (ids : List StepId) (transitions : List Transition) (base : String) :
    List JourneyError :=
  (Loops.markRepeats unguardedSource [] transitions).zipIdx.flatMap fun ((transition, repeated), index) =>
    (if !ids.contains transition.from then
        [JourneyError.danglingTransition s!"{base}/transitions/{index}/from" transition.from] else []) ++
    (if !ids.contains transition.to then
        [JourneyError.danglingTransition s!"{base}/transitions/{index}/to" transition.to] else []) ++
    (if repeated then [JourneyError.nonDeterministicTransition s!"{base}/transitions/{index}"] else [])

/-- The successors of a step, along the transitions whose endpoints are both declared. -/
def adjacency (transitions : List Transition) (ids : List StepId) (node : StepId) : List StepId :=
  (transitions.filter fun t => t.from == node && ids.contains t.from && ids.contains t.to).map Transition.to

/-- The steps reachable from the entry. -/
def reachableSteps (entry : StepId) (transitions : List Transition) (ids : List StepId) : List StepId :=
  Worklist.walk (adjacency transitions ids) (transitions.length + 2) [entry] []

/-- Flag each unreachable step, then each reachable step that has no way on and is no terminal. -/
def checkReachabilityAndDeadEnds (entry : StepId) (steps : List Step) (transitions : List Transition)
    (ids roleTerminals : List StepId) (base : String) : List JourneyError :=
  let reachable := reachableSteps entry transitions ids
  let sources := transitions.map Transition.from
  (steps.zipIdx.flatMap fun (step, index) =>
    if !reachable.contains step.id then [JourneyError.unreachableStep s!"{base}/steps/{index}" step.id] else []) ++
  (steps.zipIdx.flatMap fun (step, index) =>
    if reachable.contains step.id && !roleTerminals.contains step.id && !sources.contains step.id then
      [JourneyError.deadEndStep s!"{base}/steps/{index}" step.id] else [])

/-! ### Subject establishment -/

/-- Whether the first step with this id establishes the subject. -/
def establishes (steps : List Step) (node : StepId) : Bool :=
  ((steps.find? fun step => step.id == node).map Step.kind).any StepKind.establishesSubject

/-- The walk that stops at establishing steps: the steps reachable before a subject is established. -/
def reachableBeforeEstablishment (entry : StepId) (steps : List Step) (transitions : List Transition)
    (ids : List StepId) : List StepId :=
  Worklist.walk (fun node => if establishes steps node then [] else adjacency transitions ids node)
    (transitions.length + 2) [entry] []

/-- Flag each step that reads the subject and is reachable before one is established. -/
def checkSubjectEstablishment (entry : StepId) (steps : List Step) (transitions : List Transition)
    (ids : List StepId) (base : String) : List JourneyError :=
  let before := reachableBeforeEstablishment entry steps transitions ids
  steps.zipIdx.flatMap fun (step, index) =>
    if step.kind.requiresSubject && before.contains step.id then
      [.subjectStepNotEstablished s!"{base}/steps/{index}" step.id] else []

/-! ### Predicates -/

/-- Type-check one predicate. -/
def collectPredicateErrors (predicate : Predicate) (base : String) : List JourneyError :=
  (typecheckPredicate predicate base).map .predicateType

/-- Type-check every guard, then every decision. -/
def checkPredicates (steps : List Step) (transitions : List Transition) (base : String) : List JourneyError :=
  (transitions.zipIdx.flatMap fun (transition, index) =>
    match transition.guard with
    | some guard => collectPredicateErrors guard s!"{base}/transitions/{index}/guard"
    | none => []) ++
  (steps.zipIdx.flatMap fun (step, index) =>
    match step.decision with
    | some (.predicate predicate) =>
        collectPredicateErrors predicate s!"{base}/steps/{index}/decision/predicate"
    | none => [])

/-! ### When each check pushes nothing -/

variable {steps : List Step} {base : String}

theorem collectStepIds_eq_nil : collectStepIds steps base = [] ↔ (stepIds steps).Nodup := by
  unfold collectStepIds
  rw [Loops.flatMap_zipIdx_markRepeats_eq_nil (P := fun _ => True) (by intro a r i; cases r <;> simp)]
  simp [stepIds]

/-- A step in the vocabulary. -/
structure StepInVocabulary (admitBuiltinOnly : Bool) (step : Step) : Prop where
  known : step.kind.isKnown = true
  builtin : step.kind.isBuiltinOnly = true → admitBuiltinOnly = true
  group : ∀ group ∈ step.nodeGroup, group ∈ nodeGroups

theorem checkKindAndNodeGroup_eq_nil {step : Step} {s : String} {only : Bool} :
    checkKindAndNodeGroup step s only = [] ↔ StepInVocabulary only step := by
  have hk : (if !step.kind.isKnown then [JourneyError.unknownStepKind (s ++ "/kind") step.kind.asWire]
      else if step.kind.isBuiltinOnly && !only then
        [.builtinOnlyStepKind (s ++ "/kind") step.kind.asWire] else []) = [] ↔
      step.kind.isKnown = true ∧ (step.kind.isBuiltinOnly = true → only = true) := by
    cases step.kind.isKnown <;> cases step.kind.isBuiltinOnly <;> cases only <;> simp
  rw [checkKindAndNodeGroup, append_eq_nil_iff, hk]
  constructor
  · rintro ⟨⟨hkn, hbi⟩, hgr⟩
    refine ⟨hkn, hbi, fun group hg => ?_⟩
    rw [Option.mem_def] at hg
    simpa [hg] using hgr
  · rintro ⟨hkn, hbi, hgr⟩
    refine ⟨⟨hkn, hbi⟩, ?_⟩
    cases hg : step.nodeGroup with
    | none => rfl
    | some group => simpa using hgr group hg

/-- A step that carries the attachments its kind uses and no others. -/
structure StepCoherent (step : Step) : Prop where
  call : step.kind = .subflowCall → step.subflow.isSome = true
  challenge : step.kind = .customChallenge → step.factor.isSome = true
  subflow : step.kind.isKnown = true → step.subflow.isSome = true → step.kind = .subflowCall
  decision : step.kind.isKnown = true → step.decision.isSome = true → step.kind = .decision
  factor : step.kind.isKnown = true → step.factor.isSome = true → step.kind = .customChallenge

theorem checkAttachmentCoherence_eq_nil {step : Step} {s : String} :
    checkAttachmentCoherence step s = [] ↔ StepCoherent step := by
  simp only [checkAttachmentCoherence, append_eq_nil_iff, ite_eq_right_iff, cons_ne_nil, imp_false, not_and,
    ne_eq]
  constructor
  · rintro ⟨⟨⟨hm, hsu⟩, hd⟩, hf⟩
    refine ⟨fun hk => ?_, fun hk => ?_, fun hkn hs => ?_, fun hkn hs => ?_, fun hkn hs => ?_⟩
    · by_contra hn
      simp_all
    · by_contra hn
      simp_all
    · by_contra hk
      exact hsu hs hk hkn
    · by_contra hk
      exact hd hs hk hkn
    · by_contra hk
      exact hf hs hk hkn
  · rintro ⟨hc, hch, hsu, hd, hf⟩
    refine ⟨⟨⟨?_, fun hs hk hkn => hk (hsu hkn hs)⟩, fun hs hk hkn => hk (hd hkn hs)⟩,
      fun hs hk hkn => hk (hf hkn hs)⟩
    rw [if_neg (by rintro ⟨hk, hn⟩; simp_all), if_neg (by rintro ⟨hk, hn⟩; simp_all)]

variable {ids : List StepId} {transitions : List Transition}

theorem checkTransitionEndpoints_eq_nil :
    checkTransitionEndpoints ids transitions base = [] ↔
      (∀ t ∈ transitions, t.from ∈ ids ∧ t.to ∈ ids) ∧ (transitions.filterMap unguardedSource).Nodup := by
  unfold checkTransitionEndpoints
  rw [Loops.flatMap_zipIdx_markRepeats_eq_nil (P := fun t => t.from ∈ ids ∧ t.to ∈ ids)]
  intro t r i
  by_cases hf : t.from ∈ ids <;> by_cases ht : t.to ∈ ids <;> cases r <;> simp [hf, ht]

/-! ### Reachability -/

/-- There is a transition from `a` to `b`. -/
def FlowEdge (transitions : List Transition) (a b : StepId) : Prop :=
  ∃ t ∈ transitions, t.from = a ∧ t.to = b

/-- A transition between two declared steps. -/
def DeclaredEdge (transitions : List Transition) (ids : List StepId) (a b : StepId) : Prop :=
  FlowEdge transitions a b ∧ a ∈ ids ∧ b ∈ ids

@[simp] theorem mem_adjacency {a b : StepId} :
    b ∈ adjacency transitions ids a ↔ DeclaredEdge transitions ids a b := by
  simp only [adjacency, mem_map, mem_filter, Bool.and_eq_true, beq_iff_eq, contains_iff_mem]
  constructor
  · rintro ⟨t, ⟨ht, ⟨rfl, hf⟩, hto⟩, rfl⟩
    exact ⟨⟨t, ht, rfl, rfl⟩, hf, hto⟩
  · rintro ⟨⟨t, ht, rfl, rfl⟩, hf, hto⟩
    exact ⟨t, ⟨ht, ⟨rfl, hf⟩, hto⟩, rfl⟩

/-- A step has at most as many successors as there are transitions that leave it. -/
theorem length_adjacency_le (transitions : List Transition) (ids : List StepId) (node : StepId) :
    (adjacency transitions ids node).length ≤ (transitions.map Transition.from).count node := by
  rw [adjacency, length_map, count_eq_countP, countP_map, countP_eq_length_filter]
  refine (List.Sublist.length_le ?_)
  refine monotone_filter_right transitions fun t ht => ?_
  simp only [Bool.and_eq_true] at ht
  exact ht.1.1

variable {entry : StepId}

theorem mem_reachableSteps {x : StepId} :
    x ∈ reachableSteps entry transitions ids ↔ ReflTransGen (DeclaredEdge transitions ids) entry x := by
  rw [reachableSteps, Worklist.mem_walk_iff (length_adjacency_le transitions ids) (by simp)]
  have hs : Worklist.Step (adjacency transitions ids) = DeclaredEdge transitions ids := by
    ext a b
    exact mem_adjacency
  rw [hs]

theorem checkReachabilityAndDeadEnds_eq_nil {r : List StepId} :
    checkReachabilityAndDeadEnds entry steps transitions ids r base = [] ↔
      (∀ step ∈ steps, ReflTransGen (DeclaredEdge transitions ids) entry step.id) ∧
        ∀ step ∈ steps, step.id ∈ r ∨ ∃ t ∈ transitions, t.from = step.id := by
  rw [checkReachabilityAndDeadEnds, append_eq_nil_iff,
    Loops.flatMap_zipIdx_eq_nil (P := fun step => step.id ∈ reachableSteps entry transitions ids) (by intro a i; simp),
    Loops.flatMap_zipIdx_eq_nil (P := fun step => step.id ∈ reachableSteps entry transitions ids →
      step.id ∈ r ∨ ∃ t ∈ transitions, t.from = step.id)]
  · simp only [mem_reachableSteps]
    exact and_congr_right fun hrc => forall₂_congr fun step hs => imp_iff_right (hrc step hs)
  · intro step i
    by_cases hr : step.id ∈ r <;> simp [hr]

/-! ### Walks that establish no subject -/

/-- An edge that a walk without a subject may take: its source does not establish one. -/
def SubjectlessEdge (steps : List Step) (transitions : List Transition) (ids : List StepId) (a b : StepId) : Prop :=
  establishes steps a = false ∧ DeclaredEdge transitions ids a b

theorem mem_reachableBeforeEstablishment {x : StepId} :
    x ∈ reachableBeforeEstablishment entry steps transitions ids ↔
      ReflTransGen (SubjectlessEdge steps transitions ids) entry x := by
  have hc : ∀ node, (if establishes steps node then [] else adjacency transitions ids node).length
      ≤ (transitions.map Transition.from).count node := by
    intro node
    split
    · exact Nat.zero_le _
    · exact length_adjacency_le transitions ids node
  have hs : Worklist.Step (fun node => if establishes steps node then [] else adjacency transitions ids node)
      = SubjectlessEdge steps transitions ids := by
    ext a b
    by_cases ha : establishes steps a <;> simp [Worklist.Step, SubjectlessEdge, ha]
  rw [reachableBeforeEstablishment, Worklist.mem_walk_iff hc (by simp), hs]

theorem checkSubjectEstablishment_eq_nil :
    checkSubjectEstablishment entry steps transitions ids base = [] ↔
      ∀ step ∈ steps, step.kind.requiresSubject = true →
        ¬ ReflTransGen (SubjectlessEdge steps transitions ids) entry step.id := by
  rw [checkSubjectEstablishment, Loops.flatMap_zipIdx_eq_nil (P := fun step => step.kind.requiresSubject = true →
    ¬ ReflTransGen (SubjectlessEdge steps transitions ids) entry step.id)]
  intro step i
  rw [← mem_reachableBeforeEstablishment]
  cases hr : step.kind.requiresSubject <;> simp [hr]

/-! ### Predicates that type-check -/

/-- A predicate that type-checks, wherever it stands. -/
def TypeChecks (predicate : Predicate) : Prop := typecheckPredicate predicate "" = []

theorem collectPredicateErrors_eq_nil {predicate : Predicate} :
    collectPredicateErrors predicate base = [] ↔ TypeChecks predicate := by
  rw [collectPredicateErrors, map_eq_nil_iff]
  exact typecheckAtDepth_eq_nil_congr predicate base "" 0

/-- The decision of a step, if any, type-checks. -/
def DecisionTypeChecks (step : Step) : Prop := ∀ predicate, step.decision = some (.predicate predicate) → TypeChecks predicate

theorem checkPredicates_eq_nil :
    checkPredicates steps transitions base = [] ↔
      (∀ t ∈ transitions, ∀ guard ∈ t.guard, TypeChecks guard) ∧ ∀ step ∈ steps, DecisionTypeChecks step := by
  rw [checkPredicates, append_eq_nil_iff,
    Loops.flatMap_zipIdx_eq_nil (P := fun t => ∀ guard ∈ t.guard, TypeChecks guard),
    Loops.flatMap_zipIdx_eq_nil (P := DecisionTypeChecks)]
  · intro step i
    cases hd : step.decision with
    | none => simp [DecisionTypeChecks, hd]
    | some s =>
      obtain ⟨predicate⟩ := s
      simp [DecisionTypeChecks, hd, collectPredicateErrors_eq_nil]
  · intro t i
    cases hg : t.guard with
    | none => simp [hg]
    | some guard => simp [hg, collectPredicateErrors_eq_nil]

/-! ### A graph the shared checks accept -/

/-- The graph of a journey or of a fragment, as the shared checks leave it. -/
structure GraphOk (entry : StepId) (steps : List Step) (transitions : List Transition) (roleTerminals : List StepId) :
    Prop where
  nodup : (stepIds steps).Nodup
  entry_mem : entry ∈ stepIds steps
  endpoints : ∀ t ∈ transitions, t.from ∈ stepIds steps ∧ t.to ∈ stepIds steps
  deterministic : (transitions.filterMap unguardedSource).Nodup
  reachable : ∀ step ∈ steps, ReflTransGen (DeclaredEdge transitions (stepIds steps)) entry step.id
  onward : ∀ step ∈ steps, step.id ∈ roleTerminals ∨ ∃ t ∈ transitions, t.from = step.id
  guards : ∀ t ∈ transitions, ∀ guard ∈ t.guard, TypeChecks guard
  decisions : ∀ step ∈ steps, DecisionTypeChecks step

end IronAuth.Journeys
