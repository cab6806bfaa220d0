import IronAuth.Journeys.Hierarchy

/-!
# Composition

The splice of `ironauth-journey/src/subflow.rs`: `compose_inner` validates a
journey, then inlines its first call step until none is left, and validates the
result. Inlining a call puts the steps of its fragment in its place, redirects
the transitions into the call to the fragment's entry, and grafts the transitions
that left the call onto each exit.

The loop is given a fuel, one more than there are steps in the expansion;
`none` is the result of a loop that ran out of it, or of an `expect` that fails.
Neither happens (`composeInner_isSome`, in `IronAuth.Journeys.Expansion`).
-/

namespace IronAuth.Journeys

open Relation List
open Lib

/-- `MAX_COMPOSED_STEPS`. -/
def maxComposedSteps : ℕ := 10000

/-- Resolve the alias of a call step to its definition key. -/
def normalizeCall (aliases : List (SubflowId × SubflowId)) (step : Step) : Step :=
  if step.kind.isCall then
    match step.subflow.bind fun name => aliases.lookup name with
    | some key => { step with subflow := some key }
    | none => step
  else step

variable (journey : Journey)

/-- The working document composition starts from. -/
def initialFlat : Journey :=
  { journey with
    steps := journey.steps.map (normalizeCall (aliasToKey journey))
    subflows := none
    subflowDefinitions := none }

/-- The journey's own steps as the root flow of a hierarchy: it has no exits. -/
def rootFlow : Subflow where
  id := journey.id
  entry := journey.entry
  exits := []
  comment := journey.comment
  steps := journey.steps.map (normalizeCall (aliasToKey journey))
  transitions := journey.transitions

/-- The hierarchy a journey describes. -/
def hierarchy : Hierarchy := ⟨rootFlow journey, fullRegistry journey⟩

/-! ### Inlining one call -/

/-- The comment of the fragment's entry step, with the call's comment in front. -/
def prependComment : Option String → Option String → Option String
  | some call, some entry => some (call ++ "\n" ++ entry)
  | some call, none => some call
  | none, entry => entry

/-- The steps of the fragment, namespaced by the call. -/
def splicedSteps (call : Step) (subflow : Subflow) : List Step :=
  subflow.steps.map fun step =>
    let cloned := { step with id := namespaced call.id step.id }
    if cloned.id == namespaced call.id subflow.entry then
      { cloned with comment := prependComment call.comment cloned.comment }
    else cloned

/-- A transition into the call now enters the fragment. -/
def redirect (callId entry : StepId) (t : Transition) : Transition :=
  if t.to == callId then { t with «to» := entry } else t

/-- A transition of the fragment, namespaced by the call. -/
def namespacedTransition (callId : StepId) (t : Transition) : Transition :=
  { t with «from» := namespaced callId t.from, «to» := namespaced callId t.to }

/-- The transitions after the splice: those that do not leave the call, redirected; those of the
fragment; and for each exit those that left the call. -/
def splicedTransitions (callId : StepId) (subflow : Subflow) (transitions : List Transition) : List Transition :=
  ((transitions.filter fun t => t.from != callId).map (redirect callId (namespaced callId subflow.entry))) ++
  subflow.transitions.map (namespacedTransition callId) ++
  (subflow.exits.map (namespaced callId)).flatMap fun exit =>
    (transitions.filter fun t => t.from == callId).map fun t => { t with «from» := exit }

/-- The document with the fragment in the place of the call step at `index`. -/
def splice (flat : Journey) (index : ℕ) (call : Step) (subflow : Subflow) : Journey :=
  { flat with
    entry := if flat.entry == call.id then namespaced call.id subflow.entry else flat.entry
    steps := flat.steps.take index ++ splicedSteps call subflow ++ flat.steps.drop (index + 1)
    transitions := splicedTransitions call.id subflow flat.transitions }

/-- Inline the call step at `index`: resolve its key and splice the definition in. -/
def inlineOne (flat : Journey) (index : ℕ) (registry : Registry) : Option Journey :=
  flat.steps[index]?.bind fun call =>
    call.subflow.bind fun key =>
      (registry.lookup key).map fun subflow => splice flat index call subflow

/-! ### The loop -/

/-- Inline until no call step remains, or until there are too many steps. -/
def inlineAll (registry : Registry) : ℕ → Journey → Option (Except (List JourneyError) Journey)
  | 0, _ => none
  | fuel + 1, flat =>
    match flat.steps.findIdx? fun step => step.kind.isCall with
    | some index =>
      if flat.steps.length > maxComposedSteps then some (.error [.composedTooLarge maxComposedSteps])
      else (inlineOne flat index registry).bind (inlineAll registry fuel)
    | none =>
      if flat.steps.length > maxComposedSteps then some (.error [.composedTooLarge maxComposedSteps])
      else some (.ok flat)

/-- Everything composition does with a validated journey before it validates the result. -/
def composeFlat : Option (Except (List JourneyError) Journey) :=
  inlineAll (fullRegistry journey) ((hierarchy journey).documentOrder.length + 1) (initialFlat journey)

/-- Compose a journey into a flat one. -/
def composeInner (admitBuiltinOnly : Bool) : Option (Except (List JourneyError) Journey) :=
  match validateInner journey true admitBuiltinOnly with
  | .error errors => some (.error errors)
  | .ok () =>
    match composeFlat journey with
    | none => none
    | some (.error errors) => some (.error errors)
    | some (.ok flat) =>
      match validateInner flat false admitBuiltinOnly with
      | .error errors => some (.error errors)
      | .ok () => some (.ok flat)

/-- Compose a custom journey. -/
def compose : Option (Except (List JourneyError) Journey) := composeInner journey false

/-- Compose an embedded built-in journey. -/
def composeBuiltin : Option (Except (List JourneyError) Journey) := composeInner journey true

/-- Whether a load returns a value that passes the test. -/
def loads {α β : Type*} (test : α → Bool) : Option (Except β α) → Bool
  | some (.ok a) => test a
  | _ => false

theorem loads_eq_true {α β : Type*} {t : α → Bool} {r : Option (Except β α)} :
    loads t r = true ↔ ∃ a, r = some (.ok a) ∧ t a = true := by
  rcases r with _ | _ | a <;> simp [loads]

/-! ### What a splice does -/

theorem stepIds_splicedSteps (c : Step) (s : Subflow) :
    stepIds (splicedSteps c s) = (stepIds s.steps).map (namespaced c.id) := by
  rw [stepIds, splicedSteps, List.map_map, stepIds, List.map_map]
  refine map_congr_left fun step _ => ?_
  simp only [Function.comp_apply]
  split <;> rfl

@[simp] theorem redirect_from (c e : StepId) (t : Transition) : (redirect c e t).from = t.from := by
  unfold redirect
  split <;> rfl

@[simp] theorem redirect_guard (c e : StepId) (t : Transition) :
    (redirect c e t).guard = t.guard := by
  unfold redirect
  split <;> rfl

theorem redirect_to (c e : StepId) (t : Transition) :
    (redirect c e t).to = if t.to = c then e else t.to := by
  unfold redirect
  by_cases ht : t.to = c <;> simp [ht]

/-- The transitions after a splice: those that did not leave the call, those of the fragment,
and the grafted ones. -/
theorem mem_splicedTransitions {c : StepId} {s : Subflow} {ts : List Transition} {t : Transition} :
    t ∈ splicedTransitions c s ts ↔
      (∃ t2 ∈ ts, t2.from ≠ c ∧ t = redirect c (namespaced c s.entry) t2) ∨
      (∃ t2 ∈ s.transitions, t = namespacedTransition c t2) ∨
      ∃ e ∈ s.exits, ∃ t2 ∈ ts, t2.from = c ∧ t = { t2 with «from» := namespaced c e } := by
  simp only [splicedTransitions, mem_append, mem_map, mem_filter, mem_flatMap, bne_iff_ne,
    beq_iff_eq, or_assoc]
  refine or_congr ?_ (or_congr ?_ ?_)
  · exact exists_congr fun t2 => by rw [and_assoc, eq_comm (a := t)]
  · exact exists_congr fun t2 => by rw [eq_comm (a := t)]
  · constructor
    · rintro ⟨-, ⟨e, he, rfl⟩, t2, ⟨ht2, hf⟩, rfl⟩
      exact ⟨e, he, t2, ht2, hf, rfl⟩
    · rintro ⟨e, he, t2, ht2, hf, rfl⟩
      exact ⟨_, ⟨e, he, rfl⟩, t2, ⟨ht2, hf⟩, rfl⟩

/-! ### A validated journey is a well-formed hierarchy -/

section Normalize

variable (aliases : List (SubflowId × SubflowId)) (step : Step)

/-- Normalizing touches the subflow key and nothing else, and leaves none out. -/
theorem normalizeCall_eq :
    ∃ subflow, normalizeCall aliases step = { step with subflow } ∧ subflow.isSome = step.subflow.isSome := by
  unfold normalizeCall
  split
  · split
    · rename_i key hk
      obtain ⟨name, hn, -⟩ := Option.bind_eq_some_iff.mp hk
      exact ⟨_, rfl, by simp [hn]⟩
    · exact ⟨step.subflow, rfl, rfl⟩
  · exact ⟨step.subflow, rfl, rfl⟩

@[simp] theorem normalizeCall_id : (normalizeCall aliases step).id = step.id := by
  obtain ⟨subflow, heq, -⟩ := normalizeCall_eq aliases step
  rw [heq]

@[simp] theorem normalizeCall_kind : (normalizeCall aliases step).kind = step.kind := by
  obtain ⟨subflow, heq, -⟩ := normalizeCall_eq aliases step
  rw [heq]

@[simp] theorem normalizeCall_decision : (normalizeCall aliases step).decision = step.decision := by
  obtain ⟨subflow, heq, -⟩ := normalizeCall_eq aliases step
  rw [heq]

end Normalize

variable {only : Bool} {doc : Journey}

/-- A checked fragment is a well-formed level. -/
theorem FragmentOk.levelOk (hsu : SubflowsOk only doc)
    {level : Subflow} (hf : FragmentOk (allKeys doc) only level) :
    LevelOk only (fullRegistry doc) level := by
  have ht : terminalIds level.steps = [] := by
    rw [terminalIds, filter_eq_nil_iff.mpr fun step hst => by simpa using (hf.steps step hst).notTerminal]
    rfl
  refine ⟨?_, fun step hs => (hf.steps step hs).vocabulary, fun step hs => (hf.steps step hs).coherent,
    fun step hs => (hf.steps step hs).reserved, fun step hs hk => ?_, hf.exits_mem, ?_⟩
  · rw [ht, append_nil]
    exact hf.graph
  · obtain ⟨key, hke⟩ := Option.isSome_iff_exists.mp ((hf.steps step hs).coherent.call hk)
    obtain ⟨callee, hc⟩ := exists_lookup_of_mem_allKeys hsu ((hf.steps step hs).keys key hke)
    exact ⟨key, callee, hke, hc⟩
  · rw [ht, append_nil]
    exact hf.leaf

/-- Every declared alias resolves to a definition. -/
theorem exists_lookup_of_alias (hs : SubflowsOk only doc)
    {n : SubflowId} (hn : n ∈ declaredSubflowIds doc) :
    ∃ key callee, (aliasToKey doc).lookup n = some key ∧ (fullRegistry doc).lookup key = some callee := by
  obtain ⟨reference, hr, rfl⟩ := mem_map.mp hn
  have hnd : ((aliasToKey doc).map Prod.fst).Nodup := by
    rw [aliasToKey, map_reverse, nodup_reverse, List.map_map]
    exact hs.aliases_nodup
  have he : (reference.id, reference.source.key) ∈ aliasToKey doc := by
    rw [aliasToKey, mem_reverse]
    exact mem_map.mpr ⟨reference, hr, rfl⟩
  have hk : reference.source.key ∈ allKeys doc := by
    have hre := hs.resolves reference hr
    cases hsr : reference.source with
    | builtin n => exact mem_append_left _ (by simpa [hsr, SubflowSource.Resolves, SubflowSource.key] using hre)
    | inline id => exact mem_append_right _ (by simpa [hsr, SubflowSource.Resolves, SubflowSource.key] using hre)
  obtain ⟨callee, hc⟩ := exists_lookup_of_mem_allKeys hs hk
  exact ⟨_, callee, (Loops.lookup_eq_some_iff_mem hnd).mpr he, hc⟩

/-- The journey's own steps are a well-formed level. -/
theorem rootFlow_levelOk (hd : JourneyOk true only doc) :
    LevelOk only (fullRegistry doc) (rootFlow doc) := by
  have hi : stepIds (rootFlow doc).steps = stepIds doc.steps := by simp [rootFlow, stepIds, Function.comp_def]
  have hte : terminalIds (rootFlow doc).steps = terminalIds doc.steps := by
    simp [rootFlow, terminalIds, stepIds, filter_map, Function.comp_def]
  have hst : ∀ step ∈ (rootFlow doc).steps, ∃ s2 ∈ doc.steps, normalizeCall (aliasToKey doc) s2 = step :=
    fun step hs => mem_map.mp hs
  refine ⟨⟨?_, ?_, ?_, hd.graph.deterministic, ?_, ?_, hd.graph.guards, ?_⟩, ?_, ?_, ?_, ?_, ?_, ?_⟩
  · exact hi ▸ hd.graph.nodup
  · exact hi ▸ hd.graph.entry_mem
  · exact hi ▸ hd.graph.endpoints
  · intro step hs
    obtain ⟨s2, hs2, rfl⟩ := hst step hs
    rw [hi, normalizeCall_id]
    exact hd.graph.reachable s2 hs2
  · intro step hs
    obtain ⟨s2, hs2, rfl⟩ := hst step hs
    rw [hte, normalizeCall_id]
    exact hd.graph.onward s2 hs2
  · intro step hs
    obtain ⟨s2, hs2, rfl⟩ := hst step hs
    rw [DecisionTypeChecks, normalizeCall_decision]
    exact hd.graph.decisions s2 hs2
  · intro step hs
    obtain ⟨s2, hs2, rfl⟩ := hst step hs
    have hv := (hd.steps s2 hs2).vocabulary
    obtain ⟨subflow, heq, -⟩ := normalizeCall_eq (aliasToKey doc) s2
    rw [heq]
    exact ⟨hv.known, hv.builtin, hv.group⟩
  · intro step hs
    obtain ⟨s2, hs2, rfl⟩ := hst step hs
    have hc := (hd.steps s2 hs2).coherent
    obtain ⟨subflow, heq, hso⟩ := normalizeCall_eq (aliasToKey doc) s2
    rw [heq]
    exact ⟨fun hk => hso ▸ hc.call hk, hc.challenge, fun hk hsu => hc.subflow hk (hso ▸ hsu), hc.decision, hc.factor⟩
  · intro step hs
    obtain ⟨s2, hs2, rfl⟩ := hst step hs
    rw [normalizeCall_id]
    exact (hd.steps s2 hs2).reserved rfl
  · intro step hs hk
    obtain ⟨s2, hs2, rfl⟩ := hst step hs
    rw [normalizeCall_kind] at hk
    obtain ⟨name, hn⟩ := Option.isSome_iff_exists.mp ((hd.steps s2 hs2).coherent.call hk)
    obtain ⟨key, callee, hke, hc⟩ := exists_lookup_of_alias hd.subflows ((hd.steps s2 hs2).keys name hn)
    exact ⟨key, callee, by simp [normalizeCall, hk, hn, hke], hc⟩
  · intro e he
    cases he
  · intro t ht
    rw [hte]
    exact hd.leaf t ht

/-- **A validated journey describes a well-formed hierarchy.** -/
theorem hierarchy_ok (hd : JourneyOk true only doc) :
    (hierarchy doc).Ok only where
  root := rootFlow_levelOk hd
  root_exits := rfl
  callee := fun hlk => (registry_fragmentOk hd.subflows hlk).levelOk hd.subflows
  callee_exits := fun hlk => (registry_fragmentOk hd.subflows hlk).exits_ne_nil
  callee_terminal := fun hlk step hs => ((registry_fragmentOk hd.subflows hlk).steps step hs).notTerminal
  acyclic := fun key hc => (detectSubflowCycles_ne_nil_iff hd.subflows.fresh).mpr ⟨key, hc⟩
    (detectSubflowCycles_eq_nil.mpr hd.subflows.acyclic)

end IronAuth.Journeys
