import IronAuth.Journeys.Checks

/-!
# Subflows: the registry, the fragment checks and the cycle check

The load-time half of `ironauth-journey/src/subflow.rs`. A subflow definition is
checked as a fragment, under the rules of a journey with its exits in the place of
terminals, and the graph of which definition calls which must have no cycle.

A map of the source is an association list here, the last insertion first, so
that `List.lookup` finds what the source's `get` finds.

## What is proved

* `validateSubflowFragment_eq_nil`: what the fragment check lets through.
* `detectSubflowCycles_eq_nil`: the cycle check is exact: it is silent when no
  definition reaches itself.
-/

namespace IronAuth.Journeys

open Relation List
open Lib

/-- The subflow definitions by key. -/
abbrev Registry := List (SubflowId × Subflow)

/-- `BUILTIN_MFA_STEP_UP`. -/
def builtinMfaStepUp : SubflowId := "mfa_step_up"

/-- `NAMESPACE_SEPARATOR`. -/
def namespaceSeparator : String := "::"

/-- The one built-in subflow: a second-factor challenge that is both the entry and the exit. -/
def mfaStepUp : Subflow where
  id := builtinMfaStepUp
  entry := "challenge"
  exits := ["challenge"]
  comment := some "Step up with a second factor, then return to the caller."
  steps := [{
    id := "challenge"
    kind := .mfaChallenge
    nodeGroup := some "totp"
    subflow := none
    decision := none
    factor := none
    comment := some "Present the enrolled second factor." }]
  transitions := []

/-- The built-in registry. -/
def builtinSubflows : Registry := [(builtinMfaStepUp, mfaStepUp)]

/-- The inline definitions of a journey. -/
def inlineDefinitions (doc : Journey) : List Subflow := doc.subflowDefinitions.getD []

/-- The registry composition resolves keys against: the built-ins, then the inline definitions. -/
def fullRegistry (journey : Journey) : Registry :=
  (builtinSubflows ++ (inlineDefinitions journey).map fun definition => (definition.id, definition)).reverse

/-- The key a reference resolves to. -/
def SubflowSource.key : SubflowSource → SubflowId
  | builtin name => name
  | inline subflowId => subflowId

/-- The key each alias of the journey stands for. -/
def aliasToKey (journey : Journey) : List (SubflowId × SubflowId) :=
  ((journey.subflows.getD []).map fun reference => (reference.id, reference.source.key)).reverse

/-! ### The fragment check -/

/-- The checks of one step of a fragment. A nested call names a key of the registry, not an alias. -/
def checkSubflowStep (step : Step) (stepPtr : String) (allKeys : List SubflowId) (admitBuiltinOnly : Bool) :
    List JourneyError :=
  checkKindAndNodeGroup step stepPtr admitBuiltinOnly ++
  (if strContains step.id namespaceSeparator then [JourneyError.reservedStepIdSeparator (stepPtr ++ "/id") step.id] else []) ++
  (if step.kind.isTerminal then [JourneyError.subflowTerminalStep (stepPtr ++ "/kind") step.id] else []) ++
  (match step.subflow with
    | some key => if !allKeys.contains key then [JourneyError.danglingSubflowRef (stepPtr ++ "/subflow") key] else []
    | none => []) ++
  checkAttachmentCoherence step stepPtr

/-- Check one definition as a fragment. -/
def validateSubflowFragment (definition : Subflow) (base : String) (allKeys : List SubflowId)
    (admitBuiltinOnly : Bool) : List JourneyError :=
  let ids := stepIds definition.steps
  collectStepIds definition.steps base ++
  (definition.steps.zipIdx.flatMap fun (step, index) =>
    checkSubflowStep step s!"{base}/steps/{index}" allKeys admitBuiltinOnly) ++
  (if !ids.contains definition.entry then [JourneyError.unknownEntry (base ++ "/entry")] else []) ++
  (if definition.exits.isEmpty then [JourneyError.subflowNoExit (base ++ "/exits") definition.id] else []) ++
  (definition.exits.zipIdx.flatMap fun (exit, index) =>
    if !ids.contains exit then [JourneyError.unknownSubflowExit s!"{base}/exits/{index}" exit] else []) ++
  (definition.transitions.zipIdx.flatMap fun (transition, index) =>
    if definition.exits.contains transition.from then
      [JourneyError.subflowExitNotLeaf s!"{base}/transitions/{index}" transition.from] else []) ++
  checkTransitionEndpoints ids definition.transitions base ++
  (if ids.contains definition.entry then
    checkReachabilityAndDeadEnds definition.entry definition.steps definition.transitions ids definition.exits base
    else []) ++
  checkPredicates definition.steps definition.transitions base

/-! ### The cycle check -/

/-- The resolvable keys a step list calls, in document order. -/
def calledKeys (steps : List Step) (allKeys : List SubflowId) : List SubflowId :=
  steps.filterMap fun step =>
    if step.kind.isCall then step.subflow.filter allKeys.contains else none

/-- Which keys each definition calls. -/
abbrev CallGraph := List (SubflowId × List SubflowId)

/-- The call graph: the inline definitions, then the built-ins. -/
def callGraph (inline : List Subflow) (builtins : Registry) (allKeys : List SubflowId) : CallGraph :=
  ((inline.map fun (definition : Subflow) => (definition.id, calledKeys definition.steps allKeys)) ++
    builtins.map fun entry => (entry.1, calledKeys entry.2.steps allKeys)).reverse

variable (graph : CallGraph)

/-- The keys called from a key. -/
def CallGraph.next (key : SubflowId) : List SubflowId := (graph.lookup key).getD []

/-- The number of edges in the graph. -/
def CallGraph.edgeCount : ℕ := (graph.map fun entry => entry.2.length).sum

/-- Whether `target` is reachable from `source` by at least one edge. -/
def reaches (graph : CallGraph) (source target : SubflowId) : Bool :=
  Worklist.search graph.next target (2 * graph.edgeCount + 1) (graph.next source).reverse []

/-- Report the first inline definition that reaches itself. -/
def detectSubflowCycles (inline : List Subflow) (builtins : Registry) (allKeys : List SubflowId) :
    List JourneyError :=
  match inline.zipIdx.find? fun entry => reaches (callGraph inline builtins allKeys) entry.1.id entry.1.id with
  | some (definition, index) => [.subflowCycle s!"/subflow_definitions/{index}" definition.id]
  | none => []

/-! ### All subflow checks of a journey -/

/-- The keys a nested call may name. -/
def allKeys (doc : Journey) : List SubflowId :=
  builtinSubflows.map Prod.fst ++ (inlineDefinitions doc).map Subflow.id

/-- Check the references and the inline definitions of a journey. -/
def validateSubflows (doc : Journey) (admitBuiltinOnly : Bool) : List JourneyError :=
  let inline := inlineDefinitions doc
  ((Loops.markRepeats (fun definition => some (Subflow.id definition)) [] inline).zipIdx.flatMap
    fun ((definition, repeated), index) =>
      if repeated || (builtinSubflows.lookup definition.id).isSome then
        [JourneyError.duplicateSubflowDefinition s!"/subflow_definitions/{index}/id" definition.id] else []) ++
  ((Loops.markRepeats (fun reference => some (SubflowRef.id reference)) [] (doc.subflows.getD [])).zipIdx.flatMap
    fun ((reference, repeated), index) =>
      (if repeated then [JourneyError.duplicateSubflowRef s!"/subflows/{index}/id" reference.id] else []) ++
      match reference.source with
      | .builtin name =>
          if (builtinSubflows.lookup name).isNone then [JourneyError.unknownBuiltinSubflow s!"/subflows/{index}/source" name]
          else []
      | .inline subflowId =>
          if !(inline.map Subflow.id).contains subflowId then
            [JourneyError.unknownSubflowDefinition s!"/subflows/{index}/source" subflowId] else []) ++
  (inline.zipIdx.flatMap fun (definition, index) =>
    validateSubflowFragment definition s!"/subflow_definitions/{index}" (allKeys doc) admitBuiltinOnly) ++
  detectSubflowCycles inline builtinSubflows (allKeys doc)

/-! ### What the fragment check lets through -/

/-- A step the fragment check accepts. -/
@[mk_iff]
structure SubflowStepOk (allKeys : List SubflowId) (admitBuiltinOnly : Bool) (step : Step) : Prop where
  vocabulary : StepInVocabulary admitBuiltinOnly step
  reserved : strContains step.id namespaceSeparator = false
  notTerminal : step.kind ≠ .terminal
  keys : ∀ key ∈ step.subflow, key ∈ allKeys
  coherent : StepCoherent step

variable {admitBuiltinOnly : Bool}

theorem checkSubflowStep_eq_nil {step : Step} {s : String} {allKeys : List SubflowId} :
    checkSubflowStep step s allKeys admitBuiltinOnly = [] ↔ SubflowStepOk allKeys admitBuiltinOnly step := by
  have hk : (match step.subflow with
      | some key => if !allKeys.contains key then [JourneyError.danglingSubflowRef (s ++ "/subflow") key] else []
      | none => []) = [] ↔ ∀ key ∈ step.subflow, key ∈ allKeys := by
    cases step.subflow <;> simp
  simp only [checkSubflowStep, append_eq_nil_iff, checkKindAndNodeGroup_eq_nil, checkAttachmentCoherence_eq_nil,
    hk, ite_eq_right_iff, cons_ne_nil, imp_false, StepKind.isTerminal_eq_true, Bool.not_eq_true, subflowStepOk_iff, and_assoc,
    ne_eq]

/-- A definition the fragment check accepts. -/
structure FragmentOk (allKeys : List SubflowId) (admitBuiltinOnly : Bool) (definition : Subflow) : Prop where
  graph : GraphOk definition.entry definition.steps definition.transitions definition.exits
  steps : ∀ step ∈ definition.steps, SubflowStepOk allKeys admitBuiltinOnly step
  exits_ne_nil : definition.exits ≠ []
  exits_mem : ∀ exit ∈ definition.exits, exit ∈ stepIds definition.steps
  leaf : ∀ t ∈ definition.transitions, t.from ∉ definition.exits

theorem validateSubflowFragment_eq_nil {definition : Subflow} {b : String} {ak : List SubflowId}
    :
    validateSubflowFragment definition b ak admitBuiltinOnly = [] ↔
      FragmentOk ak admitBuiltinOnly definition := by
  simp only [validateSubflowFragment, append_eq_nil_iff, collectStepIds_eq_nil, checkTransitionEndpoints_eq_nil,
    checkPredicates_eq_nil]
  rw [Loops.flatMap_zipIdx_eq_nil (P := SubflowStepOk ak admitBuiltinOnly)
      (fun _ _ => checkSubflowStep_eq_nil),
    Loops.flatMap_zipIdx_eq_nil (P := fun e => e ∈ stepIds definition.steps) (by intro a i; simp),
    Loops.flatMap_zipIdx_eq_nil (P := fun t => t.from ∉ definition.exits) (by intro a i; simp)]
  constructor
  · rintro ⟨⟨⟨⟨⟨⟨⟨⟨hnd, hs⟩, hen⟩, hx⟩, hexm⟩, hl⟩, he, hd⟩, hr⟩, hg, hde⟩
    have hen : definition.entry ∈ stepIds definition.steps := by simpa using hen
    rw [if_pos (by simpa using hen), checkReachabilityAndDeadEnds_eq_nil] at hr
    exact {
      graph := ⟨hnd, hen, he, hd, hr.1, hr.2, hg, hde⟩
      steps := hs
      exits_ne_nil := by simpa using hx
      exits_mem := hexm
      leaf := hl }
  · intro h
    refine ⟨⟨⟨⟨⟨⟨⟨⟨h.graph.nodup, h.steps⟩, ?_⟩, ?_⟩, h.exits_mem⟩, h.leaf⟩, h.graph.endpoints,
      h.graph.deterministic⟩, ?_⟩, h.graph.guards, h.graph.decisions⟩
    · simpa using h.graph.entry_mem
    · simpa using h.exits_ne_nil
    · rw [if_pos (by simpa using h.graph.entry_mem), checkReachabilityAndDeadEnds_eq_nil]
      exact ⟨h.graph.reachable, h.graph.onward⟩

/-! ### The cycle check is exact -/

/-- One definition calls another. -/
def CallGraph.Calls (key key2 : SubflowId) : Prop := key2 ∈ graph.next key

/-- The source of each edge of the graph, with multiplicity. -/
def CallGraph.sources : List SubflowId := graph.flatMap fun entry => entry.2.map fun _ => entry.1

theorem CallGraph.length_sources (g : CallGraph) : g.sources.length = g.edgeCount := by
  simp [sources, edgeCount, length_flatMap]

theorem CallGraph.length_next_le_count (key : SubflowId) :
    (graph.next key).length ≤ graph.sources.count key := by
  induction graph with
  | nil => simp [next]
  | cons entry graph ih =>
    obtain ⟨k, c⟩ := entry
    have hc : CallGraph.sources ((k, c) :: graph) = c.map (fun _ => k) ++ CallGraph.sources graph := rfl
    rw [hc, count_append]
    by_cases hk : key = k
    · subst hk
      have hm : c.map (fun _ => key) = List.replicate c.length key := map_const' ..
      simp [next, hm]
    · have hb : (key == k) = false := by simpa using hk
      have hn : CallGraph.next ((k, c) :: graph) key = CallGraph.next graph key := by
        simp [next, lookup_cons, hb]
      rw [hn]
      omega

theorem reaches_eq_true_iff {g : CallGraph} {src target : SubflowId} :
    reaches g src target = true ↔ TransGen g.Calls src target := by
  have hc := g.length_next_le_count
  have hle : (g.next src).length ≤ g.edgeCount :=
    g.length_sources ▸ (hc src).trans count_le_length
  refine Worklist.search_eq_true_iff hc src target ?_
  rw [g.length_sources]
  omega

/-- The cycle check is silent exactly when no inline definition reaches itself. -/
theorem detectSubflowCycles_eq_nil {il : List Subflow} {b : Registry} {a : List SubflowId} :
    detectSubflowCycles il b a = [] ↔
      ∀ definition ∈ il,
        ¬ TransGen (callGraph il b a).Calls definition.id definition.id := by
  unfold detectSubflowCycles
  constructor
  · intro h definition hm hc
    obtain ⟨i, hi, rfl⟩ := getElem_of_mem hm
    split at h
    · cases h
    · rename_i hn
      have := List.find?_eq_none.mp hn (il[i], i)
        (mem_zipIdx_iff_getElem?.mpr (List.getElem?_eq_getElem hi))
      exact this (reaches_eq_true_iff.mpr hc)
  · intro h
    split
    · rename_i definition ind hs
      have hr := List.find?_some hs
      have hm := fst_mem_of_mem_zipIdx (mem_of_find?_eq_some hs)
      exact absurd (reaches_eq_true_iff.mp hr) (h _ hm)
    · rfl

/-! ### What the subflow checks let through -/

/-- A reference source that names a definition. -/
def SubflowSource.Resolves (doc : Journey) : SubflowSource → Prop
  | builtin name => name ∈ builtinSubflows.map Prod.fst
  | inline subflowId => subflowId ∈ (inlineDefinitions doc).map Subflow.id

/-- A journey whose references and inline definitions the checks accept. -/
@[mk_iff]
structure SubflowsOk (admitBuiltinOnly : Bool) (doc : Journey) : Prop where
  fresh : ∀ definition ∈ inlineDefinitions doc, definition.id ∉ builtinSubflows.map Prod.fst
  nodup : ((inlineDefinitions doc).map Subflow.id).Nodup
  resolves : ∀ reference ∈ doc.subflows.getD [], reference.source.Resolves doc
  aliases_nodup : ((doc.subflows.getD []).map SubflowRef.id).Nodup
  fragments : ∀ definition ∈ inlineDefinitions doc, FragmentOk (allKeys doc) admitBuiltinOnly definition
  acyclic : ∀ definition ∈ inlineDefinitions doc,
    ¬ TransGen (callGraph (inlineDefinitions doc) builtinSubflows (allKeys doc)).Calls definition.id definition.id

theorem lookup_isSome_iff_mem_keys {reg : Registry} {key : SubflowId} :
    (reg.lookup key).isSome = true ↔ key ∈ reg.map Prod.fst := by
  simp [@eq_comm _ key]

theorem validateSubflows_eq_nil {doc : Journey} :
    validateSubflows doc admitBuiltinOnly = [] ↔ SubflowsOk admitBuiltinOnly doc := by
  simp only [validateSubflows, append_eq_nil_iff, detectSubflowCycles_eq_nil]
  rw [Loops.flatMap_zipIdx_markRepeats_eq_nil (P := fun definition => definition.id ∉ builtinSubflows.map Prod.fst),
    Loops.flatMap_zipIdx_markRepeats_eq_nil (P := fun reference => reference.source.Resolves doc),
    Loops.flatMap_zipIdx_eq_nil (P := FragmentOk (allKeys doc) admitBuiltinOnly)
      (fun _ _ => validateSubflowFragment_eq_nil)]
  · simp [filterMap_eq_map', subflowsOk_iff, and_assoc]
  · intro reference r i
    cases hs : reference.source with
    | builtin name =>
      have hn : (builtinSubflows.lookup name).isNone = true ↔ name ∉ builtinSubflows.map Prod.fst := by
        rw [← lookup_isSome_iff_mem_keys]
        cases builtinSubflows.lookup name <;> simp
      cases r <;> simp [SubflowSource.Resolves, hn]
    | inline s => cases r <;> simp [SubflowSource.Resolves]
  · intro definition r i
    cases r <;> simp

/-! ### The registry of a checked journey -/

/-- One definition of the registry has a call step for another. -/
def Registry.Calls (registry : Registry) (key key2 : SubflowId) : Prop :=
  ∃ definition, registry.lookup key = some definition ∧
    ∃ step ∈ definition.steps, step.kind = .subflowCall ∧ step.subflow = some key2

section Calls

variable {doc : Journey} {key key2 : SubflowId}

theorem mem_allKeys_of_calls (hcl : (fullRegistry doc).Calls key key2) : key ∈ allKeys doc := by
  obtain ⟨definition, hlk, -⟩ := hcl
  have hk := lookup_isSome_iff_mem_keys.mp (Option.isSome_iff_exists.mpr ⟨definition, hlk⟩)
  simpa [fullRegistry, allKeys, or_comm] using hk

variable (hfresh : ∀ definition ∈ inlineDefinitions doc, definition.id ∉ builtinSubflows.map Prod.fst)

include hfresh

/-- Where no inline definition shadows a built-in one, the graph of the check and the registry of the
composition resolve a key alike: the check lets the built-in win, the composition the inline one. -/
theorem lookup_callGraph (key : SubflowId) :
    (callGraph (inlineDefinitions doc) builtinSubflows (allKeys doc)).lookup key =
      ((fullRegistry doc).lookup key).map fun definition => calledKeys definition.steps (allKeys doc) := by
  have hm : ∀ d : List Subflow,
      (d.map fun definition => (definition.id, calledKeys definition.steps (allKeys doc))).lookup key =
        ((d.map fun definition => (definition.id, definition)).lookup key).map
          fun definition => calledKeys definition.steps (allKeys doc) := by
    intro d
    induction d with
    | nil => rfl
    | cons definition d ih =>
      simp only [map_cons, lookup_cons, ih]
      split <;> rfl
  simp only [callGraph, fullRegistry, builtinSubflows, map_cons, map_nil, reverse_append,
    reverse_cons, reverse_nil, nil_append, lookup_append, ← map_reverse, hm]
  by_cases hk : key = builtinMfaStepUp
  · have hn : ((inlineDefinitions doc).reverse.map fun definition => (definition.id, definition)).lookup key = none := by
      rw [lookup_eq_none_iff]
      simp only [mem_map, mem_reverse, forall_exists_index, and_imp, forall_apply_eq_imp_iff₂]
      intro definition hme
      have hne := hfresh definition hme
      simp only [builtinSubflows, map_cons, map_nil, mem_singleton] at hne
      simpa [hk] using Ne.symm hne
    subst hk
    rw [hn]
    simp
  · simp [lookup_cons, beq_eq_false_iff_ne.mpr hk]

theorem calls_callGraph_iff :
    (callGraph (inlineDefinitions doc) builtinSubflows (allKeys doc)).Calls key key2 ↔
      (fullRegistry doc).Calls key key2 ∧ key2 ∈ allKeys doc := by
  rw [CallGraph.Calls, CallGraph.next, lookup_callGraph hfresh, Registry.Calls]
  cases (fullRegistry doc).lookup key with
  | none => simp
  | some definition =>
    simp only [Option.map_some, Option.getD_some, calledKeys, mem_filterMap, Option.some.injEq, exists_eq_left']
    constructor
    · rintro ⟨step, hs, hc⟩
      split_ifs at hc with hk
      obtain ⟨hsu, hke⟩ := Option.filter_eq_some_iff.mp hc
      exact ⟨⟨step, hs, by simpa using hk, hsu⟩, by simpa using hke⟩
    · rintro ⟨⟨step, hs, hk, hsu⟩, hke⟩
      exact ⟨step, hs, by simp [hk, hsu, hke]⟩

/-- The calls up to a key that resolves are in the graph of the check. -/
theorem transGen_callGraph (hcl : TransGen (fullRegistry doc).Calls key key2) (hk : key2 ∈ allKeys doc) :
    TransGen (callGraph (inlineDefinitions doc) builtinSubflows (allKeys doc)).Calls key key2 := by
  induction hcl with
  | single hc => exact .single ((calls_callGraph_iff hfresh).mpr ⟨hc, hk⟩)
  | tail _ hc ih => exact .tail (ih (mem_allKeys_of_calls hc)) ((calls_callGraph_iff hfresh).mpr ⟨hc, hk⟩)

/-- **The cycle check reports a cycle exactly when the definitions that composition resolves have one.** -/
theorem detectSubflowCycles_ne_nil_iff :
    detectSubflowCycles (inlineDefinitions doc) builtinSubflows (allKeys doc) ≠ [] ↔
      ∃ key, TransGen (fullRegistry doc).Calls key key := by
  rw [Ne, detectSubflowCycles_eq_nil]
  push Not
  constructor
  · rintro ⟨definition, -, hcy⟩
    exact ⟨definition.id, TransGen.mono (fun _ _ hc => ((calls_callGraph_iff hfresh).mp hc).1) _ _ hcy⟩
  · rintro ⟨key, hcy⟩
    obtain ⟨key2, hc, -⟩ := TransGen.head'_iff.mp hcy
    have hk := mem_allKeys_of_calls hc
    have hg := transGen_callGraph hfresh hcy hk
    obtain hbi | hi := mem_append.mp hk
    · -- the built-in subflow calls nothing
      obtain ⟨key3, hc, -⟩ := TransGen.head'_iff.mp hg
      obtain rfl : key = builtinMfaStepUp := by simpa [builtinSubflows] using hbi
      exact absurd hc (by simp [CallGraph.Calls, CallGraph.next, callGraph, builtinSubflows, calledKeys, mfaStepUp])
    · obtain ⟨definition, hm, rfl⟩ := mem_map.mp hi
      exact ⟨definition, hm, hg⟩

end Calls

section Registry

variable {admitBuiltinOnly : Bool} {doc : Journey} (h : SubflowsOk admitBuiltinOnly doc)

include h

theorem fullRegistry_keys_nodup : ((fullRegistry doc).map Prod.fst).Nodup := by
  rw [fullRegistry, map_reverse, nodup_reverse, map_append, List.map_map]
  refine List.Nodup.append (nodup_singleton _) h.nodup ?_
  intro key hbi hi
  obtain ⟨definition, hm, rfl⟩ := mem_map.mp hi
  exact h.fresh definition hm hbi

variable {key : SubflowId} {definition : Subflow}

/-- A key resolves to the built-in subflow or to the inline definition of that id. -/
theorem lookup_fullRegistry :
    (fullRegistry doc).lookup key = some definition ↔
      (key = builtinMfaStepUp ∧ definition = mfaStepUp) ∨ (definition ∈ inlineDefinitions doc ∧ definition.id = key) := by
  rw [Loops.lookup_eq_some_iff_mem (fullRegistry_keys_nodup h), fullRegistry, mem_reverse, mem_append,
    builtinSubflows, mem_singleton, Prod.mk.injEq, mem_map]
  refine or_congr Iff.rfl ⟨?_, fun ⟨hm, hid⟩ => ⟨definition, hm, by rw [hid]⟩⟩
  rintro ⟨d2, hm, heq⟩
  obtain ⟨hid, rfl⟩ := Prod.mk.inj heq
  exact ⟨hm, hid⟩

/-- Every definition of the registry is a checked fragment. -/
theorem registry_fragmentOk (hlk : (fullRegistry doc).lookup key = some definition) :
    FragmentOk (allKeys doc) admitBuiltinOnly definition := by
  rcases (lookup_fullRegistry h).mp hlk with ⟨-, rfl⟩ | ⟨hm, -⟩
  · have hok : validateSubflowFragment mfaStepUp "" (allKeys doc) admitBuiltinOnly = [] := rfl
    exact validateSubflowFragment_eq_nil.mp hok
  · exact h.fragments definition hm

/-- Every known key resolves. -/
theorem exists_lookup_of_mem_allKeys (hk : key ∈ allKeys doc) :
    ∃ definition, (fullRegistry doc).lookup key = some definition := by
  rcases mem_append.mp hk with hk | hk
  · refine ⟨mfaStepUp, (lookup_fullRegistry h).mpr (.inl ⟨?_, rfl⟩)⟩
    simpa [builtinSubflows] using hk
  · obtain ⟨definition, hm, hid⟩ := mem_map.mp hk
    exact ⟨definition, (lookup_fullRegistry h).mpr (.inr ⟨hm, hid⟩)⟩

end Registry

end IronAuth.Journeys
