import IronAuth.Journeys.Subflow

/-!
# The load-time validator

`validate_inner` of `ironauth-journey/src/validate.rs`: every check of a journey,
its errors in document order. The author's artifact is checked with the reserved
separator refused; the artifact that composition produces is checked again with
the separator admitted.
-/

namespace IronAuth.Journeys

open Relation List
open Lib

/-- The ids of the terminal steps. -/
def terminalIds (steps : List Step) : List StepId := stepIds (steps.filter fun step => step.kind.isTerminal)

theorem mem_terminalIds_iff {steps : List Step} {step : Step} (hnd : (stepIds steps).Nodup) (hs : step ∈ steps) :
    step.id ∈ terminalIds steps ↔ step.kind = .terminal := by
  rw [terminalIds, mem_stepIds]
  constructor
  · rintro ⟨s2, hs2, hid⟩
    obtain ⟨hm, hte⟩ := mem_filter.mp hs2
    obtain rfl := inj_on_of_nodup_map hnd hm hs hid
    simpa using hte
  · exact fun hk => ⟨step, mem_filter.mpr ⟨hs, by simp [hk]⟩, rfl⟩

/-- The aliases a journey declares. -/
def declaredSubflowIds (doc : Journey) : List SubflowId := (doc.subflows.getD []).map SubflowRef.id

/-- The checks of one step of a journey. Its call names an alias. -/
def checkJourneyStep (step : Step) (index : ℕ) (declared : List SubflowId) (rejectReserved admitBuiltinOnly : Bool) :
    List JourneyError :=
  checkKindAndNodeGroup step s!"/steps/{index}" admitBuiltinOnly ++
  (if rejectReserved && strContains step.id namespaceSeparator then
    [JourneyError.reservedStepIdSeparator s!"/steps/{index}/id" step.id] else []) ++
  (match step.subflow with
    | some key => if !declared.contains key then [JourneyError.danglingSubflowRef s!"/steps/{index}/subflow" key] else []
    | none => []) ++
  checkAttachmentCoherence step s!"/steps/{index}"

/-- The errors of `validate_inner`, in document order. -/
def validateErrors (doc : Journey) (rejectReserved admitBuiltinOnly : Bool) : List JourneyError :=
  let ids := stepIds doc.steps
  let terminals := terminalIds doc.steps
  (if doc.engineVersion > journeyEngineVersion then
    [JourneyError.engineIncompatible "/engine_version" doc.engineVersion journeyEngineVersion] else []) ++
  collectStepIds doc.steps "" ++
  (doc.steps.zipIdx.flatMap fun (step, index) =>
    checkJourneyStep step index (declaredSubflowIds doc) rejectReserved admitBuiltinOnly) ++
  (if !ids.contains doc.entry then [JourneyError.unknownEntry "/entry"] else []) ++
  checkTransitionEndpoints ids doc.transitions "" ++
  (doc.transitions.zipIdx.flatMap fun (transition, index) =>
    if terminals.contains transition.from then
      [JourneyError.terminalHasTransition s!"/transitions/{index}" transition.from] else []) ++
  (if ids.contains doc.entry then
    checkReachabilityAndDeadEnds doc.entry doc.steps doc.transitions ids terminals "" ++
    checkSubjectEstablishment doc.entry doc.steps doc.transitions ids "" else []) ++
  checkPredicates doc.steps doc.transitions "" ++
  validateSubflows doc admitBuiltinOnly

/-- Validate a journey: every error, or nothing. -/
def validateInner (doc : Journey) (rejectReserved admitBuiltinOnly : Bool) : Except (List JourneyError) Unit :=
  match validateErrors doc rejectReserved admitBuiltinOnly with
  | [] => .ok ()
  | errors => .error errors

/-- Validate a custom artifact. -/
def validate (doc : Journey) : Except (List JourneyError) Unit := validateInner doc true false

/-- Validate an embedded built-in artifact, which may name the mint family. -/
def validateBuiltin (doc : Journey) : Except (List JourneyError) Unit := validateInner doc true true

variable {doc : Journey} {rejectReserved admitBuiltinOnly : Bool}

theorem validateInner_eq_ok :
    validateInner doc rejectReserved admitBuiltinOnly = .ok () ↔
      validateErrors doc rejectReserved admitBuiltinOnly = [] := by
  unfold validateInner
  split <;> simp_all

/-! ### Well-formed journeys -/

/-- A step the validator accepts. -/
@[mk_iff]
structure JourneyStepOk (declared : List SubflowId) (rejectReserved admitBuiltinOnly : Bool) (step : Step) :
    Prop where
  vocabulary : StepInVocabulary admitBuiltinOnly step
  reserved : rejectReserved = true → strContains step.id namespaceSeparator = false
  keys : ∀ key ∈ step.subflow, key ∈ declared
  coherent : StepCoherent step

theorem checkJourneyStep_eq_nil {step : Step} {index : ℕ} {declared : List SubflowId} :
    checkJourneyStep step index declared rejectReserved admitBuiltinOnly = [] ↔
      JourneyStepOk declared rejectReserved admitBuiltinOnly step := by
  have hk : (match step.subflow with
      | some key =>
        if !declared.contains key then [JourneyError.danglingSubflowRef s!"/steps/{index}/subflow" key] else []
      | none => []) = [] ↔ ∀ key ∈ step.subflow, key ∈ declared := by
    cases step.subflow <;> simp
  simp only [checkJourneyStep, append_eq_nil_iff, checkKindAndNodeGroup_eq_nil, checkAttachmentCoherence_eq_nil,
    hk, ite_eq_right_iff, cons_ne_nil, imp_false, Bool.and_eq_true, not_and, Bool.not_eq_true, journeyStepOk_iff, and_assoc]

/-- A well-formed journey: all that the validator asks except that a subject be established. -/
structure JourneyOk (rejectReserved admitBuiltinOnly : Bool) (doc : Journey) : Prop where
  engine : ¬ doc.engineVersion > journeyEngineVersion
  graph : GraphOk doc.entry doc.steps doc.transitions (terminalIds doc.steps)
  steps : ∀ step ∈ doc.steps, JourneyStepOk (declaredSubflowIds doc) rejectReserved admitBuiltinOnly step
  leaf : ∀ t ∈ doc.transitions, t.from ∉ terminalIds doc.steps
  subflows : SubflowsOk admitBuiltinOnly doc

/-- No step that reads the subject is reachable before one is established. -/
def SubjectOk (doc : Journey) : Prop :=
  ∀ step ∈ doc.steps, step.kind.requiresSubject = true →
    ¬ ReflTransGen (SubjectlessEdge doc.steps doc.transitions (stepIds doc.steps)) doc.entry step.id

/-- An error about the subject. -/
def JourneyError.isSubject : JourneyError → Bool
  | subjectStepNotEstablished _ _ => true
  | _ => false

/-- The errors of every check but the one about the subject. -/
def structureErrors (doc : Journey) (rejectReserved admitBuiltinOnly : Bool) : List JourneyError :=
  (if doc.engineVersion > journeyEngineVersion then
    [JourneyError.engineIncompatible "/engine_version" doc.engineVersion journeyEngineVersion] else []) ++
  collectStepIds doc.steps "" ++
  (doc.steps.zipIdx.flatMap fun (step, index) =>
    checkJourneyStep step index (declaredSubflowIds doc) rejectReserved admitBuiltinOnly) ++
  (if !(stepIds doc.steps).contains doc.entry then [JourneyError.unknownEntry "/entry"] else []) ++
  checkTransitionEndpoints (stepIds doc.steps) doc.transitions "" ++
  (doc.transitions.zipIdx.flatMap fun (transition, index) =>
    if (terminalIds doc.steps).contains transition.from then
      [JourneyError.terminalHasTransition s!"/transitions/{index}" transition.from] else []) ++
  (if (stepIds doc.steps).contains doc.entry then
    checkReachabilityAndDeadEnds doc.entry doc.steps doc.transitions (stepIds doc.steps) (terminalIds doc.steps) ""
    else []) ++
  checkPredicates doc.steps doc.transitions "" ++
  validateSubflows doc admitBuiltinOnly

variable {e : JourneyError}

theorem mem_validateErrors :
    e ∈ validateErrors doc rejectReserved admitBuiltinOnly ↔
      e ∈ structureErrors doc rejectReserved admitBuiltinOnly ∨
        (doc.entry ∈ stepIds doc.steps ∧
          e ∈ checkSubjectEstablishment doc.entry doc.steps doc.transitions (stepIds doc.steps) "") := by
  have hif : ∀ {l1 l2 : List JourneyError},
      e ∈ (if (stepIds doc.steps).contains doc.entry then l1 ++ l2 else []) ↔
        e ∈ (if (stepIds doc.steps).contains doc.entry then l1 else []) ∨ (doc.entry ∈ stepIds doc.steps ∧ e ∈ l2) := by
    intro l1 l2
    by_cases he : doc.entry ∈ stepIds doc.steps
    · simp only [contains_iff_mem.mpr he, if_true, mem_append, he, true_and]
    · simp [he]
  -- The subject's errors stand before those of the last two checks.
  have hl : ∀ {a b c d s : Prop}, ((a ∨ b ∨ s) ∨ c) ∨ d ↔ (((a ∨ b) ∨ c) ∨ d) ∨ s := by tauto
  simp only [validateErrors, structureErrors, mem_append, hif]
  exact hl

theorem structureErrors_eq_nil :
    structureErrors doc rejectReserved admitBuiltinOnly = [] ↔ JourneyOk rejectReserved admitBuiltinOnly doc := by
  simp only [structureErrors, append_eq_nil_iff, collectStepIds_eq_nil, checkTransitionEndpoints_eq_nil,
    checkPredicates_eq_nil, validateSubflows_eq_nil]
  rw [Loops.flatMap_zipIdx_eq_nil (P := JourneyStepOk (declaredSubflowIds doc) rejectReserved admitBuiltinOnly)
      (fun _ _ => checkJourneyStep_eq_nil),
    Loops.flatMap_zipIdx_eq_nil (P := fun t => t.from ∉ terminalIds doc.steps) (by intro a i; simp)]
  constructor
  · rintro ⟨⟨⟨⟨⟨⟨⟨⟨hen, hnd⟩, hs⟩, hent⟩, he, hd⟩, hl⟩, hr⟩, hg, hde⟩, hsu⟩
    have hent : doc.entry ∈ stepIds doc.steps := by simpa using hent
    rw [if_pos (by simpa using hent), checkReachabilityAndDeadEnds_eq_nil] at hr
    obtain ⟨hre, ho⟩ := hr
    refine ⟨?_, ⟨hnd, hent, he, hd, hre, ho, hg, hde⟩, hs, hl, hsu⟩
    intro hn
    simp [hn] at hen
  · intro h
    refine ⟨⟨⟨⟨⟨⟨⟨⟨?_, h.graph.nodup⟩, h.steps⟩, ?_⟩, h.graph.endpoints, h.graph.deterministic⟩, h.leaf⟩, ?_⟩,
      h.graph.guards, h.graph.decisions⟩, h.subflows⟩
    · rw [if_neg h.engine]
    · simpa using h.graph.entry_mem
    · rw [if_pos (by simpa using h.graph.entry_mem), checkReachabilityAndDeadEnds_eq_nil]
      exact ⟨h.graph.reachable, h.graph.onward⟩

/-- **What the validator accepts.** -/
theorem validateErrors_eq_nil :
    validateErrors doc rejectReserved admitBuiltinOnly = [] ↔
      JourneyOk rejectReserved admitBuiltinOnly doc ∧ SubjectOk doc := by
  rw [← structureErrors_eq_nil]
  constructor
  · intro h
    have hn : ∀ e, e ∉ validateErrors doc rejectReserved admitBuiltinOnly := by simp [h]
    have hst : structureErrors doc rejectReserved admitBuiltinOnly = [] :=
      eq_nil_iff_forall_not_mem.mpr fun e he => hn e (mem_validateErrors.mpr (.inl he))
    have hen := (structureErrors_eq_nil.mp hst).graph.entry_mem
    have hs : checkSubjectEstablishment doc.entry doc.steps doc.transitions (stepIds doc.steps) "" = [] :=
      eq_nil_iff_forall_not_mem.mpr fun e he => hn e (mem_validateErrors.mpr (.inr ⟨hen, he⟩))
    exact ⟨hst, checkSubjectEstablishment_eq_nil.mp hs⟩
  · rintro ⟨hst, hs⟩
    refine eq_nil_iff_forall_not_mem.mpr fun e he => ?_
    rcases mem_validateErrors.mp he with he | ⟨-, he⟩
    · simp [hst] at he
    · rw [checkSubjectEstablishment_eq_nil.mpr hs] at he
      cases he

/-! ### Errors that are not about the subject -/

/-- None of the errors is about the subject. -/
def NoSubject (errors : List JourneyError) : Prop := ∀ e ∈ errors, e.isSubject = false

theorem NoSubject.nil : NoSubject [] := by
  simp [NoSubject]

theorem NoSubject.ite {c : Prop} [Decidable c] (h : e.isSubject = false) :
    NoSubject (if c then [e] else []) := by
  split <;> simp [NoSubject, h]

theorem NoSubject.append {l1 l2 : List JourneyError} (h1 : NoSubject l1) (h2 : NoSubject l2) : NoSubject (l1 ++ l2) := by
  intro e he
  exact (mem_append.mp he).elim (h1 e) (h2 e)

theorem NoSubject.flatMap {α : Type} {as : List α} {f : α → List JourneyError} (h : ∀ a, NoSubject (f a)) :
    NoSubject (as.flatMap f) := by
  intro e he
  obtain ⟨a, -, hea⟩ := mem_flatMap.mp he
  exact h a e hea

/-- A list without such errors consists only of them exactly when it is empty. -/
theorem NoSubject.forall_iff {er : List JourneyError} (h : NoSubject er) :
    (∀ e ∈ er, e.isSubject = true) ↔ er = [] := by
  cases er with
  | nil => simp
  | cons e er =>
    have he := h e (mem_cons_self ..)
    simp [he]

theorem noSubject_checkKindAndNodeGroup (st : Step) (s : String) (admitBuiltinOnly : Bool) :
    NoSubject (checkKindAndNodeGroup st s admitBuiltinOnly) := by
  refine NoSubject.append ?_ ?_
  · split
    · simp [NoSubject, JourneyError.isSubject]
    · exact NoSubject.ite rfl
  · split
    · exact NoSubject.ite rfl
    · exact NoSubject.nil

theorem noSubject_checkAttachmentCoherence (st : Step) (s : String) :
    NoSubject (checkAttachmentCoherence st s) := by
  refine (((NoSubject.append ?_ (NoSubject.ite rfl)).append (NoSubject.ite rfl)).append (NoSubject.ite rfl))
  split
  · simp [NoSubject, JourneyError.isSubject]
  · exact NoSubject.ite rfl

theorem noSubject_collectStepIds (s : List Step) (b : String) : NoSubject (collectStepIds s b) :=
  NoSubject.flatMap fun _ => NoSubject.ite rfl

theorem noSubject_checkTransitionEndpoints (ids : List StepId) (ts : List Transition) (b : String) :
    NoSubject (checkTransitionEndpoints ids ts b) :=
  NoSubject.flatMap fun _ => ((NoSubject.ite rfl).append (NoSubject.ite rfl)).append (NoSubject.ite rfl)

theorem noSubject_checkReachabilityAndDeadEnds (e : StepId) (s : List Step) (ts : List Transition)
    (ids r : List StepId) (b : String) :
    NoSubject (checkReachabilityAndDeadEnds e s ts ids r b) :=
  (NoSubject.flatMap fun _ => NoSubject.ite rfl).append (NoSubject.flatMap fun _ => NoSubject.ite rfl)

theorem noSubject_checkPredicates (s : List Step) (ts : List Transition) (b : String) :
    NoSubject (checkPredicates s ts b) := by
  refine NoSubject.append (NoSubject.flatMap fun x => ?_) (NoSubject.flatMap fun x => ?_)
  all_goals
    dsimp only
    split
    · intro e he
      obtain ⟨error, -, rfl⟩ := mem_map.mp he
      rfl
    · exact NoSubject.nil

theorem noSubject_checkSubflowStep (st : Step) (s : String) (a : List SubflowId)
    (admitBuiltinOnly : Bool) : NoSubject (checkSubflowStep st s a admitBuiltinOnly) := by
  refine ((((noSubject_checkKindAndNodeGroup _ _ _).append (NoSubject.ite rfl)).append (NoSubject.ite rfl)).append
    ?_).append (noSubject_checkAttachmentCoherence _ _)
  split
  · exact NoSubject.ite rfl
  · exact NoSubject.nil

theorem noSubject_validateSubflowFragment (d : Subflow) (b : String) (a : List SubflowId)
    (admitBuiltinOnly : Bool) : NoSubject (validateSubflowFragment d b a admitBuiltinOnly) := by
  refine ((((((((noSubject_collectStepIds _ _).append
    (NoSubject.flatMap fun _ => noSubject_checkSubflowStep _ _ _ _)).append (NoSubject.ite rfl)).append
    (NoSubject.ite rfl)).append (NoSubject.flatMap fun _ => NoSubject.ite rfl)).append
    (NoSubject.flatMap fun _ => NoSubject.ite rfl)).append (noSubject_checkTransitionEndpoints _ _ _)).append ?_).append
    (noSubject_checkPredicates _ _ _)
  split
  · exact noSubject_checkReachabilityAndDeadEnds _ _ _ _ _ _
  · exact NoSubject.nil

theorem noSubject_validateSubflows (doc : Journey) (admitBuiltinOnly : Bool) :
    NoSubject (validateSubflows doc admitBuiltinOnly) := by
  refine (((NoSubject.flatMap fun _ => NoSubject.ite rfl).append (NoSubject.flatMap fun x => ?_)).append
    (NoSubject.flatMap fun _ => noSubject_validateSubflowFragment _ _ _ _)).append ?_
  · refine (NoSubject.ite rfl).append ?_
    split
    · exact NoSubject.ite rfl
    · exact NoSubject.ite rfl
  · unfold detectSubflowCycles
    split
    · simp [NoSubject, JourneyError.isSubject]
    · exact NoSubject.nil

theorem noSubject_structureErrors (doc : Journey) (rejectReserved admitBuiltinOnly : Bool) :
    NoSubject (structureErrors doc rejectReserved admitBuiltinOnly) := by
  refine ((((((((NoSubject.ite rfl).append (noSubject_collectStepIds _ _)).append
    (NoSubject.flatMap fun _ => ?_)).append (NoSubject.ite rfl)).append
    (noSubject_checkTransitionEndpoints _ _ _)).append (NoSubject.flatMap fun _ => NoSubject.ite rfl)).append
    ?_).append (noSubject_checkPredicates _ _ _)).append (noSubject_validateSubflows _ _)
  · refine (((noSubject_checkKindAndNodeGroup _ _ _).append (NoSubject.ite rfl)).append ?_).append
      (noSubject_checkAttachmentCoherence _ _)
    split
    · exact NoSubject.ite rfl
    · exact NoSubject.nil
  · split
    · exact noSubject_checkReachabilityAndDeadEnds _ _ _ _ _ _
    · exact NoSubject.nil

/-- **The errors are all about the subject exactly when the journey is well formed.** -/
theorem validateErrors_subject_only :
    (∀ e ∈ validateErrors doc rejectReserved admitBuiltinOnly, e.isSubject = true) ↔
      JourneyOk rejectReserved admitBuiltinOnly doc := by
  rw [← structureErrors_eq_nil, ← (noSubject_structureErrors doc rejectReserved admitBuiltinOnly).forall_iff]
  constructor
  · intro h e he
    exact h e (mem_validateErrors.mpr (.inl he))
  · intro h e he
    rcases mem_validateErrors.mp he with he | ⟨-, he⟩
    · exact h e he
    · obtain ⟨x, -, hx⟩ := mem_flatMap.mp he
      dsimp only at hx
      split at hx
      · rw [mem_singleton.mp hx]
        rfl
      · cases hx

end IronAuth.Journeys
