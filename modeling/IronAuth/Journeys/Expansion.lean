import IronAuth.Journeys.Compose

/-!
# What the inlining loop computes

The loop of `compose_inner`, seen from the hierarchy. It works through the
document order: the flat document always consists of the plain steps it has
passed and of the paths still on its agenda, and inlining the first call puts the
steps directly below it in its place. So it ends, with the plain steps of the
hierarchy in document order.
-/

namespace IronAuth.Journeys

open Relation List Option
open Lib

namespace Hierarchy

variable (h : Hierarchy)

/-- A flat step that stands for the step at a path: the same but for its id and its comment. -/
def Renders (p : Path) (step : Step) : Prop :=
  ∃ source comment, h.stepAt p = some source ∧ step = { source with id := pathName p, comment := comment }

/-- Whether there is a call step at a path. -/
def isCallAt (p : Path) : Bool := (h.stepAt p).any fun step => step.kind.isCall

/-- The paths the flat document stands for: the plain steps visited, and the agenda. -/
def nodes (visited agenda : List Path) : List Path := (visited.filter fun p => !h.isCallAt p) ++ agenda

end Hierarchy

/-- The flat document stands for the hierarchy with `visited` expanded and `agenda` still to be
looked at. -/
structure Expansion (h : Hierarchy) (flat : Journey) (visited agenda : List Path) : Prop where
  covers : Preorder.Covers h.children h.rank h.documentOrder visited agenda
  steps : List.Forall₂ h.Renders (h.nodes visited agenda) flat.steps
  tails : agenda.Pairwise fun p q => q.tail <:+ p.tail
  sources : ∀ t ∈ flat.transitions, t.from ∈ stepIds flat.steps

/-- One turn of the loop: the call step at path `c`, with `front` before it on the agenda and
`rest` after it, is replaced by the fragment `level`. -/
structure Turn (h : Hierarchy) (flat flat2 : Journey) (front rest : List Path) (c : Path) (level : Subflow)
    (before after : List Step) (call : Step) : Prop where
  front_plain : ∀ p ∈ front, h.IsPlain p
  path_ne : c ≠ []
  level_eq : h.levelOf c = some level
  renders : h.Renders c call
  call_kind : call.kind = .subflowCall
  before_plain : ∀ step ∈ before, step.kind ≠ .subflowCall
  steps_eq : flat.steps = before ++ call :: after
  steps_eq2 : flat2.steps = before ++ splicedSteps call level ++ after
  transitions_eq2 : flat2.transitions = splicedTransitions call.id level flat.transitions
  entry_eq2 : flat2.entry = if flat.entry = call.id then namespaced call.id level.entry else flat.entry
  engine_eq2 : flat2.engineVersion = flat.engineVersion
  subflows_eq2 : flat2.subflows = flat.subflows
  definitions_eq2 : flat2.subflowDefinitions = flat.subflowDefinitions

namespace Hierarchy

variable {admitBuiltinOnly : Bool} {h : Hierarchy}

variable {p : Path} {s : Step}

theorem Renders.id_eq (hr : h.Renders p s) : s.id = pathName p := by
  obtain ⟨source, comment, -, rfl⟩ := hr
  rfl

theorem Renders.occurs (hr : h.Renders p s) : h.Occurs p := by
  obtain ⟨source, comment, hs, -⟩ := hr
  exact ⟨source, hs⟩

theorem Renders.isCall_iff (hr : h.Renders p s) :
    h.IsCall p ↔ s.kind = .subflowCall := by
  obtain ⟨source, comment, hs, rfl⟩ := hr
  simp [IsCall, hs]

theorem isCallAt_iff : h.isCallAt p = true ↔ h.IsCall p := by
  simp [isCallAt, IsCall, Option.any_eq_true]

theorem isPlain_iff : h.IsPlain p ↔ h.Occurs p ∧ ¬ h.IsCall p := by
  constructor
  · rintro ⟨step, hs, hk⟩
    refine ⟨⟨step, hs⟩, ?_⟩
    rintro ⟨s2, hs2, hk2⟩
    rw [hs, Option.some.injEq] at hs2
    exact hk (hs2 ▸ hk2)
  · rintro ⟨⟨step, hs⟩, hc⟩
    exact ⟨step, hs, fun hk => hc ⟨step, hs, hk⟩⟩

theorem Renders.isPlain_iff (hr : h.Renders p s) :
    h.IsPlain p ↔ s.kind ≠ .subflowCall := by
  rw [Hierarchy.isPlain_iff, hr.isCall_iff]
  exact and_iff_right hr.occurs

theorem isCallAt_of_isPlain (hp : h.IsPlain p) : h.isCallAt p = false :=
  Bool.eq_false_iff.mpr fun hc => (isPlain_iff.mp hp).2 (isCallAt_iff.mp hc)

/-- Plain steps stay when the calls are dropped. -/
theorem filter_isCallAt {ps : List Path} (hps : ∀ p ∈ ps, h.IsPlain p) : (ps.filter fun p => !h.isCallAt p) = ps :=
  filter_eq_self.mpr fun p hp => by rw [isCallAt_of_isPlain (hps p hp)]; rfl

theorem not_mem_filter_of_isCall {ps : List Path} (hc : h.IsCall p) : p ∉ ps.filter fun p => !h.isCallAt p := by
  simp [isCallAt_iff.mpr hc]

/-- The steps of a fragment, spliced in for a call, stand for the paths directly below it. -/
theorem forall₂_renders_splicedSteps (ok : h.Ok admitBuiltinOnly) {c : Path} (hc : c ≠ []) {level : Subflow}
    (hl : h.levelOf c = some level) {call : Step} (hca : h.Renders c call) :
    List.Forall₂ h.Renders (h.children c) (splicedSteps call level) := by
  have hr : ∀ step ∈ level.steps, h.Renders (step.id :: c)
      (if namespaced call.id step.id == namespaced call.id level.entry then
        { step with id := namespaced call.id step.id, comment := prependComment call.comment step.comment }
      else { step with id := namespaced call.id step.id }) := by
    intro step hs
    have hat : h.stepAt (step.id :: c) = some step := (stepAt_cons ok).mpr ⟨level, hl, hs, rfl⟩
    have hn : namespaced call.id step.id = pathName (step.id :: c) := by
      rw [pathName_cons hc, hca.id_eq]
    rw [hn]
    split
    · exact ⟨step, _, hat, rfl⟩
    · exact ⟨step, step.comment, hat, rfl⟩
  rw [children, hl, splicedSteps, forall₂_map_left_iff, forall₂_map_right_iff, forall₂_same]
  exact hr

end Hierarchy

namespace Turn

variable {h : Hierarchy} {flat flat2 : Journey} {visited front rest : List Path} {c : Path} {level : Subflow}
  {before after : List Step} {call : Step}

theorem isCall (ht : Turn h flat flat2 front rest c level before after call) : h.IsCall c :=
  ht.renders.isCall_iff.mpr ht.call_kind

/-- The nodes after a turn: the steps in front are visited, and those directly below the call come next. -/
theorem nodes_eq2 (ht : Turn h flat flat2 front rest c level before after call) :
    h.nodes (visited ++ front ++ [c]) (h.children c ++ rest) =
      ((visited.filter fun p => !h.isCallAt p) ++ front) ++ (h.children c ++ rest) := by
  rw [Hierarchy.nodes, filter_append, filter_append, Hierarchy.filter_isCallAt ht.front_plain]
  simp [Hierarchy.isCallAt_iff.mpr ht.isCall]

end Turn

namespace Expansion

variable {admitBuiltinOnly : Bool} {h : Hierarchy} {flat : Journey} {visited agenda : List Path}

theorem stepIds_eq (he : Expansion h flat visited agenda) :
    stepIds flat.steps = (h.nodes visited agenda).map pathName := by
  have ha : ∀ {ps : List Path} {s : List Step}, List.Forall₂ h.Renders ps s →
      stepIds s = ps.map pathName := by
    intro ps s hf
    induction hf with
    | nil => rfl
    | cons hr _ ih =>
      rw [stepIds, map_cons, map_cons, hr.id_eq]
      exact congrArg _ ih
  exact ha he.steps

variable {p c : Path} {front rest : List Path}

theorem occurs_of_mem_nodes (he : Expansion h flat visited agenda) (hp : p ∈ h.nodes visited agenda) :
    h.Occurs p := by
  obtain ⟨step, -, hr⟩ := Loops.exists_of_forall₂_left he.steps hp
  exact hr.occurs

/-- The flat document starts as the journey's own steps, with all of the hierarchy on the agenda. -/
theorem initial {doc : Journey} (hd : JourneyOk true admitBuiltinOnly doc) :
    Expansion (hierarchy doc) (initialFlat doc) [] ((hierarchy doc).children []) := by
  have ok := hierarchy_ok hd
  have hch : (hierarchy doc).children [] = (initialFlat doc).steps.map fun step => [step.id] := rfl
  refine ⟨rfl, ?_, ?_, ?_⟩
  · have hns : (hierarchy doc).nodes [] ((hierarchy doc).children []) = (hierarchy doc).children [] := rfl
    rw [hns, hch, forall₂_map_left_iff, forall₂_same]
    intro step hs
    exact ⟨step, step.comment, (Hierarchy.stepAt_cons ok).mpr ⟨_, rfl, hs, rfl⟩, rfl⟩
  · rw [hch]
    exact pairwise_map.mpr (pairwise_of_forall fun _ _ => suffix_refl _)
  · intro t ht
    exact (ok.root.graph.endpoints t ht).1

/-- The nodes are pairwise apart: none lies above another. -/
theorem eq_of_suffix (ok : h.Ok admitBuiltinOnly) (he : Expansion h flat visited agenda) {q : Path}
    (hp : p ∈ h.nodes visited agenda) (hq : q ∈ h.nodes visited agenda) (hsu : p <:+ q) : p = q := by
  have hr := Hierarchy.ranked_children ok
  have hbe : q ∈ Preorder.subtree h.children h.rank p :=
    (Preorder.mem_subtree hr).mpr ((Hierarchy.reflTransGen_children_iff ok
      (.inr (he.occurs_of_mem_nodes hp))).mpr ⟨hsu, .inr (he.occurs_of_mem_nodes hq)⟩)
  by_cases hc : h.IsCall p
  · have hpa : p ∈ agenda := (mem_append.mp hp).resolve_left (Hierarchy.not_mem_filter_of_isCall hc)
    have hnd : (visited ++ agenda.flatMap (Preorder.subtree h.children h.rank)).Nodup :=
      he.covers ▸ Hierarchy.nodup_documentOrder ok
    obtain ⟨-, hag, hd⟩ := nodup_append'.mp hnd
    rcases mem_append.mp hq with hq | hq
    · -- what is visited is not on the agenda
      exact absurd (mem_flatMap.mpr ⟨p, hpa, hbe⟩) (hd (mem_filter.mp hq).1)
    · -- two paths of the agenda have disjoint subtrees
      by_contra hne
      have hs : q ∈ Preorder.subtree h.children h.rank q := (Preorder.mem_subtree hr).mpr .refl
      have : Std.Symm (Function.onFun List.Disjoint (Preorder.subtree h.children h.rank)) :=
        ⟨fun _ _ hab _ hb ha => hab ha hb⟩
      exact ((nodup_flatMap.mp hag).2.forall hpa hq hne) hbe hs
  · have hpl : h.IsPlain p := Hierarchy.isPlain_iff.mpr ⟨he.occurs_of_mem_nodes hp, hc⟩
    rw [Preorder.subtree_of_leaf hr (Hierarchy.children_eq_nil_of_isPlain ok hpl), mem_singleton] at hbe
    exact hbe.symm

/-- After a turn every transition still leaves a step of the document. -/
theorem sources_of_turn (ok : h.Ok admitBuiltinOnly) {flat2 : Journey}
    {level : Subflow} {before after : List Step} {call : Step}
    (ht : Turn h flat flat2 front rest c level before after call)
    (hs : ∀ t ∈ flat.transitions, t.from ∈ stepIds flat.steps) :
    ∀ t ∈ flat2.transitions, t.from ∈ stepIds flat2.steps := by
  have hl := Hierarchy.levelOk_of_levelOf ok ht.level_eq
  have hi : stepIds flat2.steps
      = stepIds before ++ (stepIds level.steps).map (namespaced call.id) ++ stepIds after := by
    rw [ht.steps_eq2, ← stepIds_splicedSteps]
    simp [stepIds]
  intro t hm
  rw [ht.transitions_eq2, mem_splicedTransitions] at hm
  rw [hi, mem_append, mem_append]
  rcases hm with ⟨t2, ht2, hf, rfl⟩ | ⟨t2, ht2, rfl⟩ | ⟨e, he, t2, -, -, rfl⟩
  · have hold := hs t2 ht2
    rw [ht.steps_eq, stepIds, map_append, map_cons, mem_append, mem_cons] at hold
    rw [redirect_from]
    rcases hold with hold | hold | hold
    · exact .inl (.inl hold)
    · exact absurd hold hf
    · exact .inr hold
  · exact .inl (.inr (mem_map_of_mem (hl.graph.endpoints t2 ht2).1))
  · exact .inl (.inr (mem_map_of_mem (hl.exits_mem e he)))

/-- The first call of the flat document is the first call on the agenda. -/
theorem exists_agenda_split {b2 a2 : List Path}
    (hs : h.nodes visited agenda = b2 ++ c :: a2) (hc : h.IsCall c) :
    ∃ front, agenda = front ++ c :: a2 ∧ b2 = (visited.filter fun p => !h.isCallAt p) ++ front := by
  rw [Hierarchy.nodes, append_eq_append_iff] at hs
  rcases hs with ⟨front, hb, ha⟩ | ⟨plain, hv, hr⟩
  · exact ⟨front, ha, hb⟩
  · cases plain with
    | nil =>
      rw [append_nil] at hv
      exact ⟨[], hr.symm, by rw [hv, append_nil]⟩
    | cons p plain =>
      -- the call would be among the plain steps already visited
      obtain ⟨rfl, -⟩ := hr
      exact absurd (hv ▸ mem_append_right b2 mem_cons_self) (Hierarchy.not_mem_filter_of_isCall hc)

/-- The key of a call step resolves to the level below its path. -/
theorem exists_lookup_of_isCall (ok : h.Ok admitBuiltinOnly) {call : Step} (hr : h.Renders c call)
    (hc : h.IsCall c) :
    ∃ key level, c ≠ [] ∧ call.subflow = some key ∧ h.registry.lookup key = some level ∧ h.levelOf c = some level := by
  obtain ⟨source, comment, hs, hca⟩ := hr
  cases c with
  | nil => cases hs
  | cons s cs =>
    obtain ⟨level, hl⟩ := (Hierarchy.isCall_cons_iff ok).mp hc
    have hcl := hl
    rw [Hierarchy.levelOf_cons, hs, bind_some] at hcl
    obtain ⟨-, key, hk, hlk⟩ := Hierarchy.calleeOf_eq_some.mp hcl
    exact ⟨key, level, cons_ne_nil s cs, by rw [hca]; exact hk, hlk, hl⟩

/-- The agenda after a turn still lists deeper paths first. -/
theorem tails_of_turn (ht : (front ++ c :: rest).Pairwise fun p q => q.tail <:+ p.tail) :
    (h.children c ++ rest).Pairwise fun p q => q.tail <:+ p.tail := by
  obtain ⟨hc, hr⟩ := pairwise_cons.mp (pairwise_append.mp ht).2.1
  refine pairwise_append.mpr ⟨?_, hr, ?_⟩
  · unfold Hierarchy.children
    split
    · exact pairwise_map.mpr (pairwise_of_forall fun _ _ => suffix_refl _)
    · exact List.Pairwise.nil
  · intro p hp q hq
    obtain ⟨-, -, step, -, rfl⟩ := Hierarchy.mem_children.mp hp
    exact (hc q hq).trans (tail_suffix _)

/-- **One turn of the loop.** When there is a call step, inlining the first one succeeds, and
the agenda moves past it: the steps directly below it take its place. -/
theorem turn (ok : h.Ok admitBuiltinOnly) (he : Expansion h flat visited agenda) {i : ℕ}
    (hf : (flat.steps.findIdx? fun step => step.kind.isCall) = some i) :
    ∃ flat2 front rest c level before after call, inlineOne flat i h.registry = some flat2 ∧
      agenda = front ++ c :: rest ∧ Turn h flat flat2 front rest c level before after call ∧
      Expansion h flat2 (visited ++ front ++ [c]) (h.children c ++ rest) := by
  obtain ⟨before, call, after, hst, hl, hk, hb⟩ := Loops.exists_split_of_findIdx? hf
  have hk : call.kind = .subflowCall := by simpa using hk
  have hb : ∀ step ∈ before, step.kind ≠ .subflowCall := by
    intro step hs hc
    simpa [hc, StepKind.isCall] using hb step hs
  obtain ⟨b2, c, rest, hns, hrb, hrc, hra⟩ := Loops.exists_split_of_forall₂ (hst ▸ he.steps)
  have hc : h.IsCall c := hrc.isCall_iff.mpr hk
  obtain ⟨front, ha, rfl⟩ := exists_agenda_split hns hc
  have hpl : ∀ p ∈ front, h.IsPlain p := by
    intro p hp
    obtain ⟨step, hs, hr⟩ := Loops.exists_of_forall₂_left hrb (mem_append_right _ hp)
    exact hr.isPlain_iff.mpr (hb step hs)
  obtain ⟨key, level, hne, hke, hlk, hle⟩ := exists_lookup_of_isCall ok hrc hc
  have ht : flat.steps.take i = before := by rw [hst, ← hl, take_left]
  have hd : flat.steps.drop (i + 1) = after := by
    rw [hst, ← hl, drop_append]
    simp
  have hg : flat.steps[i]? = some call := by
    rw [hst, ← hl]
    simp
  have htu : Turn h flat (splice flat i call level) front rest c level before after call := by
    refine ⟨hpl, hne, hle, hrc, hk, hb, hst, ?_, rfl, ?_, rfl, rfl, rfl⟩
    · rw [splice, ht, hd]
    · simp [splice]
  refine ⟨_, front, rest, c, level, before, after, call, ?_, ha, htu, ?_⟩
  · rw [inlineOne, hg, bind_some, hke, bind_some, hlk, map_some]
  · refine ⟨?_, ?_, tails_of_turn (ha ▸ he.tails), sources_of_turn ok htu he.sources⟩
    · exact Preorder.covers_expand (Hierarchy.ranked_children ok)
        (fun p hp => Hierarchy.children_eq_nil_of_isPlain ok (hpl p hp)) (ha ▸ he.covers)
    · rw [htu.steps_eq2, htu.nodes_eq2, append_assoc before]
      exact rel_append hrb (rel_append (Hierarchy.forall₂_renders_splicedSteps ok hne hle hrc) hra)

end Expansion

/-! ### Runs of the loop -/

/-- One turn of the loop that does not stop at the ceiling. -/
def Inlines (registry : Registry) (flat flat2 : Journey) : Prop :=
  ∃ index, (flat.steps.findIdx? fun step => step.kind.isCall) = some index ∧
    flat.steps.length ≤ maxComposedSteps ∧ inlineOne flat index registry = some flat2

/-- A document without call steps. -/
def NoCalls (flat : Journey) : Prop := ∀ step ∈ flat.steps, step.kind ≠ .subflowCall

variable {flat : Journey} {admitBuiltinOnly : Bool} {h : Hierarchy}

namespace Expansion

variable {admitBuiltinOnly : Bool} {h : Hierarchy} {flat : Journey} {visited agenda : List Path}

variable {doc : Journey}

/-- What holds at the start and is kept by every turn holds all along a run. -/
theorem run_induction (hd : JourneyOk true admitBuiltinOnly doc)
    {P : Journey → List Path → List Path → Prop} (hst : P (initialFlat doc) [] ((hierarchy doc).children []))
    (htu : ∀ {flat flat2 : Journey} {visited front rest : List Path} {c : Path} {level : Subflow}
      {before after : List Step} {call : Step},
      Expansion (hierarchy doc) flat visited (front ++ c :: rest) →
      Turn (hierarchy doc) flat flat2 front rest c level before after call →
      Expansion (hierarchy doc) flat2 (visited ++ front ++ [c]) ((hierarchy doc).children c ++ rest) →
      P flat visited (front ++ c :: rest) → P flat2 (visited ++ front ++ [c]) ((hierarchy doc).children c ++ rest))
    (hr : ReflTransGen (Inlines (fullRegistry doc)) (initialFlat doc) flat) :
    ∃ visited agenda, Expansion (hierarchy doc) flat visited agenda ∧ P flat visited agenda := by
  induction hr with
  | refl => exact ⟨_, _, initial hd, hst⟩
  | tail _ hs ih =>
    obtain ⟨visited, agenda, he, hp⟩ := ih
    obtain ⟨i, hf, -, ho⟩ := hs
    obtain ⟨f3, front, rest, c, level, before, after, call, ho3, rfl, ht, he2⟩ := he.turn (hierarchy_ok hd) hf
    cases ho.symm.trans ho3
    exact ⟨_, _, he2, htu he ht he2 hp⟩

/-- **The loop ends.** With fuel for what is not yet visited, it stops at a document without calls
or at one past the ceiling. -/
theorem inlineAll_spec (ok : h.Ok admitBuiltinOnly) :
    ∀ (f : ℕ) {flat : Journey} {visited agenda : List Path}, Expansion h flat visited agenda →
      h.documentOrder.length - visited.length < f →
      ∃ last, ReflTransGen (Inlines h.registry) flat last ∧
        ((inlineAll h.registry f flat = some (.ok last) ∧ NoCalls last ∧ last.steps.length ≤ maxComposedSteps) ∨
          (inlineAll h.registry f flat = some (.error [.composedTooLarge maxComposedSteps]) ∧
            maxComposedSteps < last.steps.length)) := by
  intro f
  induction f with
  | zero => intro flat visited agenda he hf; omega
  | succ f ih =>
    intro flat visited agenda he hf
    cases hfi : flat.steps.findIdx? fun step => step.kind.isCall with
    | none =>
      have hcl : NoCalls flat := by
        intro step hs hk
        have hn := List.findIdx?_eq_none_iff.mp hfi step hs
        simp [hk, StepKind.isCall] at hn
      by_cases hl : maxComposedSteps < flat.steps.length
      · exact ⟨flat, .refl, .inr ⟨by rw [inlineAll, hfi]; exact if_pos hl, hl⟩⟩
      · exact ⟨flat, .refl, .inl ⟨by rw [inlineAll, hfi]; exact if_neg hl, hcl, Nat.le_of_not_lt hl⟩⟩
    | some i =>
      by_cases hl : maxComposedSteps < flat.steps.length
      · exact ⟨flat, .refl, .inr ⟨by rw [inlineAll, hfi]; exact if_pos hl, hl⟩⟩
      · obtain ⟨flat2, front, rest, c, level, before, after, call, ho, ha, -, he2⟩ := he.turn ok hfi
        have hlt : visited.length < h.documentOrder.length := by
          rw [he.covers, ha, length_append, flatMap_append, flatMap_cons,
            Preorder.subtree_eq (Hierarchy.ranked_children ok) c]
          simp only [length_append, length_cons]
          omega
        obtain ⟨last, hr, hre⟩ := ih he2 (by
          simp only [length_append, length_singleton]
          omega)
        have hs : Inlines h.registry flat flat2 := ⟨i, hfi, Nat.le_of_not_lt hl, ho⟩
        have hal : inlineAll h.registry (f + 1) flat = inlineAll h.registry f flat2 := by
          rw [inlineAll, hfi]
          exact (if_neg hl).trans (by rw [ho, bind_some])
        exact ⟨last, .head hs hr, by rw [hal]; exact hre⟩

/-- A run that has no call left has the plain steps of the hierarchy, in document order. -/
theorem nodes_eq_of_noCalls (ok : h.Ok admitBuiltinOnly) (he : Expansion h flat visited agenda)
    (hcl : NoCalls flat) :
    h.nodes visited agenda = h.documentOrder.filter (fun p => !h.isCallAt p) ∧ h.documentOrder = visited ++ agenda := by
  have hpl : ∀ p ∈ h.nodes visited agenda, h.IsPlain p := by
    intro p hp
    obtain ⟨step, hs, hr⟩ := Loops.exists_of_forall₂_left he.steps hp
    exact hr.isPlain_iff.mpr (hcl step hs)
  have ho : h.documentOrder = visited ++ agenda := by
    rw [he.covers, Preorder.flatMap_subtree_of_leaves (Hierarchy.ranked_children ok) fun p hp =>
      Hierarchy.children_eq_nil_of_isPlain ok (hpl p (mem_append_right _ hp))]
  have hf := Hierarchy.filter_isCallAt fun p hp => hpl p (mem_append_right _ hp)
  exact ⟨by rw [ho, filter_append, hf]; rfl, ho⟩

end Expansion

/-! ### What composition answers -/

/-- The steps of the hierarchy that are not calls, in document order. -/
def Hierarchy.plainSteps (h : Hierarchy) : List Path := h.documentOrder.filter fun p => !h.isCallAt p

/-- The number of steps of the fully expanded journey. -/
def expandedStepCount (journey : Journey) : ℕ := (hierarchy journey).plainSteps.length

theorem Hierarchy.mem_plainSteps (ok : h.Ok admitBuiltinOnly) {p : Path} :
    p ∈ h.plainSteps ↔ h.IsPlain p := by
  rw [plainSteps, mem_filter, mem_documentOrder ok, Hierarchy.isPlain_iff, ← isCallAt_iff]
  simp

theorem Hierarchy.Enters.trans {p q r : Path} (hpq : h.Enters p q) (hqr : h.Enters q r) : h.Enters p r := by
  induction hqr with
  | refl => exact hpq
  | entry _ hl ih => exact .entry ih hl

/-- Entering a step always leads to a plain one, at or below it. -/
theorem Hierarchy.exists_descends (ok : h.Ok admitBuiltinOnly)
    {p : Path} (hp : h.Occurs p) : ∃ q ∈ Preorder.subtree h.children h.rank p, h.Descends p q := by
  have hr := ranked_children ok
  induction hn : h.rank p using Nat.strongRecOn generalizing p with
  | ind n ih =>
    by_cases hc : h.IsCall p
    · obtain ⟨s, cs, rfl⟩ := exists_cons_of_ne_nil (ne_nil_of_occurs hp)
      obtain ⟨level, hl⟩ := (isCall_cons_iff ok).mp hc
      obtain ⟨step, hs, hid⟩ := mem_stepIds.mp (levelOk_of_levelOf ok hl).graph.entry_mem
      have hch : level.entry :: s :: cs ∈ h.children (s :: cs) :=
        mem_children.mpr ⟨level, hl, step, hs, by rw [hid]⟩
      obtain ⟨q, hq, hen, hpl⟩ := ih _ (hn ▸ hr _ _ hch) ((cons_mem_children ok).mp hch) rfl
      refine ⟨q, ?_, .trans (.entry .refl hl) hen, hpl⟩
      rw [Preorder.subtree_eq hr]
      exact mem_cons_of_mem _ (mem_flatMap.mpr ⟨_, hch, hq⟩)
    · exact ⟨p, (Preorder.mem_subtree hr).mpr .refl, .refl, isPlain_iff.mpr ⟨hp, hc⟩⟩

/-- The document never has more steps than the full expansion. -/
theorem Expansion.length_steps_le {visited agenda : List Path}
    (ok : h.Ok admitBuiltinOnly) (he : Expansion h flat visited agenda) : flat.steps.length ≤ h.plainSteps.length := by
  have ha : ∀ ps : List Path, (∀ p ∈ ps, h.Occurs p) →
      ps.length ≤ ((ps.flatMap (Preorder.subtree h.children h.rank)).filter fun p => !h.isCallAt p).length := by
    intro ps hps
    induction ps with
    | nil => simp
    | cons p ps ih =>
      obtain ⟨q, hq, -, hpl⟩ := Hierarchy.exists_descends ok (hps p (mem_cons_self ..))
      have hf : q ∈ (Preorder.subtree h.children h.rank p).filter fun p => !h.isCallAt p :=
        mem_filter.mpr ⟨hq, by rw [Hierarchy.isCallAt_of_isPlain hpl]; rfl⟩
      have hpo := length_pos_of_mem hf
      have hr := ih fun p hp => hps p (mem_cons_of_mem _ hp)
      rw [flatMap_cons, filter_append, length_append, length_cons]
      omega
  have hl := he.steps.length_eq
  have hle := ha agenda fun p hp => he.occurs_of_mem_nodes (mem_append_right _ hp)
  rw [← hl, Hierarchy.nodes, Hierarchy.plainSteps, he.covers, filter_append, length_append,
    length_append]
  omega

/-- What composition makes of a well-formed journey: a run of the loop to a document without calls,
or one past the ceiling. -/
theorem composeFlat_spec {doc : Journey} (hd : JourneyOk true admitBuiltinOnly doc) :
    ∃ last, ReflTransGen (Inlines (fullRegistry doc)) (initialFlat doc) last ∧
      ((composeFlat doc = some (.ok last) ∧ NoCalls last) ∨
        (composeFlat doc = some (.error [.composedTooLarge maxComposedSteps]) ∧
          maxComposedSteps < expandedStepCount doc)) := by
  obtain ⟨last, hr, hre⟩ := Expansion.inlineAll_spec (hierarchy_ok hd)
    ((hierarchy doc).documentOrder.length + 1) (Expansion.initial hd) (by simp)
  refine ⟨last, hr, ?_⟩
  rcases hre with ⟨hf, hcl, -⟩ | ⟨hf, hl⟩
  · exact .inl ⟨hf, hcl⟩
  · obtain ⟨visited, agenda, he, -⟩ :=
      Expansion.run_induction hd (P := fun _ _ _ => True) trivial (fun _ _ _ _ => trivial) hr
    exact .inr ⟨hf, hl.trans_le (he.length_steps_le (hierarchy_ok hd))⟩

/-- A journey is composed exactly when it validates, its expansion stays within the ceiling, and
the result validates. -/
theorem composeInner_eq_ok {j : Journey} :
    composeInner j admitBuiltinOnly = some (.ok flat) ↔
      validateErrors j true admitBuiltinOnly = [] ∧ composeFlat j = some (.ok flat) ∧
        validateErrors flat false admitBuiltinOnly = [] := by
  unfold composeInner
  cases hv : validateInner j true admitBuiltinOnly with
  | error e =>
    have hne : validateErrors j true admitBuiltinOnly ≠ [] := fun hn => by
      rw [validateInner_eq_ok.mpr hn] at hv
      cases hv
    simp [hne]
  | ok _ =>
    rw [and_iff_right (validateInner_eq_ok.mp hv)]
    cases hf : composeFlat j with
    | none => simp
    | some r =>
      cases r with
      | error e => simp
      | ok flat2 =>
        cases hfi : validateInner flat2 false admitBuiltinOnly with
        | error e =>
          have hne : validateErrors flat2 false admitBuiltinOnly ≠ [] := fun hn => by
            rw [validateInner_eq_ok.mpr hn] at hfi
            cases hfi
          simp only [hfi, Option.some.injEq, reduceCtorEq, Except.ok.injEq, false_iff, not_and]
          rintro rfl
          exact hne
        | ok _ =>
          simp only [hfi, Option.some.injEq, Except.ok.injEq]
          refine ⟨fun heq => ⟨heq, heq ▸ validateInner_eq_ok.mp hfi⟩, fun heq => heq.1⟩

/-- **Composition always answers**: the loop does not run out of fuel, and no `expect` fails. -/
theorem composeInner_isSome (j : Journey) (admitBuiltinOnly : Bool) :
    ∃ result, composeInner j admitBuiltinOnly = some result := by
  unfold composeInner
  cases hv : validateInner j true admitBuiltinOnly with
  | error e => exact ⟨_, rfl⟩
  | ok _ =>
    have hd := (validateErrors_eq_nil.mp (validateInner_eq_ok.mp hv)).1
    obtain ⟨last, -, ⟨hf, -⟩ | ⟨hf, -⟩⟩ := composeFlat_spec hd
    · rw [hf]
      dsimp only
      split
      · exact ⟨_, rfl⟩
      · exact ⟨_, rfl⟩
    · rw [hf]
      exact ⟨_, rfl⟩

/-- **The cycle check is exact, and inlining ends.** Where no inline definition shadows a built-in one,
a cycle is reported exactly when the registry of the composition has one; and the loop of a journey
that validates answers after finitely many turns, with a key that resolves at each. -/
theorem cycleCheck_exact_and_inlining_ends (doc : Journey) :
    ((∀ definition ∈ inlineDefinitions doc, definition.id ∉ builtinSubflows.map Prod.fst) →
      (detectSubflowCycles (inlineDefinitions doc) builtinSubflows (allKeys doc) ≠ [] ↔
        ∃ key, TransGen (fullRegistry doc).Calls key key)) ∧
    ∀ admitBuiltinOnly, validateInner doc true admitBuiltinOnly = .ok () →
      ∃ fuel result, inlineAll (fullRegistry doc) fuel (initialFlat doc) = some result := by
  refine ⟨detectSubflowCycles_ne_nil_iff, fun admitBuiltinOnly hva => ?_⟩
  have hdoc := (validateErrors_eq_nil.mp (validateInner_eq_ok.mp hva)).1
  obtain ⟨last, -, ⟨hfl, -⟩ | ⟨hfl, -⟩⟩ := composeFlat_spec hdoc
  · exact ⟨_, _, hfl⟩
  · exact ⟨_, _, hfl⟩

/-- A journey with a subflow of the given name, which calls the built-in step-up. -/
def callingJourney (name : SubflowId) : Journey where
  id := "calling"
  entry := "password"
  steps :=
    [{ id := "password", kind := .identifierPassword },
     { id := "call", kind := .subflowCall, subflow := some "again" },
     { id := "done", kind := .terminal }]
  transitions := [{ «from» := "password", «to» := "call" }, { «from» := "call", «to» := "done" }]
  subflows := some [⟨"again", .inline name⟩]
  subflowDefinitions := some
    [{ id := name
       entry := "nested"
       exits := ["nested"]
       steps := [{ id := "nested", kind := .subflowCall, subflow := some builtinMfaStepUp }]
       transitions := [] }]

theorem callingJourney_inlined :
    (∀ definition ∈ inlineDefinitions (callingJourney "outer"), definition.id ∉ builtinSubflows.map Prod.fst) ∧
      ¬ (∃ key, TransGen (fullRegistry (callingJourney "outer")).Calls key key) ∧
      validateInner (callingJourney "outer") true false = .ok () ∧
      ∃ fuel result, inlineAll (fullRegistry (callingJourney "outer")) fuel (initialFlat (callingJourney "outer")) = some result := by
  obtain ⟨hxa, hen⟩ := cycleCheck_exact_and_inlining_ends (callingJourney "outer")
  have hfr : ∀ definition ∈ inlineDefinitions (callingJourney "outer"), definition.id ∉ builtinSubflows.map Prod.fst := by
    decide
  have hva : validateInner (callingJourney "outer") true false = .ok () := rfl
  refine ⟨hfr, fun hcy => (hxa hfr).mpr hcy ?_, hva, hen false hva⟩
  decide

/-- A subflow that takes the name of the built-in step-up calls itself, and the check sees the built-in. -/
theorem shadowedStepUp_unreported :
    detectSubflowCycles (inlineDefinitions (callingJourney builtinMfaStepUp)) builtinSubflows
        (allKeys (callingJourney builtinMfaStepUp)) = [] ∧
      TransGen (fullRegistry (callingJourney builtinMfaStepUp)).Calls builtinMfaStepUp builtinMfaStepUp :=
  ⟨by decide, .single ⟨_, rfl, _, mem_singleton_self _, rfl, rfl⟩⟩

/-- **The ceiling is exact, and the expansion is what remains.** Composition of a journey that validates stops at the
ceiling exactly when the fully expanded journey has more steps than that; the document that it gives otherwise has the
plain steps of the hierarchy, in document order, each as it was but for its name and its comment. -/
theorem composeFlat_expands {doc : Journey} {admitBuiltinOnly : Bool} (h : validateInner doc true admitBuiltinOnly = .ok ()) :
    (maxComposedSteps < expandedStepCount doc ∧ composeFlat doc = some (.error [.composedTooLarge maxComposedSteps])) ∨
      (expandedStepCount doc ≤ maxComposedSteps ∧ ∃ flat, composeFlat doc = some (.ok flat) ∧
        Forall₂ (hierarchy doc).Renders (hierarchy doc).plainSteps flat.steps) := by
  have hd := (validateErrors_eq_nil.mp (validateInner_eq_ok.mp h)).1
  have ok := hierarchy_ok hd
  obtain ⟨last, hr, hre⟩ := Expansion.inlineAll_spec ok ((hierarchy doc).documentOrder.length + 1) (Expansion.initial hd)
    (by simp)
  obtain ⟨visited, agenda, he, -⟩ :=
    Expansion.run_induction hd (P := fun _ _ _ => True) trivial (fun _ _ _ _ => trivial) hr
  rcases hre with ⟨hf, hcl, hle⟩ | ⟨hf, hlt⟩
  · have hs : Forall₂ (hierarchy doc).Renders (hierarchy doc).plainSteps last.steps := by
      rw [Hierarchy.plainSteps, ← (he.nodes_eq_of_noCalls ok hcl).1]
      exact he.steps
    refine .inr ⟨?_, last, hf, hs⟩
    rw [expandedStepCount, hs.length_eq]
    exact hle
  · exact .inl ⟨hlt.trans_le (he.length_steps_le ok), hf⟩

theorem callingJourney_expands :
    ∃ flat, composeFlat (callingJourney "outer") = some (.ok flat) ∧
      Forall₂ (hierarchy (callingJourney "outer")).Renders (hierarchy (callingJourney "outer")).plainSteps flat.steps := by
  have hva : validateInner (callingJourney "outer") true false = .ok () := rfl
  obtain ⟨-, he⟩ | ⟨-, hfl⟩ := composeFlat_expands hva
  · cases he
  · exact hfl

end IronAuth.Journeys
