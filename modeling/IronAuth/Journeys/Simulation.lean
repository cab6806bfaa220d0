import IronAuth.Journeys.Expansion

/-!
# The flat document simulates the hierarchy

What the transitions of the flat document say about the hierarchy, all along the
inlining loop. Names are joined strings, so two paths may share one, and then the
splice takes the one for the other; `Broken` says that this has left a trace that
no later turn removes and that the validator refuses. In a document that is not
broken each step has the edges the hierarchy gives it, in the same order, and each
edge leads to where the hierarchy leads, with one exception: an edge from a call
to itself, which the splice grafts onto the exits without redirecting it. Such an
edge is lost: it never leads back into the call.
-/

namespace IronAuth.Journeys

open Relation List
open Lib

/-- Two steps share an id, or a step that should go on has no transition. -/
def Broken (flat : Journey) : Prop :=
  ¬ (stepIds flat.steps).Nodup ∨
    ∃ step ∈ flat.steps, step.kind ≠ .terminal ∧ ∀ t ∈ flat.transitions, t.from ≠ step.id

variable {admitBuiltinOnly : Bool} {flat doc : Journey} {h : Hierarchy}

/-- The validator refuses a broken document. -/
theorem not_broken_of_journeyOk {rej : Bool}
    (hok : JourneyOk rej admitBuiltinOnly flat) : ¬ Broken flat := by
  rintro (hd | ⟨step, hs, hk, hst⟩)
  · exact hd hok.graph.nodup
  · rcases hok.graph.onward step hs with hter | ⟨t, ht, hf⟩
    · exact hk ((mem_terminalIds_iff hok.graph.nodup hs).mp hter)
    · exact hst t ht hf

theorem namespaced_ne (callId id : StepId) : namespaced callId id ≠ callId := by
  intro heq
  have hl := congrArg (fun s => s.toList.length) heq
  simp only [namespaced_toList, length_append] at hl
  have hs : namespaceSeparator.toList.length = 2 := rfl
  omega

namespace Turn

variable {admitBuiltinOnly : Bool} {h : Hierarchy} {flat flat2 : Journey} {visited front rest : List Path} {c : Path}
  {level : Subflow} {before after : List Step} {call : Step}

variable (ht : Turn h flat flat2 front rest c level before after call)

include ht

theorem stepIds_eq :
    stepIds flat.steps = stepIds before ++ call.id :: stepIds after := by
  rw [ht.steps_eq]
  simp [stepIds]

theorem stepIds_eq2 :
    stepIds flat2.steps = stepIds before ++ (stepIds level.steps).map (namespaced call.id) ++ stepIds after := by
  rw [ht.steps_eq2, ← stepIds_splicedSteps]
  simp [stepIds]

/-- The steps other than the call are kept. -/
theorem mem_steps2 {s : Step}
    (hs : s ∈ before ++ after) : s ∈ flat2.steps := by
  rw [ht.steps_eq2, mem_append, mem_append]
  rcases mem_append.mp hs with hs | hs
  · exact .inl (.inl hs)
  · exact .inr hs

/-- Without a repeated id, a spliced step has a new one. -/
theorem namespaced_notMem
    (hnd : (stepIds flat2.steps).Nodup) {id : StepId} (hid : id ∈ stepIds level.steps) :
    namespaced call.id id ∉ stepIds flat.steps := by
  rw [ht.stepIds_eq2, append_assoc] at hnd
  obtain ⟨-, hr, hb⟩ := nodup_append'.mp hnd
  obtain ⟨-, -, ha⟩ := nodup_append'.mp hr
  have hm : namespaced call.id id ∈ (stepIds level.steps).map (namespaced call.id) := mem_map_of_mem hid
  rw [ht.stepIds_eq, mem_append, mem_cons]
  rintro (ho | ho | ho)
  · exact hb ho (mem_append_left _ hm)
  · exact namespaced_ne _ _ ho
  · exact ha hm ho

/-- A step directly below the call is named in its namespace. -/
theorem pathName_child (s : StepId) :
    pathName (s :: c) = namespaced call.id s := by
  rw [pathName_cons ht.path_ne, ht.renders.id_eq]

/-- No transition of the new document leaves the call. -/
theorem from_ne_call {t : Transition}
    (hm : t ∈ flat2.transitions) : t.from ≠ call.id := by
  rw [ht.transitions_eq2, mem_splicedTransitions] at hm
  rcases hm with ⟨t2, -, hf, rfl⟩ | ⟨t2, -, rfl⟩ | ⟨e, -, t2, -, -, rfl⟩
  · rw [redirect_from]
    exact hf
  · exact namespaced_ne _ _
  · exact namespaced_ne _ _

end Turn

/-- A terminal step lies in the root flow. -/
theorem Hierarchy.eq_singleton_of_terminal (ok : h.Ok admitBuiltinOnly)
    {p : Path} {st : Step} (hs : h.stepAt p = some st) (hk : st.kind = .terminal) : p = [st.id] := by
  cases p with
  | nil => cases hs
  | cons s cs =>
    obtain ⟨level, hl, hm, rfl⟩ := (stepAt_cons ok).mp hs
    cases cs with
    | nil => rfl
    | cons c cs =>
      obtain ⟨key, hlk⟩ := exists_lookup_of_levelOf_cons hl
      exact absurd hk (ok.callee_terminal hlk st hm)

/-- No terminal step has the name of a call. -/
theorem Hierarchy.pathName_ne_of_terminal (ok : h.Ok admitBuiltinOnly)
    {p c : Path} {s : Step} (hs : h.stepAt p = some s) (hk : s.kind = .terminal) (hc : h.IsCall c) :
    pathName p ≠ pathName c := by
  obtain rfl := eq_singleton_of_terminal ok hs hk
  obtain ⟨level, hl, hm, -⟩ := (stepAt_cons ok).mp hs
  have hr := (levelOk_of_levelOf ok hl).reserved s hm
  intro heq
  have hne := ne_nil_of_occurs hc.occurs
  -- both names are ids of the root flow, so the paths are the same
  have hsg : c = [s.id] := by
    have hn : pathName (c ++ []) = pathName [s.id] := by rw [append_nil, ← heq]
    exact pathName_eq_sibling hr hne hn
  subst hsg
  obtain ⟨call, hca, ha⟩ := hc
  rw [hs, Option.some.injEq] at hca
  rw [← hca, hk] at ha
  cases ha

namespace Turn

variable {admitBuiltinOnly : Bool} {h : Hierarchy} {flat flat2 : Journey} {visited agenda front rest : List Path}
  {c : Path} {level : Subflow} {before after : List Step} {call : Step}

variable {s : Step}

variable (ht : Turn h flat flat2 front rest c level before after call)

include ht

theorem mem_steps
    (hs : s ∈ before ++ after) : s ∈ flat.steps := by
  rw [ht.steps_eq, mem_append, mem_cons]
  rcases mem_append.mp hs with hs | hs
  · exact .inl hs
  · exact .inr (.inr hs)

/-- A call without transitions has none to graft, so its exits have none. -/
theorem stuck_of_call (ok : h.Ok admitBuiltinOnly)
    (he : Expansion h flat visited agenda) (hnd : (stepIds flat2.steps).Nodup)
    (hs : ∀ t ∈ flat.transitions, t.from ≠ call.id) :
    ∃ step ∈ flat2.steps, step.kind ≠ .terminal ∧ ∀ t ∈ flat2.transitions, t.from ≠ step.id := by
  obtain ⟨key, hlk⟩ : ∃ key, h.registry.lookup key = some level := by
    obtain ⟨s, cs, rfl⟩ := exists_cons_of_ne_nil ht.path_ne
    exact Hierarchy.exists_lookup_of_levelOf_cons ht.level_eq
  obtain ⟨e, exits, hx⟩ := exists_cons_of_ne_nil (ok.callee_exits hlk)
  have hexit : e ∈ level.exits := by rw [hx]; exact mem_cons_self ..
  have hle := Hierarchy.levelOk_of_levelOf ok ht.level_eq
  have hid := hle.exits_mem e hexit
  have hi : namespaced call.id e ∈ stepIds (splicedSteps call level) := by
    rw [stepIds_splicedSteps]
    exact mem_map_of_mem hid
  obtain ⟨sp, hsp, hp⟩ := mem_stepIds.mp hi
  refine ⟨sp, ?_, ?_, ?_⟩
  · rw [ht.steps_eq2, mem_append, mem_append]
    exact .inl (.inr hsp)
  · obtain ⟨source, hsr, rfl⟩ := mem_map.mp hsp
    have hte := ok.callee_terminal hlk source hsr
    dsimp only
    split <;> exact hte
  · intro t hm hf
    rw [hp] at hf
    rw [ht.transitions_eq2, mem_splicedTransitions] at hm
    rcases hm with ⟨t2, ht2, -, rfl⟩ | ⟨t2, ht2, rfl⟩ | ⟨e2, -, t2, ht2, hc, -⟩
    · rw [redirect_from] at hf
      exact ht.namespaced_notMem hnd hid (hf ▸ he.sources t2 ht2)
    · have hl := hle.leaf t2 ht2
      rw [namespaced_inj hf] at hl
      exact hl (mem_append_left _ hexit)
    · exact hs t2 ht2 hc

/-- Another step without transitions gets none. -/
theorem stuck_of_kept (ok : h.Ok admitBuiltinOnly)
    (hnd : (stepIds flat2.steps).Nodup) (hs : s ∈ before ++ after)
    (hst : ∀ t ∈ flat.transitions, t.from ≠ s.id) : ∀ t ∈ flat2.transitions, t.from ≠ s.id := by
  intro t hm hf
  have hold : s.id ∈ stepIds flat.steps := mem_map_of_mem (ht.mem_steps hs)
  have hl := Hierarchy.levelOk_of_levelOf ok ht.level_eq
  rw [ht.transitions_eq2, mem_splicedTransitions] at hm
  rcases hm with ⟨t2, ht2, -, rfl⟩ | ⟨t2, ht2, rfl⟩ | ⟨e, hx, t2, -, -, rfl⟩
  · rw [redirect_from] at hf
    exact hst t2 ht2 hf
  · have hn : namespaced call.id t2.from = s.id := hf
    exact ht.namespaced_notMem hnd (hl.graph.endpoints t2 ht2).1 (hn ▸ hold)
  · have hn : namespaced call.id e = s.id := hf
    exact ht.namespaced_notMem hnd (hl.exits_mem e hx) (hn ▸ hold)

end Turn

/-- **A broken document stays broken.** -/
theorem Broken.turn {flat2 : Journey} {visited agenda front rest : List Path}
    {c : Path} {level : Subflow} {before after : List Step} {call : Step} (ok : h.Ok admitBuiltinOnly)
    (he : Expansion h flat visited agenda) (ht : Turn h flat flat2 front rest c level before after call)
    (hb : Broken flat) : Broken flat2 := by
  by_cases hnd : (stepIds flat2.steps).Nodup
  swap
  · exact .inl hnd
  right
  rcases hb with hd | ⟨step, hs, hk, hst⟩
  · -- the repeated id is that of the call, since the others are kept
    by_cases hc : call.id ∈ stepIds (before ++ after)
    · obtain ⟨step, hs, hid⟩ := mem_stepIds.mp hc
      refine ⟨step, ht.mem_steps2 hs, fun hk => ?_, fun t hm => hid ▸ ht.from_ne_call hm⟩
      obtain ⟨p, -, source, comment, hsr, rfl⟩ := Loops.exists_of_forall₂_right he.steps (ht.mem_steps hs)
      exact Hierarchy.pathName_ne_of_terminal ok hsr hk ht.isCall (hid.trans ht.renders.id_eq)
    · refine absurd ?_ hd
      rw [ht.stepIds_eq2] at hnd
      rw [ht.stepIds_eq, nodup_middle, nodup_cons]
      have ha : stepIds (before ++ after) = stepIds before ++ stepIds after := by simp [stepIds]
      rw [ha] at hc
      refine ⟨hc, hnd.sublist ?_⟩
      exact List.Sublist.append (sublist_append_left ..) (List.Sublist.refl _)
  · rw [ht.steps_eq, mem_append, mem_cons] at hs
    rcases or_left_comm.mp hs with rfl | hs
    · exact ht.stuck_of_call ok he hnd hst
    · have hs : step ∈ before ++ after := mem_append.mpr hs
      exact ⟨step, ht.mem_steps2 hs, hk, ht.stuck_of_kept ok hnd hs hst⟩

/-! ### The edges of a step -/

/-- The edges that leave a step of a flat document, in document order. -/
def flatEdges (flat : Journey) (id : StepId) : List (GuardedEdge StepId) :=
  (flat.transitions.filter fun t => t.from == id).map fun t => ⟨t.to, t.guard⟩

namespace Hierarchy

variable (h : Hierarchy)

/-- The edges that the splice gives a path: its own, then those of its caller, once for each time
it is listed as an exit. -/
def graft : Path → List (GuardedEdge Path)
  | [] => []
  | s :: cs =>
    match h.levelOf cs with
    | none => []
    | some level => ownEdges level s cs ++ (level.exits.filter fun exit => exit == s).flatMap fun _ => graft cs

/-- `d` lies strictly above `p`. -/
def Above (d p : Path) : Prop := d <:+ p ∧ d ≠ p

/-- An edge that was meant to enter `d` and is lost: it still carries the name of the call, or it
leads to a node outside the call. -/
def Lost (nodes : List Path) (d : Path) (target : StepId) : Prop :=
  target = pathName d ∨ ∃ q ∈ nodes, target = pathName q ∧ ¬ d <:+ q

/-- Where an edge from `p` that the hierarchy leads to `d` leads in the flat document: into `d`,
unless it leads from inside a call back to that call, when it is lost. -/
def Leads (nodes : List Path) (p d : Path) (target : StepId) : Prop :=
  d ≠ [] ∧ ((Above d p ∧ Lost nodes d target) ∨ (¬ Above d p ∧ ∃ q ∈ nodes, h.Enters d q ∧ target = pathName q))

variable {h}

theorem Enters.suffix {p q : Path} (hen : h.Enters p q) : p <:+ q := by
  induction hen with
  | refl => exact suffix_refl p
  | entry _ _ ih => exact ih.trans (suffix_cons ..)

end Hierarchy

/-- The flat document simulates the hierarchy at `nodes`. -/
structure Simulates (h : Hierarchy) (flat : Journey) (nodes : List Path) : Prop where
  outgoing : ∀ p ∈ nodes, List.Forall₂ (fun e d => e.guard = d.guard ∧ h.Leads nodes p d.to e.to)
    (flatEdges flat (pathName p)) (h.graft p)
  entry : ∃ q ∈ nodes, h.Enters [h.root.entry] q ∧ flat.entry = pathName q

namespace Turn

variable {admitBuiltinOnly : Bool} {h : Hierarchy} {flat flat2 : Journey} {visited front rest : List Path} {c : Path}
  {level : Subflow} {before after : List Step} {call : Step}

/-- The edges of a step the splice does not touch: those into the call now enter the fragment. -/
theorem flatEdges_of_ne (ht : Turn h flat flat2 front rest c level before after call) (ok : h.Ok admitBuiltinOnly)
    {id : StepId} (hne : id ≠ call.id) (hn : ∀ s ∈ stepIds level.steps, namespaced call.id s ≠ id) :
    flatEdges flat2 id = (flatEdges flat id).map fun e =>
      ⟨if e.to = call.id then namespaced call.id level.entry else e.to, e.guard⟩ := by
  have hl := Hierarchy.levelOk_of_levelOf ok ht.level_eq
  have hi : ((level.transitions.map (namespacedTransition call.id)).filter fun t => t.from == id) = [] := by
    refine filter_eq_nil_iff.mpr fun t hm => ?_
    obtain ⟨t2, ht2, rfl⟩ := mem_map.mp hm
    simpa [namespacedTransition] using hn _ (hl.graph.endpoints t2 ht2).1
  have hgr : (((level.exits.map (namespaced call.id)).flatMap fun ex =>
      (flat.transitions.filter fun t => t.from == call.id).map fun t => { t with «from» := ex }).filter
        fun t => t.from == id) = [] := by
    refine filter_eq_nil_iff.mpr fun t hm => ?_
    obtain ⟨ei, hexi, hm⟩ := mem_flatMap.mp hm
    obtain ⟨ex, hx, rfl⟩ := mem_map.mp hexi
    obtain ⟨t2, -, rfl⟩ := mem_map.mp hm
    simpa using hn ex (hl.exits_mem ex hx)
  rw [flatEdges, ht.transitions_eq2, splicedTransitions, filter_append, filter_append, hi, hgr,
    append_nil, append_nil, filter_map, filter_filter, List.map_map, flatEdges, List.map_map]
  have hf : (flat.transitions.filter fun t => ((fun t => t.from == id) ∘
      redirect call.id (namespaced call.id level.entry)) t && (t.from != call.id))
      = flat.transitions.filter fun t => t.from == id := by
    refine filter_congr fun t _ => ?_
    by_cases hid : t.from = id
    · simp [hid, hne]
    · simp [hid]
  rw [hf]
  refine map_congr_left fun t _ => ?_
  simp [redirect_to]

/-- The edges of a spliced step: those of the fragment, then those that left the call, once for
each time the step is an exit. -/
theorem flatEdges_namespaced (ht : Turn h flat flat2 front rest c level before after call) {s : StepId}
    (ho : ∀ t ∈ flat.transitions, t.from ≠ namespaced call.id s) :
    flatEdges flat2 (namespaced call.id s) =
      ((level.transitions.filter fun t => t.from == s).map fun t => ⟨namespaced call.id t.to, t.guard⟩) ++
        (level.exits.filter fun e => e == s).flatMap fun _ => flatEdges flat call.id := by
  have hr : ((((flat.transitions.filter fun t => t.from != call.id).map
      (redirect call.id (namespaced call.id level.entry)))).filter fun t => t.from == namespaced call.id s) = [] := by
    refine filter_eq_nil_iff.mpr fun t hm => ?_
    obtain ⟨t2, ht2, rfl⟩ := mem_map.mp hm
    simpa using ho t2 (mem_filter.mp ht2).1
  have hi : ∀ s2 : StepId, (namespaced call.id s2 == namespaced call.id s) = (s2 == s) := by
    intro s2
    by_cases heq : s2 = s
    · simp [heq]
    · have hne : namespaced call.id s2 ≠ namespaced call.id s := fun hns => heq (namespaced_inj hns)
      simp [heq, hne]
  have hgr : ∀ exits : List StepId, ((((exits.map (namespaced call.id)).flatMap fun e =>
      (flat.transitions.filter fun t => t.from == call.id).map fun t => { t with «from» := e }).filter
        fun t => t.from == namespaced call.id s).map fun t => (⟨t.to, t.guard⟩ : GuardedEdge StepId)) =
      (exits.filter fun e => e == s).flatMap fun _ => flatEdges flat call.id := by
    intro exits
    induction exits with
    | nil => rfl
    | cons e exits ih =>
      rw [map_cons, flatMap_cons, filter_append, map_append, ih, filter_cons]
      by_cases heq : e = s
      · subst heq
        simp [flatEdges, filter_map, Function.comp_def]
      · have hne : namespaced call.id e ≠ namespaced call.id s := fun hns => heq (namespaced_inj hns)
        simp [heq, hne, filter_map, Function.comp_def]
  rw [flatEdges, ht.transitions_eq2, splicedTransitions, filter_append, filter_append, hr,
    nil_append, map_append, hgr, filter_map, List.map_map]
  have hf : (level.transitions.filter ((fun t => t.from == namespaced call.id s) ∘ namespacedTransition call.id))
      = level.transitions.filter fun t => t.from == s := by
    refine filter_congr fun t _ => ?_
    simp [namespacedTransition, hi]
  rw [hf]
  rfl

theorem nodes_eq (h : Hierarchy) (visited front rest : List Path) (c : Path) :
    h.nodes visited (front ++ c :: rest) = ((visited.filter fun p => !h.isCallAt p) ++ front) ++ c :: rest := by
  rw [Hierarchy.nodes, append_assoc]

/-- The nodes after a turn: the others, and the steps directly below the call. -/
theorem mem_nodes2 (ht : Turn h flat flat2 front rest c level before after call)
    (hnd : (h.nodes visited (front ++ c :: rest)).Nodup) {q : Path} :
    q ∈ h.nodes (visited ++ front ++ [c]) (h.children c ++ rest) ↔
      (q ∈ h.nodes visited (front ++ c :: rest) ∧ q ≠ c) ∨ q ∈ h.children c := by
  rw [nodes_eq, nodup_middle, nodup_cons] at hnd
  rw [ht.nodes_eq2, nodes_eq]
  simp only [mem_append, mem_cons]
  constructor
  · rintro ((hq | hq) | hq | hq)
    · exact .inl ⟨.inl (.inl hq), fun heq => hnd.1 (heq ▸ by simp [mem_append, hq])⟩
    · exact .inl ⟨.inl (.inr hq), fun heq => hnd.1 (heq ▸ by simp [mem_append, hq])⟩
    · exact .inr hq
    · exact .inl ⟨.inr (.inr hq), fun heq => hnd.1 (heq ▸ by simp [mem_append, hq])⟩
  · rintro (⟨(hq | hq) | hq | hq, hne⟩ | hq)
    · exact .inl (.inl hq)
    · exact .inl (.inr hq)
    · exact absurd hq hne
    · exact .inr (.inr hq)
    · exact .inr (.inl hq)

end Turn

/-! ### The simulation is carried through -/

namespace Expansion

variable {admitBuiltinOnly : Bool} {h : Hierarchy} {flat : Journey} {visited agenda : List Path}

theorem nodup_nodes (he : Expansion h flat visited agenda) (hnd : (stepIds flat.steps).Nodup) :
    (h.nodes visited agenda).Nodup := by
  rw [he.stepIds_eq] at hnd
  exact hnd.of_map

/-- Without a repeated id, names tell the nodes apart. -/
theorem eq_of_pathName_eq (he : Expansion h flat visited agenda) (hnd : (stepIds flat.steps).Nodup) {p q : Path}
    (hp : p ∈ h.nodes visited agenda) (hq : q ∈ h.nodes visited agenda) (heq : pathName p = pathName q) : p = q := by
  rw [he.stepIds_eq] at hnd
  exact inj_on_of_nodup_map hnd hp hq heq

end Expansion

theorem mem_nodes_call (h : Hierarchy) (visited front rest : List Path) (c : Path) :
    c ∈ h.nodes visited (front ++ c :: rest) := by
  simp [Hierarchy.nodes]

section Carry

variable {admitBuiltinOnly : Bool} {h : Hierarchy} {flat flat2 : Journey} {visited front rest : List Path} {c : Path}
  {level : Subflow} {before after : List Step} {call : Step} (ok : h.Ok admitBuiltinOnly)
  (he : Expansion h flat visited (front ++ c :: rest))
  (ht : Turn h flat flat2 front rest c level before after call) (hnd : (stepIds flat.steps).Nodup)

include ok he ht hnd

/-- The entry of the fragment is a node after the turn. -/
theorem entry_mem_nodes2 : level.entry :: c ∈ h.nodes (visited ++ front ++ [c]) (h.children c ++ rest) := by
  obtain ⟨step, hs, hid⟩ := mem_stepIds.mp (Hierarchy.levelOk_of_levelOf ok ht.level_eq).graph.entry_mem
  exact (ht.mem_nodes2 (he.nodup_nodes hnd)).mpr
    (.inr (Hierarchy.mem_children.mpr ⟨level, ht.level_eq, step, hs, by rw [hid]⟩))

/-- An edge of a step the splice does not touch leads where it should, once it is redirected. -/
theorem leads_redirect {p d : Path} {tgt : StepId} (hp : p ∈ h.nodes visited (front ++ c :: rest)) (hpc : p ≠ c)
    (hle : h.Leads (h.nodes visited (front ++ c :: rest)) p d tgt) :
    h.Leads (h.nodes (visited ++ front ++ [c]) (h.children c ++ rest)) p d
      (if tgt = call.id then namespaced call.id level.entry else tgt) := by
  have hm2 := fun {q : Path} => ht.mem_nodes2 (q := q) (he.nodup_nodes hnd)
  have hent := entry_mem_nodes2 ok he ht hnd
  have hc := mem_nodes_call h visited front rest c
  have hca : call.id = pathName c := ht.renders.id_eq
  have hn : namespaced call.id level.entry = pathName (level.entry :: c) := by
    rw [pathName_cons ht.path_ne, hca]
  -- nothing between `p` and the call
  have ha : ¬ c <:+ p := fun hs => hpc (he.eq_of_suffix ok hc hp hs).symm
  obtain ⟨hdn, ⟨hab, hl⟩ | ⟨hno, q, hq, hen, rfl⟩⟩ := hle
  · refine ⟨hdn, .inl ⟨hab, ?_⟩⟩
    have ho : ¬ d <:+ c → ¬ d <:+ level.entry :: c := by
      intro hdc hd
      rcases suffix_cons_iff.mp hd with rfl | hd
      · exact ha ((suffix_cons ..).trans hab.1)
      · exact hdc hd
    rcases hl with rfl | ⟨q, hq, rfl, hdq⟩
    · by_cases heq : pathName d = call.id
      · rw [if_pos heq, hn]
        refine .inr ⟨_, hent, rfl, ho fun hdc => ?_⟩
        by_cases hd : d = c
        · exact ha (hd ▸ hab.1)
        · have hlt := length_pathName_lt hdn hdc hd
          rw [heq, hca] at hlt
          omega
      · rw [if_neg heq]
        exact .inl rfl
    · by_cases hqc : q = c
      · subst hqc
        rw [if_pos hca.symm, hn]
        exact .inr ⟨_, hent, rfl, ho hdq⟩
      · have hne : pathName q ≠ call.id := by
          rw [hca]
          exact fun heq => hqc (he.eq_of_pathName_eq hnd hq hc heq)
        rw [if_neg hne]
        exact .inr ⟨q, hm2.mpr (.inl ⟨hq, hqc⟩), rfl, hdq⟩
  · refine ⟨hdn, .inr ⟨hno, ?_⟩⟩
    by_cases hqc : q = c
    · subst hqc
      rw [if_pos hca.symm, hn]
      exact ⟨_, hent, .entry hen ht.level_eq, rfl⟩
    · have hne : pathName q ≠ call.id := by
        rw [hca]
        exact fun heq => hqc (he.eq_of_pathName_eq hnd hq hc heq)
      rw [if_neg hne]
      exact ⟨q, hm2.mpr (.inl ⟨hq, hqc⟩), hen, rfl⟩

/-- A grafted edge keeps its target: where the call led to, its exits lead to, except back to the
call itself. -/
theorem leads_graft {s : StepId} {d : Path} {target : StepId}
    (hle : h.Leads (h.nodes visited (front ++ c :: rest)) c d target) :
    h.Leads (h.nodes (visited ++ front ++ [c]) (h.children c ++ rest)) (s :: c) d target := by
  have hm2 := fun {q : Path} => ht.mem_nodes2 (q := q) (he.nodup_nodes hnd)
  have hc := mem_nodes_call h visited front rest c
  have hlo : ∀ {d : Path}, d <:+ c → Hierarchy.Above d (s :: c) := by
    intro d hd
    refine ⟨hd.trans (suffix_cons ..), ?_⟩
    rintro rfl
    have hlen := hd.length_le
    simp only [length_cons] at hlen
    omega
  obtain ⟨hdn, ⟨hab, hl⟩ | ⟨hn, q, hq, hen, rfl⟩⟩ := hle
  · refine ⟨hdn, .inl ⟨hlo hab.1, ?_⟩⟩
    rcases hl with rfl | ⟨q, hq, rfl, hdq⟩
    · exact .inl rfl
    · refine .inr ⟨q, hm2.mpr (.inl ⟨hq, ?_⟩), rfl, hdq⟩
      rintro rfl
      exact hdq hab.1
  · by_cases hdc : d = c
    · -- the edge led from the call to itself
      subst hdc
      obtain rfl := he.eq_of_suffix ok hc hq hen.suffix
      exact ⟨hdn, .inl ⟨hlo (suffix_refl _), .inl rfl⟩⟩
    · have ha : ¬ d <:+ c := fun hd => hn ⟨hd, hdc⟩
      refine ⟨hdn, .inr ⟨?_, q, hm2.mpr (.inl ⟨hq, ?_⟩), hen, rfl⟩⟩
      · rintro ⟨hd, hne⟩
        rcases suffix_cons_iff.mp hd with hd | hd
        · exact hne hd
        · exact ha hd
      · rintro rfl
        exact ha hen.suffix

variable (hnd2 : (stepIds flat2.steps).Nodup)

include hnd2

variable (hsi : Simulates h flat (h.nodes visited (front ++ c :: rest)))

include hsi

/-- The edges of a step the turn keeps. -/
theorem outgoing_of_ne
    {p : Path} (hp : p ∈ h.nodes visited (front ++ c :: rest)) (hpc : p ≠ c) :
    List.Forall₂ (fun e d => e.guard = d.guard ∧
        h.Leads (h.nodes (visited ++ front ++ [c]) (h.children c ++ rest)) p d.to e.to)
      (flatEdges flat2 (pathName p)) (h.graft p) := by
  have hne : pathName p ≠ call.id := by
    rw [ht.renders.id_eq]
    exact fun heq => hpc (he.eq_of_pathName_eq hnd hp (mem_nodes_call h visited front rest c) heq)
  have hold : pathName p ∈ stepIds flat.steps := by
    rw [he.stepIds_eq]
    exact mem_map_of_mem hp
  have hn : ∀ s ∈ stepIds level.steps, namespaced call.id s ≠ pathName p := by
    intro s hs heq
    exact ht.namespaced_notMem hnd2 hs (heq ▸ hold)
  rw [ht.flatEdges_of_ne ok hne hn, forall₂_map_left_iff]
  refine (hsi.outgoing p hp).imp ?_
  intro e d hed
  exact ⟨hed.1, leads_redirect ok he ht hnd hp hpc hed.2⟩

/-- The edges of a step that the turn brings in: its own, and the grafted ones of the call. -/
theorem outgoing_of_child
    {s : Step} (hs : s ∈ level.steps) :
    List.Forall₂ (fun e d => e.guard = d.guard ∧
        h.Leads (h.nodes (visited ++ front ++ [c]) (h.children c ++ rest)) (s.id :: c) d.to e.to)
      (flatEdges flat2 (pathName (s.id :: c))) (h.graft (s.id :: c)) := by
  have hl := Hierarchy.levelOk_of_levelOf ok ht.level_eq
  have hsr : ∀ t ∈ flat.transitions, t.from ≠ namespaced call.id s.id := by
    intro t hm heq
    exact ht.namespaced_notMem hnd2 (mem_map_of_mem hs) (heq ▸ he.sources t hm)
  have hgr : h.graft (s.id :: c) = Hierarchy.ownEdges level s.id c ++
      (level.exits.filter fun ex => ex == s.id).flatMap fun _ => h.graft c := by
    rw [Hierarchy.graft, ht.level_eq]
  rw [ht.pathName_child, ht.flatEdges_namespaced hsr, hgr]
  refine rel_append ?_ ?_
  · -- an edge of the fragment leads to the step directly below the call
    rw [Hierarchy.ownEdges, forall₂_map_left_iff, forall₂_map_right_iff, forall₂_same]
    intro t hm
    obtain ⟨s2, hs2, hid⟩ := mem_stepIds.mp (hl.graph.endpoints t (mem_filter.mp hm).1).2
    have hc : t.to :: c ∈ h.children c :=
      Hierarchy.mem_children.mpr ⟨level, ht.level_eq, s2, hs2, by rw [hid]⟩
    refine ⟨rfl, by simp, .inr ⟨?_, t.to :: c, (ht.mem_nodes2 (he.nodup_nodes hnd)).mpr (.inr hc), .refl,
      (ht.pathName_child _).symm⟩⟩
    rintro ⟨hsu, hne⟩
    exact hne (hsu.eq_of_length (by simp))
  · have hcl : List.Forall₂ (fun (e : GuardedEdge StepId) (d : GuardedEdge Path) => e.guard = d.guard ∧
        h.Leads (h.nodes (visited ++ front ++ [c]) (h.children c ++ rest)) (s.id :: c) d.to e.to)
        (flatEdges flat call.id) (h.graft c) := by
      rw [ht.renders.id_eq]
      refine (hsi.outgoing c (mem_nodes_call h visited front rest c)).imp ?_
      intro e d hed
      exact ⟨hed.1, leads_graft ok he ht hnd hed.2⟩
    induction level.exits.filter fun ex => ex == s.id with
    | nil => exact .nil
    | cons ex exits ih => exact rel_append hcl ih

/-- **The simulation is carried through a turn** that repeats no id. -/
theorem Simulates.turn
    :
    Simulates h flat2 (h.nodes (visited ++ front ++ [c]) (h.children c ++ rest)) := by
  have hm2 := fun {q : Path} => ht.mem_nodes2 (q := q) (he.nodup_nodes hnd)
  have hc : call.id = pathName c := ht.renders.id_eq
  refine ⟨fun p hp => ?_, ?_⟩
  · rcases hm2.mp hp with ⟨hp, hpc⟩ | hp
    · exact outgoing_of_ne ok he ht hnd hnd2 hsi hp hpc
    · obtain ⟨l2, hl2, step, hs, rfl⟩ := Hierarchy.mem_children.mp hp
      rw [ht.level_eq, Option.some.injEq] at hl2
      subst hl2
      exact outgoing_of_child ok he ht hnd hnd2 hsi hs
  · obtain ⟨q, hq, hen, hn⟩ := hsi.entry
    by_cases hqc : q = c
    · subst hqc
      refine ⟨level.entry :: q, entry_mem_nodes2 ok he ht hnd, .entry hen ht.level_eq, ?_⟩
      rw [ht.entry_eq2, if_pos (by rw [hn, hc]), ht.pathName_child]
    · refine ⟨q, hm2.mpr (.inl ⟨hq, hqc⟩), hen, ?_⟩
      rw [ht.entry_eq2, if_neg, hn]
      rw [hn, hc]
      exact fun heq => hqc (he.eq_of_pathName_eq hnd hq (mem_nodes_call h visited front rest c) heq)

end Carry

/-- At the start each step of the root flow has its own edges. -/
theorem simulates_initial (hd : JourneyOk true admitBuiltinOnly doc) :
    Simulates (hierarchy doc) (initialFlat doc) ((hierarchy doc).nodes [] ((hierarchy doc).children [])) := by
  have ok := hierarchy_ok hd
  have hc : ∀ s ∈ stepIds (rootFlow doc).steps, [s] ∈ (hierarchy doc).nodes [] ((hierarchy doc).children []) := by
    intro s hs
    obtain ⟨step, hst, rfl⟩ := mem_stepIds.mp hs
    exact mem_map.mpr ⟨step, hst, rfl⟩
  refine ⟨fun p hp => ?_, [(rootFlow doc).entry], hc _ ok.root.graph.entry_mem, .refl, rfl⟩
  obtain ⟨step, hst, rfl⟩ := mem_map.mp hp
  have hgr : (hierarchy doc).graft [step.id] = Hierarchy.ownEdges (rootFlow doc) step.id [] := by
    have hexi : (rootFlow doc).exits = [] := rfl
    have hr : (hierarchy doc).levelOf [] = some (rootFlow doc) := rfl
    rw [Hierarchy.graft, hr]
    simp [hexi]
  rw [hgr, flatEdges, Hierarchy.ownEdges, forall₂_map_left_iff, forall₂_map_right_iff]
  refine forall₂_same.mpr fun t hm => ⟨rfl, by simp, .inr ⟨?_, [t.to], ?_, .refl, rfl⟩⟩
  · rintro ⟨hsu, hne⟩
    exact hne (hsu.eq_of_length (by simp))
  · exact hc _ (ok.root.graph.endpoints t (mem_filter.mp hm).1).2

/-- **Every document of a run that is not broken simulates the hierarchy.** -/
theorem simulates_of_run (hd : JourneyOk true admitBuiltinOnly doc)
    (hr : ReflTransGen (Inlines (fullRegistry doc)) (initialFlat doc) flat) :
    ∃ visited agenda, Expansion (hierarchy doc) flat visited agenda ∧
      (¬ Broken flat → Simulates (hierarchy doc) flat ((hierarchy doc).nodes visited agenda)) := by
  have ok := hierarchy_ok hd
  refine Expansion.run_induction hd (P := fun flat visited agenda => ¬ Broken flat →
    Simulates (hierarchy doc) flat ((hierarchy doc).nodes visited agenda)) (fun _ => simulates_initial hd) ?_ hr
  intro flat flat2 visited front rest c level before after call he ht _ hs hok
  have hok1 := fun hb => hok (Broken.turn ok he ht hb)
  exact (hs hok1).turn ok he ht (by_contra fun hnd => hok1 (.inl hnd)) (by_contra fun hnd => hok (.inl hnd))

end IronAuth.Journeys
