import IronAuth.Journeys.Routing

/-!
# Names that collide, and edges that are lost

Ids are joined strings, and nothing stops two call paths from joining to the same
string. When the later of two paths gets the name of an earlier plain step, the
document has two steps of one id. When it gets the name of a call that is already
gone, an edge that still carries that name finds a step again: this is the only
way a self loop of a call does not dangle.
-/

namespace IronAuth.Journeys

open Relation List
open Lib

namespace Hierarchy

variable (h : Hierarchy)

/-- `q` comes after `p` in document order. -/
def Later (p q : Path) : Prop := [p, q].Sublist h.documentOrder

/-- No plain step shares its name with a path after it. -/
def Distinct : Prop := ∀ p q, h.Later p q → h.IsPlain p → pathName p ≠ pathName q

/-- There is a call at the path, with a transition to itself. -/
def SelfLoop (c : Path) : Prop :=
  h.IsCall c ∧ ∃ level t, h.levelOf c.tail = some level ∧ t ∈ level.transitions ∧
    t.from :: c.tail = c ∧ t.to :: c.tail = c

/-- A self loop whose name no later path takes over. -/
def Strands (c : Path) : Prop := h.SelfLoop c ∧ ∀ q, h.Later c q → pathName q ≠ pathName c

/-- Every path that is a node of the document or is still to become one. -/
def ahead (visited agenda : List Path) : List Path :=
  (visited.filter fun p => !h.isCallAt p) ++ agenda.flatMap (Preorder.subtree h.children h.rank)

variable {h}

theorem later_iff {before after : List Path} {p q : Path} (hnd : h.documentOrder.Nodup)
    (hs : h.documentOrder = before ++ p :: after) : h.Later p q ↔ q ∈ after := by
  rw [Later, hs]
  constructor
  · intro hsu
    rw [hs, nodup_middle, nodup_cons, mem_append, not_or] at hnd
    obtain ⟨l1, l2, heq, hl1, hl2⟩ := sublist_append_iff.mp hsu
    cases l1 with
    | nil =>
      subst heq
      rcases sublist_cons_iff.mp hl2 with hl2 | ⟨r, hr, hl2⟩
      · exact absurd (hl2.subset (mem_cons_self ..)) hnd.1.2
      · obtain rfl : [q] = r := (List.cons.inj hr).2
        exact singleton_sublist.mp hl2
    | cons p2 l1 =>
      obtain rfl : p = p2 := (List.cons.inj heq).1
      exact absurd (hl1.subset (mem_cons_self ..)) hnd.1.1
  · intro hq
    exact ((singleton_sublist.mpr hq).cons_cons p).trans (sublist_append_right ..)

theorem distinct_iff_pairwise :
    h.Distinct ↔ h.documentOrder.Pairwise fun p q => h.IsPlain p → pathName p ≠ pathName q := by
  rw [pairwise_iff_forall_sublist]
  exact ⟨fun hd p q hpq => hd p q hpq, fun hd p q hpq => hd hpq⟩

end Hierarchy

namespace Expansion

variable {admitBuiltinOnly : Bool} {h : Hierarchy} {flat : Journey} {visited agenda : List Path}

/-! ### Repeated ids -/

/-- Names tell the paths of the agenda apart. -/
theorem pairwise_agenda (ok : h.Ok admitBuiltinOnly) (he : Expansion h flat visited agenda) :
    agenda.Pairwise fun p q => pathName p ≠ pathName q := by
  have hnd : (visited ++ agenda.flatMap (Preorder.subtree h.children h.rank)).Nodup :=
    he.covers ▸ Hierarchy.nodup_documentOrder ok
  have hsu : agenda.Sublist (agenda.flatMap (Preorder.subtree h.children h.rank)) := by
    clear he hnd
    induction agenda with
    | nil => exact .refl _
    | cons p agenda ih =>
      rw [flatMap_cons, Preorder.subtree_eq (Hierarchy.ranked_children ok), cons_append]
      exact (ih.trans (sublist_append_right ..)).cons_cons p
  have hd : agenda.Nodup := (nodup_append'.mp hnd).2.1.sublist hsu
  refine (he.tails.and hd).imp_of_mem ?_
  rintro p q hp hq ⟨hta, hne⟩ heq
  obtain ⟨step, hs⟩ := he.occurs_of_mem_nodes (mem_append_right _ hq)
  obtain ⟨s, u, rfl⟩ := exists_cons_of_ne_nil (Hierarchy.ne_nil_of_occurs ⟨step, hs⟩)
  obtain ⟨level, hl, hm, rfl⟩ := (Hierarchy.stepAt_cons ok).mp hs
  -- `q` is directly below a level that `p` lies in
  have hpn := Hierarchy.ne_nil_of_occurs (he.occurs_of_mem_nodes (mem_append_right _ hp))
  obtain ⟨b, p, rfl⟩ := exists_cons_of_ne_nil hpn
  obtain ⟨w, hw⟩ := hta
  subst hw
  have hsi := pathName_eq_sibling (w := b :: w) ((Hierarchy.levelOk_of_levelOf ok hl).reserved step hm)
    (by simp) heq
  apply hne
  obtain ⟨rfl, rfl⟩ := hsi
  rfl

/-- Where no plain step shares its name with a later path, no document repeats an id. -/
theorem nodup_of_distinct (ok : h.Ok admitBuiltinOnly) (he : Expansion h flat visited agenda) (hd : h.Distinct) :
    (stepIds flat.steps).Nodup := by
  have hpa := Hierarchy.distinct_iff_pairwise.mp hd
  rw [he.covers, pairwise_append] at hpa
  obtain ⟨hv, -, hcr⟩ := hpa
  have hpl : ∀ p ∈ visited.filter (fun p => !h.isCallAt p), p ∈ visited ∧ h.IsPlain p := by
    intro p hp
    obtain ⟨hm, hc⟩ := mem_filter.mp hp
    refine ⟨hm, Hierarchy.isPlain_iff.mpr ⟨he.occurs_of_mem_nodes (mem_append_left _ hp), ?_⟩⟩
    rw [Bool.not_eq_true', ← Bool.not_eq_true, Hierarchy.isCallAt_iff] at hc
    exact hc
  rw [he.stepIds_eq, List.Nodup, pairwise_map, Hierarchy.nodes, pairwise_append]
  refine ⟨?_, he.pairwise_agenda ok, fun p hp q hq => ?_⟩
  · refine (hv.sublist filter_sublist).imp_of_mem ?_
    intro p q hp _ hpq
    exact hpq (hpl p hp).2
  · refine hcr p (hpl p hp).1 q (mem_flatMap.mpr ⟨q, hq, ?_⟩) (hpl p hp).2
    exact (Preorder.mem_subtree (Hierarchy.ranked_children ok)).mpr .refl

/-- What is visited next is named apart from what was visited before, when no id is repeated. -/
theorem pairwise_visit (he : Expansion h flat visited agenda) (hnd : (stepIds flat.steps).Nodup) {next : List Path}
    (hn : next.Sublist agenda) (hv : visited.Pairwise fun p q => h.IsPlain p → pathName p ≠ pathName q) :
    (visited ++ next).Pairwise fun p q => h.IsPlain p → pathName p ≠ pathName q := by
  rw [he.stepIds_eq, List.Nodup, pairwise_map, Hierarchy.nodes, pairwise_append] at hnd
  obtain ⟨-, ha, hc⟩ := hnd
  refine pairwise_append.mpr ⟨hv, ?_, ?_⟩
  · exact (ha.sublist hn).imp fun {p q} hpq (_ : h.IsPlain p) => hpq
  intro p hp q hq hpl
  refine hc p (mem_filter.mpr ⟨hp, ?_⟩) q (hn.subset hq)
  rw [Bool.not_eq_true', ← Bool.not_eq_true, Hierarchy.isCallAt_iff]
  exact (Hierarchy.isPlain_iff.mp hpl).2

end Expansion

variable {admitBuiltinOnly : Bool} {doc flat : Journey}

/-- A run that ends in a document that is not broken keeps the names apart. -/
theorem distinct_of_run (hd : JourneyOk true admitBuiltinOnly doc)
    (hr : ReflTransGen (Inlines (fullRegistry doc)) (initialFlat doc) flat) (hcl : NoCalls flat)
    (hok : ¬ Broken flat) : (hierarchy doc).Distinct := by
  have ok := hierarchy_ok hd
  obtain ⟨visited, agenda, he, hp⟩ := Expansion.run_induction hd
    (P := fun flat visited _ => ¬ Broken flat →
      visited.Pairwise fun p q => (hierarchy doc).IsPlain p → pathName p ≠ pathName q)
    (fun _ => List.Pairwise.nil)
    (by
      intro flat flat2 visited front rest c level before after call he ht _ ih hok
      have hok1 := fun hb => hok (Broken.turn ok he ht hb)
      rw [append_assoc]
      refine he.pairwise_visit (by_contra fun hnd => hok1 (.inl hnd)) ?_ (ih hok1)
      exact (List.Sublist.refl front).append ((nil_sublist rest).cons_cons c)) hr
  rw [Hierarchy.distinct_iff_pairwise, (he.nodes_eq_of_noCalls ok hcl).2]
  exact he.pairwise_visit (by_contra fun hnd => hok (.inl hnd)) (List.Sublist.refl _) (hp hok)

/-! ### Lost edges -/

/-- A transition whose target is no step of the document and will not become one. -/
def Stranded (h : Hierarchy) (flat : Journey) (visited agenda : List Path) : Prop :=
  ∃ t ∈ flat.transitions, ∀ q ∈ h.ahead visited agenda, pathName q ≠ t.to

section Turn

variable {admitBuiltinOnly : Bool} {h : Hierarchy} {flat flat2 : Journey} {visited front rest : List Path} {c : Path}
  {level : Subflow} {before after : List Step} {call : Step} (ok : h.Ok admitBuiltinOnly)
  (he : Expansion h flat visited (front ++ c :: rest))
  (ht : Turn h flat flat2 front rest c level before after call)

include ok ht

variable {q : Path}

/-- A turn takes the call off what is ahead. -/
theorem mem_ahead_turn :
    q ∈ h.ahead visited (front ++ c :: rest) ↔
      q = c ∨ q ∈ h.ahead (visited ++ front ++ [c]) (h.children c ++ rest) := by
  have hr := Hierarchy.ranked_children ok
  have hl : front.flatMap (Preorder.subtree h.children h.rank) = front :=
    Preorder.flatMap_subtree_of_leaves hr fun p hp =>
      Hierarchy.children_eq_nil_of_isPlain ok (ht.front_plain p hp)
  have hpl : (front.filter fun p => !h.isCallAt p) = front := by
    refine filter_eq_self.mpr fun p hp => ?_
    rw [Bool.not_eq_true', ← Bool.not_eq_true, Hierarchy.isCallAt_iff]
    exact (Hierarchy.isPlain_iff.mp (ht.front_plain p hp)).2
  have hc : ([c].filter fun p => !h.isCallAt p) = [] := by
    simp [Hierarchy.isCallAt_iff.mpr ht.isCall]
  rw [Hierarchy.ahead, Hierarchy.ahead, flatMap_append, flatMap_cons, flatMap_append, hl,
    Preorder.subtree_eq hr c, filter_append, filter_append, hpl, hc]
  simp only [mem_append, mem_cons, not_mem_nil, or_false]
  tauto

theorem child_mem_ahead {s : StepId} (hs : s ∈ stepIds level.steps) :
    s :: c ∈ h.ahead (visited ++ front ++ [c]) (h.children c ++ rest) := by
  obtain ⟨step, hst, rfl⟩ := mem_stepIds.mp hs
  have hc : step.id :: c ∈ h.children c := Hierarchy.mem_children.mpr ⟨level, ht.level_eq, step, hst, rfl⟩
  refine mem_append_right _ (mem_flatMap.mpr ⟨step.id :: c, mem_append_left _ hc, ?_⟩)
  exact (Preorder.mem_subtree (Hierarchy.ranked_children ok)).mpr .refl

/-- A transition that keeps its target is kept, or grafted onto an exit. -/
theorem exists_kept_target {t : Transition} (hm : t ∈ flat.transitions) (hor : t.from = call.id ∨ t.to ≠ call.id) :
    ∃ t2 ∈ flat2.transitions, t2.to = t.to := by
  by_cases hf : t.from = call.id
  · obtain ⟨s, u, rfl⟩ := exists_cons_of_ne_nil ht.path_ne
    obtain ⟨key, hlk⟩ := Hierarchy.exists_lookup_of_levelOf_cons ht.level_eq
    obtain ⟨e, hx⟩ := exists_mem_of_ne_nil _ (ok.callee_exits hlk)
    refine ⟨{ t with «from» := namespaced call.id e }, ?_, rfl⟩
    rw [ht.transitions_eq2, mem_splicedTransitions]
    exact .inr (.inr ⟨e, hx, t, hm, hf, rfl⟩)
  · refine ⟨redirect call.id (namespaced call.id level.entry) t, ?_, ?_⟩
    · rw [ht.transitions_eq2, mem_splicedTransitions]
      exact .inl ⟨t, hm, hf, rfl⟩
    · rw [redirect_to, if_neg (hor.resolve_left hf)]

include he

theorem later_call_iff :
    h.Later c q ↔ q ∈ (h.children c ++ rest).flatMap (Preorder.subtree h.children h.rank) := by
  have hr := Hierarchy.ranked_children ok
  have hc := Preorder.covers_expand hr
    (fun p hp => Hierarchy.children_eq_nil_of_isPlain ok (ht.front_plain p hp)) he.covers
  rw [Preorder.Covers, append_assoc (visited ++ front), singleton_append] at hc
  exact Hierarchy.later_iff (Hierarchy.nodup_documentOrder ok) hc

variable (hnd : (stepIds flat.steps).Nodup) (hsim : Simulates h flat (h.nodes visited (front ++ c :: rest)))

include hnd hsim

/-- The flat document has a transition from the call to itself exactly when the hierarchy does. -/
theorem exists_selfLoop_iff : (∃ t ∈ flat.transitions, t.from = call.id ∧ t.to = call.id) ↔ h.SelfLoop c := by
  have hc := mem_nodes_call h visited front rest c
  have hca : call.id = pathName c := ht.renders.id_eq
  have hed := hsim.outgoing c hc
  obtain ⟨s, u, rfl⟩ := exists_cons_of_ne_nil ht.path_ne
  obtain ⟨step, hs, -⟩ := ht.isCall
  obtain ⟨o, hu, -⟩ := (Hierarchy.stepAt_cons ok).mp hs
  constructor
  · rintro ⟨t, hm, hf, hto⟩
    have hfl : (⟨t.to, t.guard⟩ : GuardedEdge StepId) ∈ flatEdges flat (pathName (s :: u)) :=
      mem_map.mpr ⟨t, mem_filter.mpr ⟨hm, by simp [hf, hca]⟩, rfl⟩
    obtain ⟨d, hd, -, hl⟩ := Loops.exists_of_forall₂_left hed hfl
    have hto : t.to = pathName (s :: u) := hto.trans hca
    -- only an edge to the call itself carries its name
    have hse : d.to = s :: u := by
      rcases hl.2 with ⟨hab, hn | ⟨q, hq, hn, hno⟩⟩ | ⟨hno, q, hq, hen, hn⟩
      · have hlt := length_pathName_lt hl.1 hab.1 hab.2
        rw [← hn, hto] at hlt
        exact absurd hlt (lt_irrefl _)
      · obtain rfl := he.eq_of_pathName_eq hnd hc hq (hto.symm.trans hn)
        exact absurd hab.1 hno
      · obtain rfl := he.eq_of_pathName_eq hnd hc hq (hto.symm.trans hn)
        by_contra hne
        exact hno ⟨hen.suffix, hne⟩
    rw [Hierarchy.graft, hu] at hd
    rcases mem_append.mp hd with hd | hd
    · obtain ⟨t2, ht2, rfl⟩ := mem_map.mp hd
      obtain ⟨hm2, hf2⟩ := mem_filter.mp ht2
      exact ⟨ht.isCall, o, t2, hu, hm2, by rw [beq_iff_eq.mp hf2, tail_cons], hse⟩
    · obtain ⟨ex, -, hd⟩ := mem_flatMap.mp hd
      have hle := Hierarchy.length_to_le_of_mem_effectiveEdges (Hierarchy.mem_graft.mp hd)
      rw [hse, length_cons] at hle
      omega
  · rintro ⟨-, l2, t, hl2, hm, hf, hto⟩
    rw [tail_cons, List.cons.injEq] at hf hto
    rw [tail_cons, hu, Option.some.injEq] at hl2
    subst hl2
    have ho : (⟨s :: u, t.guard⟩ : GuardedEdge Path) ∈ h.graft (s :: u) := by
      rw [Hierarchy.graft, hu]
      refine mem_append_left _ (mem_map.mpr ⟨t, mem_filter.mpr ⟨hm, by simp [hf.1]⟩, ?_⟩)
      rw [hto.1]
    obtain ⟨e, hfl, -, hl⟩ := Loops.exists_of_forall₂_right hed ho
    obtain ⟨t2, ht2, rfl⟩ := mem_map.mp hfl
    obtain ⟨hm2, hf2⟩ := mem_filter.mp ht2
    refine ⟨t2, hm2, by rw [hca]; exact beq_iff_eq.mp hf2, ?_⟩
    rcases hl.2 with ⟨hab, -⟩ | ⟨-, q, hq, hen, hn⟩
    · exact absurd rfl hab.2
    · rw [hca]
      obtain rfl := he.eq_of_suffix ok hc hq hen.suffix
      exact hn

omit ok hsim in
/-- After a turn no node has the name of the call. -/
theorem pathName_ne_call (hq : q ∈ h.nodes (visited ++ front ++ [c]) (h.children c ++ rest)) :
    pathName q ≠ pathName c := by
  intro heq
  rcases (ht.mem_nodes2 (he.nodup_nodes hnd)).mp hq with ⟨hq1, hne⟩ | hc
  · exact hne (he.eq_of_pathName_eq hnd hq1 (mem_nodes_call ..) heq)
  · obtain ⟨-, -, step, -, rfl⟩ := Hierarchy.mem_children.mp hc
    have hlt := length_pathName_lt ht.path_ne (suffix_cons step.id c) (by simp)
    rw [heq] at hlt
    exact lt_irrefl _ hlt

/-- **What a turn strands**: what was stranded before, and the self loop of the call. -/
theorem stranded_turn :
    Stranded h flat2 (visited ++ front ++ [c]) (h.children c ++ rest) ↔
      Stranded h flat visited (front ++ c :: rest) ∨ h.Strands c := by
  have hc : call.id = pathName c := ht.renders.id_eq
  have hle := Hierarchy.levelOk_of_levelOf ok ht.level_eq
  have ha : ∀ {q : Path}, q ∈ h.ahead visited (front ++ c :: rest) ↔
      q = c ∨ q ∈ h.ahead (visited ++ front ++ [c]) (h.children c ++ rest) := mem_ahead_turn ok ht
  constructor
  · rintro ⟨t, hm, hal⟩
    rw [ht.transitions_eq2, mem_splicedTransitions] at hm
    -- a target other than the call is stranded already
    have hold : ∀ t2 ∈ flat.transitions, t2.to = t.to → t2.to ≠ call.id →
        Stranded h flat visited (front ++ c :: rest) := by
      intro t2 ht2 hto hne
      refine ⟨t2, ht2, fun q hq => ?_⟩
      rcases ha.mp hq with rfl | hq
      · exact fun heq => hne (heq.symm.trans hc.symm)
      · exact hto ▸ hal q hq
    rcases hm with ⟨t2, ht2, -, rfl⟩ | ⟨t2, ht2, rfl⟩ | ⟨e, -, t2, ht2, hf, rfl⟩
    · by_cases hto : t2.to = call.id
      · refine absurd ?_ (hal _ (child_mem_ahead ok ht hle.graph.entry_mem))
        rw [redirect_to, if_pos hto, ht.pathName_child]
      · exact .inl (hold t2 ht2 (by rw [redirect_to, if_neg hto]) hto)
    · exact absurd (ht.pathName_child _) (hal _ (child_mem_ahead ok ht (hle.graph.endpoints t2 ht2).2))
    · by_cases hto : t2.to = call.id
      · refine .inr ⟨(exists_selfLoop_iff ok he ht hnd hsim).mp ⟨t2, ht2, hf, hto⟩, fun q hq => ?_⟩
        rw [← hc, ← hto]
        exact hal q (mem_append_right _ ((later_call_iff ok he ht).mp hq))
      · exact .inl (hold t2 ht2 rfl hto)
  · rintro (⟨t, hm, hal⟩ | ⟨hl, hla⟩)
    · have hne : t.to ≠ call.id := by
        rw [hc]
        exact (hal c (ha.mpr (.inl rfl))).symm
      obtain ⟨t2, ht2, hto⟩ := exists_kept_target ok ht hm (.inr hne)
      exact ⟨t2, ht2, fun q hq => hto ▸ hal q (ha.mpr (.inr hq))⟩
    · obtain ⟨t, hm, hf, hs⟩ := (exists_selfLoop_iff ok he ht hnd hsim).mpr hl
      obtain ⟨t2, ht2, hto⟩ := exists_kept_target ok ht hm (.inl hf)
      refine ⟨t2, ht2, fun q hq => ?_⟩
      rw [hto, hs, hc]
      rcases mem_append.mp hq with hq | hq
      · exact pathName_ne_call he ht hnd (mem_append_left _ hq)
      · exact hla q ((later_call_iff ok he ht).mpr hq)

end Turn

/-- Where names are kept apart, a run strands exactly the self loops it has passed whose name no
later path takes over. -/
theorem stranded_iff_of_run (hdo : JourneyOk true admitBuiltinOnly doc)
    (hd : (hierarchy doc).Distinct)
    (hr : ReflTransGen (Inlines (fullRegistry doc)) (initialFlat doc) flat) :
    ∃ visited agenda, Expansion (hierarchy doc) flat visited agenda ∧
      Simulates (hierarchy doc) flat ((hierarchy doc).nodes visited agenda) ∧
      (Stranded (hierarchy doc) flat visited agenda ↔ ∃ c ∈ visited, (hierarchy doc).Strands c) := by
  have ok := hierarchy_ok hdo
  refine Expansion.run_induction hdo (P := fun flat visited agenda =>
    Simulates (hierarchy doc) flat ((hierarchy doc).nodes visited agenda) ∧
      (Stranded (hierarchy doc) flat visited agenda ↔ ∃ c ∈ visited, (hierarchy doc).Strands c))
    ⟨simulates_initial hdo, ?_⟩ ?_ hr
  · constructor
    · rintro ⟨t, hm, ha⟩
      obtain ⟨step, hst, hid⟩ := mem_stepIds.mp (ok.root.graph.endpoints t hm).2
      have hch : [t.to] ∈ (hierarchy doc).children [] :=
        Hierarchy.mem_children.mpr ⟨_, rfl, step, hst, by rw [hid]⟩
      refine absurd rfl (ha [t.to] (mem_flatMap.mpr ⟨_, hch, ?_⟩))
      exact (Preorder.mem_subtree (Hierarchy.ranked_children ok)).mpr .refl
    · rintro ⟨c, hc, -⟩
      cases hc
  · intro flat flat2 visited front rest c level before after call he ht he2 ⟨hsim, hstr⟩
    have hnd := he.nodup_of_distinct ok hd
    refine ⟨hsim.turn ok he ht hnd (he2.nodup_of_distinct ok hd), ?_⟩
    rw [stranded_turn ok he ht hnd hsim, hstr]
    constructor
    · rintro (⟨p, hp, hs⟩ | hs)
      · exact ⟨p, by simp [hp], hs⟩
      · exact ⟨c, by simp, hs⟩
    · rintro ⟨p, hp, hs⟩
      rw [append_assoc, mem_append, mem_append, mem_singleton] at hp
      rcases hp with hp | hp | rfl
      · exact .inl ⟨p, hp, hs⟩
      · exact absurd hs.1.1 (Hierarchy.isPlain_iff.mp (ht.front_plain p hp)).2
      · exact .inr hs

/-- **The last document of a run**, where names are kept apart: it simulates the hierarchy, and it has
a dangling transition exactly when some self loop is stranded. -/
theorem composed_of_distinct (hdo : JourneyOk true admitBuiltinOnly doc)
    (hd : (hierarchy doc).Distinct)
    (hru : ReflTransGen (Inlines (fullRegistry doc)) (initialFlat doc) flat) (hcl : NoCalls flat) :
    List.Forall₂ (hierarchy doc).Renders (hierarchy doc).plainSteps flat.steps ∧ (stepIds flat.steps).Nodup ∧
      Simulates (hierarchy doc) flat (hierarchy doc).plainSteps ∧
      (∀ t ∈ flat.transitions, t.from ∈ stepIds flat.steps) ∧
      ((∀ t ∈ flat.transitions, t.to ∈ stepIds flat.steps) ↔ ∀ c, ¬ (hierarchy doc).Strands c) := by
  have ok := hierarchy_ok hdo
  obtain ⟨visited, agenda, he, hsim, hstr⟩ := stranded_iff_of_run hdo hd hru
  obtain ⟨hns, ho⟩ := he.nodes_eq_of_noCalls ok hcl
  have hpl : ∀ p ∈ agenda, (hierarchy doc).IsPlain p := by
    intro p hp
    obtain ⟨step, hst, hr⟩ := Loops.exists_of_forall₂_left he.steps (mem_append_right _ hp)
    exact hr.isPlain_iff.mpr (hcl step hst)
  have ha : (hierarchy doc).ahead visited agenda = (hierarchy doc).nodes visited agenda := by
    rw [Hierarchy.ahead, Preorder.flatMap_subtree_of_leaves (Hierarchy.ranked_children ok) fun p hp =>
      Hierarchy.children_eq_nil_of_isPlain ok (hpl p hp), Hierarchy.nodes]
  have hda : Stranded (hierarchy doc) flat visited agenda ↔
      ¬ ∀ t ∈ flat.transitions, t.to ∈ stepIds flat.steps := by
    rw [Stranded, ha, he.stepIds_eq]
    simp [not_exists]
  have hv : (∃ c ∈ visited, (hierarchy doc).Strands c) ↔ ∃ c, (hierarchy doc).Strands c := by
    constructor
    · rintro ⟨c, -, hs⟩
      exact ⟨c, hs⟩
    · rintro ⟨c, hs⟩
      refine ⟨c, ?_, hs⟩
      obtain ⟨step, hst, -⟩ := hs.1.1
      have hm : c ∈ visited ++ agenda := ho ▸ (Hierarchy.mem_documentOrder ok).mpr ⟨step, hst⟩
      rcases mem_append.mp hm with hc | hc
      · exact hc
      · exact absurd hs.1.1 (Hierarchy.isPlain_iff.mp (hpl c hc)).2
  have hpla : (hierarchy doc).nodes visited agenda = (hierarchy doc).plainSteps := hns
  refine ⟨hpla ▸ he.steps, he.nodup_of_distinct ok hd, hpla ▸ hsim, he.sources, ?_⟩
  rw [← not_iff_not, ← hda, hstr, hv]
  push Not
  exact Iff.rfl

end IronAuth.Journeys
