import IronAuth.Journeys.Collisions

/-!
# The second validation

`compose` validates its own result. This file says exactly when that second
validation finds nothing in the result but steps without a subject.

Inlining keeps the graph connected, keeps every step that should go on going, and
keeps every guard; what it may break is the names (two steps of one id), the
targets of self loops (which dangle), and determinism (an exit that is listed twice
gets the edges of its caller twice).
-/

namespace IronAuth.Journeys

open Relation List Option
open Lib

/-- What a hierarchy needs for its flat form to validate. -/
structure Composable (h : Hierarchy) : Prop where
  names : h.Distinct
  loops : ∀ c, h.SelfLoop c → ∃ q, h.Later c q ∧ pathName q = pathName c
  exits : ∀ c level, h.IsCall c → h.levelOf c = some level → ¬ level.exits.Nodup →
    ∀ e ∈ h.effectiveEdges c, e.guard ≠ none

/-- The unguarded edges that leave `s`, by the sources of the unguarded transitions. -/
theorem countP_edges {α : Type} (f : StepId → α) (transitions : List Transition) (s : StepId) :
    ((transitions.filter fun t => t.from == s).map fun t => (⟨f t.to, t.guard⟩ : GuardedEdge α)).countP
      (fun e => e.guard.isNone) = (transitions.filterMap unguardedSource).count s := by
  induction transitions with
  | nil => rfl
  | cons t transitions ih =>
    by_cases hf : t.from = s
    all_goals
      cases hgd : t.guard with
      | none | some => simp [hf, hgd, unguardedSource, ih]

namespace Hierarchy

variable {admitBuiltinOnly : Bool} {h : Hierarchy}

/-! ### Reachability -/

variable (h) in
/-- An edge of the hierarchy between plain steps that composition does not lose. -/
def PlainEdge (p q : Path) : Prop := ∃ e ∈ h.effectiveEdges p, ¬ Above e.to p ∧ h.Descends e.to q

section Ok

variable (ok : h.Ok admitBuiltinOnly)

include ok

variable {p u : Path} {l : Subflow} {s : StepId}

/-- What has a step below it is a call. -/
theorem isCall_of_above {c : Path} (hc : c ≠ []) (hp : h.Occurs p) (hab : Above c p) : h.IsCall c := by
  induction p with
  | nil => exact absurd (suffix_nil.mp hab.1) hc
  | cons s cs ih =>
    obtain ⟨step, hs⟩ := hp
    obtain ⟨level, hl, -⟩ := (stepAt_cons ok).mp hs
    have hsu := (suffix_cons_iff.mp hab.1).resolve_left hab.2
    by_cases heq : c = cs
    · exact isCall_of_levelOf ok hc (heq ▸ hl)
    · have hcs : cs ≠ [] := by
        rintro rfl
        exact hc (suffix_nil.mp hsu)
      exact ih (isCall_of_levelOf ok hcs hl).occurs ⟨hsu, heq⟩

/-- Entering a call is entering the entry of its fragment. -/
theorem descends_entry_iff {c q : Path} (hc : c ≠ []) (hl : h.levelOf c = some l) :
    h.Descends (l.entry :: c) q ↔ h.Descends c q := by
  constructor
  · rintro ⟨hen, hpl⟩
    exact ⟨Enters.trans (.entry .refl hl) hen, hpl⟩
  · rintro ⟨hen, hpl⟩
    rcases hen.eq_or_head with rfl | ⟨l2, hl2, hh⟩
    · exact absurd (isCall_of_levelOf ok hc hl) (isPlain_iff.mp hpl).2
    · rw [hl, Option.some.injEq] at hl2
      exact ⟨hl2 ▸ hh, hpl⟩

theorem occurs_of_mem_stepIds (hl : h.levelOf u = some l)
    (hs : s ∈ stepIds l.steps) : h.Occurs (s :: u) := by
  obtain ⟨step, hst, rfl⟩ := mem_stepIds.mp hs
  exact ⟨step, (stepAt_cons ok).mpr ⟨l, hl, hst, rfl⟩⟩

/-- Along the transitions of a level, from one step of it to the next, if every call of it is passed. -/
theorem reaches_along (hl : h.levelOf u = some l) {q0 : Path}
    (hq0 : h.Descends (l.entry :: u) q0)
    (hi : ∀ {s : StepId} {q p : Path}, h.IsCall (s :: u) → h.Descends (s :: u) q → h.IsPlain p →
      Above (s :: u) p → ReflTransGen h.PlainEdge q p)
    (hr : ReflTransGen (DeclaredEdge l.transitions (stepIds l.steps)) l.entry s) {q : Path}
    (hq : h.Descends (s :: u) q) : ReflTransGen h.PlainEdge q0 q := by
  induction hr generalizing q with
  | refl => rw [hq0.unique ok hq]
  | @tail s1 s2 _ he ih =>
    obtain ⟨⟨t, hm, hf, hto⟩, hs1, -⟩ := he
    obtain ⟨q1, -, hq1⟩ := exists_descends ok (occurs_of_mem_stepIds ok hl hs1)
    have hr1 := ih hq1
    have ho : (⟨s2 :: u, t.guard⟩ : GuardedEdge Path) ∈ h.effectiveEdges (s1 :: u) := by
      rw [effectiveEdges, hl]
      exact mem_append_left _ (mem_map.mpr ⟨t, mem_filter.mpr ⟨hm, by simp [hf]⟩, by rw [hto]⟩)
    by_cases hc : h.IsCall (s1 :: u)
    · by_cases hs : s2 = s1
      · rw [hs] at hq
        exact hq.unique ok hq1 ▸ hr1
      · -- through the fragment to an exit, and on from there
        obtain ⟨p1, hp1, hab1, hed, -⟩ := exists_exit_below ok hc
        refine (hr1.trans (hi hc hq1 hp1 hab1)).tail ⟨_, hed ▸ ho, ?_, hq⟩
        rintro ⟨hsu, -⟩
        have heq := (suffix_of_suffix_length_le hsu hab1.1 (by simp)).eq_of_length (by simp)
        exact hs (List.cons.inj heq).1
    · have hpl1 := isPlain_iff.mpr ⟨occurs_of_mem_stepIds ok hl hs1, hc⟩
      obtain rfl := hq1.1.eq_of_isPlain ok hpl1
      refine hr1.tail ⟨_, ho, ?_, hq⟩
      rintro ⟨hsu, hne⟩
      exact hne (hsu.eq_of_length (by simp))

/-- **Everything below a path is reached from its entry.** -/
theorem reaches_below (hl : h.levelOf u = some l) {q0 : Path}
    (hq0 : h.Descends (l.entry :: u) q0) (hp : h.IsPlain p) (hab : Above u p) :
    ReflTransGen h.PlainEdge q0 p := by
  induction hn : h.rank u using Nat.strongRecOn generalizing u l q0 p with
  | ind n ih =>
    -- inside a call directly below, the induction hypothesis applies
    have hi : ∀ {s : StepId} {q p : Path}, h.IsCall (s :: u) → h.Descends (s :: u) q → h.IsPlain p →
        Above (s :: u) p → ReflTransGen h.PlainEdge q p := by
      intro s q p hc hq hp hab
      obtain ⟨callee, hca⟩ := (isCall_cons_iff ok).mp hc
      obtain ⟨step, hs, -⟩ := hc
      have hlt := ranked_children ok u (s :: u) ((cons_mem_children ok).mpr ⟨step, hs⟩)
      exact ih _ (hn ▸ hlt) hca ((descends_entry_iff ok (by simp) hca).mpr hq) hp hab rfl
    obtain ⟨s, hsu⟩ : ∃ s, s :: u <:+ p := by
      obtain ⟨w, hw⟩ := hab.1
      rcases eq_nil_or_concat w with rfl | ⟨w2, s, rfl⟩
      · exact absurd hw hab.2
      · exact ⟨s, w2, by rw [← hw]; simp⟩
    -- the path is a step of the level, or lies in a call of it
    have hc : s :: u ≠ p → h.IsCall (s :: u) := fun hps =>
      isCall_of_above ok (by simp) (isPlain_iff.mp hp).1 ⟨hsu, hps⟩
    obtain ⟨step, hs⟩ : h.Occurs (s :: u) := by
      by_cases hps : s :: u = p
      · exact hps ▸ (isPlain_iff.mp hp).1
      · exact (hc hps).occurs
    obtain ⟨l2, hl2, hm, rfl⟩ := (stepAt_cons ok).mp hs
    rw [hl, Option.some.injEq] at hl2
    subst hl2
    obtain ⟨q, -, hq⟩ := exists_descends ok ⟨step, hs⟩
    have hr := reaches_along ok hl hq0 hi ((levelOk_of_levelOf ok hl).graph.reachable step hm) hq
    by_cases hps : step.id :: u = p
    · subst hps
      exact (hq.1.eq_of_isPlain ok hp) ▸ hr
    · exact hr.trans (hi (hc hps) hq hp ⟨hsu, hps⟩)

/-! ### Edges that leave a step -/

omit ok in
/-- Every edge of the hierarchy is a transition of one of its flows. -/
theorem exists_transition_of_mem_effectiveEdges : ∀ {p : Path} {e : GuardedEdge Path}, e ∈ h.effectiveEdges p →
    ∃ cs level t, h.levelOf cs = some level ∧ t ∈ level.transitions ∧ e.guard = t.guard
  | [], e, he => by cases he
  | s :: cs, e, he => by
    unfold effectiveEdges at he
    cases hl : h.levelOf cs with
    | none =>
      rw [hl] at he
      cases he
    | some level =>
      rw [hl] at he
      rcases mem_append.mp he with he | he
      · obtain ⟨t, ht, rfl⟩ := mem_map.mp he
        exact ⟨cs, level, t, hl, (mem_filter.mp ht).1, rfl⟩
      · split at he
        · exact exists_transition_of_mem_effectiveEdges he
        · cases he

/-- A step that is not terminal has an edge to go on with. -/
theorem effectiveEdges_ne_nil : ∀ {p : Path} {st : Step}, h.stepAt p = some st → st.kind ≠ .terminal →
    h.effectiveEdges p ≠ []
  | [], st, hs, _ => by cases hs
  | s :: cs, st, hs, hk => by
    obtain ⟨level, hl, hm, rfl⟩ := (stepAt_cons ok).mp hs
    have hlev := levelOk_of_levelOf ok hl
    rcases hlev.graph.onward st hm with hle | ⟨t, ht, hf⟩
    · rcases mem_append.mp hle with he | hter
      · rw [effectiveEdges_of_exit ok hl he]
        obtain ⟨call, hc, hca⟩ := isCall_of_exit ok hl he
        exact effectiveEdges_ne_nil hc (by rw [hca]; decide)
      · exact absurd ((mem_terminalIds_iff hlev.graph.nodup hm).mp hter) hk
    · rw [effectiveEdges, hl]
      refine ne_nil_of_mem (mem_append_left _ (mem_map.mpr ⟨t, mem_filter.mpr ⟨ht, ?_⟩, rfl⟩))
      simp [hf]

/-- A terminal step has none. -/
theorem effectiveEdges_of_terminal {s : Step} (hs : h.stepAt p = some s)
    (hk : s.kind = .terminal) : h.effectiveEdges p = [] := by
  obtain rfl := eq_singleton_of_terminal ok hs hk
  obtain ⟨level, hl, hm, -⟩ := (stepAt_cons ok).mp hs
  obtain rfl : h.root = level := some.inj hl
  refine eq_nil_iff_forall_not_mem.mpr fun e he => ?_
  rw [effectiveEdges, hl] at he
  simp only [ok.root_exits, not_mem_nil, if_false, append_nil] at he
  obtain ⟨t, ht, -⟩ := mem_map.mp he
  obtain ⟨hm2, hf⟩ := mem_filter.mp ht
  refine ok.root.leaf t hm2 (mem_append_right _ ?_)
  rw [beq_iff_eq.mp hf]
  exact (mem_terminalIds_iff ok.root.graph.nodup hm).mpr hk

/-! ### Unguarded edges -/

omit ok in
variable (h) in
/-- How many unguarded edges the splice gives a path. -/
def unguarded (p : Path) : ℕ := (h.graft p).countP fun e => e.guard.isNone

/-- A step that is not an exit has at most one unguarded edge. -/
theorem unguarded_of_not_exit {cs : Path} (hl : h.levelOf cs = some l)
    (hs : s ∉ l.exits) : h.unguarded (s :: cs) ≤ 1 := by
  have hn : (l.exits.filter fun e => e == s) = [] := by
    refine filter_eq_nil_iff.mpr fun e he => ?_
    simp only [beq_iff_eq]
    exact fun heq => hs (heq ▸ he)
  have hgr : h.graft (s :: cs) = ownEdges l s cs := by
    rw [graft, hl]
    simp [hn]
  rw [unguarded, hgr, ownEdges, countP_edges fun tgt => tgt :: cs]
  exact nodup_iff_count_le_one.mp (levelOk_of_levelOf ok hl).graph.deterministic s

/-- An exit has those of its caller, once for each time it is listed. -/
theorem unguarded_of_exit {cs : Path} (hl : h.levelOf cs = some l)
    (hs : s ∈ l.exits) : h.unguarded (s :: cs) = l.exits.count s * h.unguarded cs := by
  have ho : ownEdges l s cs = [] := ownEdges_of_exit ok hl hs
  have hgr : h.graft (s :: cs) = (l.exits.filter fun ex => ex == s).flatMap fun _ => h.graft cs := by
    rw [graft, hl]
    simp [ho]
  have hc : ∀ exits : List StepId, (exits.flatMap fun _ => h.graft cs).countP (fun e => e.guard.isNone) =
      exits.length * h.unguarded cs := by
    intro exits
    induction exits with
    | nil => simp
    | cons ex exits ih =>
      rw [flatMap_cons, countP_append, ih, length_cons, Nat.succ_mul, Nat.add_comm]
      rfl
  rw [unguarded, hgr, hc, List.count, countP_eq_length_filter]

/-- **The splice keeps determinism unless an exit is listed twice** and its caller has an unguarded
edge. -/
theorem unguarded_le_one_iff :
    (∀ p, h.IsPlain p → h.unguarded p ≤ 1) ↔
      ∀ c level, h.IsCall c → h.levelOf c = some level → ¬ level.exits.Nodup →
        ∀ e ∈ h.effectiveEdges c, e.guard ≠ none := by
  have hpo : ∀ {c : Path}, (∃ e ∈ h.effectiveEdges c, e.guard = none) ↔ 0 < h.unguarded c := by
    intro c
    rw [unguarded, countP_pos_iff]
    simp [mem_graft]
  constructor
  · intro hle c level hc hl hd e he hgd
    rw [nodup_iff_count_le_one] at hd
    push Not at hd
    obtain ⟨s, hs⟩ := hd
    have hexit : s ∈ level.exits := count_pos_iff.mp (by omega)
    have ht : 1 < h.unguarded (s :: c) := by
      have ho := hpo.mp ⟨e, he, hgd⟩
      rw [unguarded_of_exit ok hl hexit]
      exact lt_of_lt_of_le hs (Nat.le_mul_of_pos_right _ ho)
    have hoc := occurs_of_mem_stepIds ok hl ((levelOk_of_levelOf ok hl).exits_mem s hexit)
    by_cases hca : h.IsCall (s :: c)
    · obtain ⟨p, hp, -, -, hsu⟩ := exists_exit_below ok hca
      have hm : h.unguarded (s :: c) ≤ h.unguarded p := hsu.countP_le
      have := hle p hp
      omega
    · have := hle _ (isPlain_iff.mpr ⟨hoc, hca⟩)
      omega
  · intro hx
    have ha : ∀ p : Path, h.Occurs p → h.unguarded p ≤ 1 := by
      intro p
      induction p with
      | nil =>
        intro _
        exact Nat.zero_le 1
      | cons s cs ih =>
        rintro ⟨step, hst⟩
        obtain ⟨level, hl, -⟩ := (stepAt_cons ok).mp hst
        by_cases hs : s ∈ level.exits
        · have hca := isCall_of_exit ok hl hs
          rw [unguarded_of_exit ok hl hs]
          by_cases hnd : level.exits.Nodup
          · rw [count_eq_one_of_mem hnd hs, Nat.one_mul]
            exact ih hca.occurs
          · have hz : h.unguarded cs = 0 := by
              by_contra hne
              obtain ⟨e, he, hgd⟩ := hpo.mpr (Nat.pos_of_ne_zero hne)
              exact hx cs level hca hl hnd e he hgd
            rw [hz, Nat.mul_zero]
            exact Nat.zero_le 1
        · exact unguarded_of_not_exit ok hl hs
    exact fun p hp => ha p (isPlain_iff.mp hp).1

end Ok

end Hierarchy

/-! ### The last document -/

variable {admitBuiltinOnly : Bool} {doc flat : Journey}

section Last

variable {admitBuiltinOnly : Bool} {h : Hierarchy} {flat : Journey} (ok : h.Ok admitBuiltinOnly)
  (hsim : Simulates h flat h.plainSteps)

include ok hsim

/-- The edges of the hierarchy that are not lost are edges of the document. -/
theorem flowEdge_of_plainEdge {p q : Path} (hp : h.IsPlain p) (hed : h.PlainEdge p q) :
    FlowEdge flat.transitions (pathName p) (pathName q) := by
  obtain ⟨d, hd, hn, hq⟩ := hed
  have ho := hsim.outgoing p ((Hierarchy.mem_plainSteps ok).mpr hp)
  obtain ⟨e, he, -, hl⟩ := Loops.exists_of_forall₂_right ho (Hierarchy.mem_graft.mpr hd)
  obtain ⟨t, ht, rfl⟩ := mem_map.mp he
  obtain ⟨hm, hf⟩ := mem_filter.mp ht
  rcases hl.2 with ⟨hab, -⟩ | ⟨-, q2, hq2, hen, hto⟩
  · exact absurd hab hn
  · have hq2 : h.Descends d.to q2 := ⟨hen, (Hierarchy.mem_plainSteps ok).mp hq2⟩
    exact ⟨t, hm, beq_iff_eq.mp hf, hq2.unique ok hq ▸ hto⟩

variable (hsteps : List.Forall₂ h.Renders h.plainSteps flat.steps)

include hsteps

omit ok hsim in
theorem pathName_mem_stepIds {p : Path} (hp : p ∈ h.plainSteps) : pathName p ∈ stepIds flat.steps := by
  obtain ⟨step, hs, hr⟩ := Loops.exists_of_forall₂_left hsteps hp
  exact mem_stepIds.mpr ⟨step, hs, hr.id_eq⟩

/-- Every step of the document is reachable. -/
theorem reachable_of_simulates {s : Step} (hs : s ∈ flat.steps) :
    ReflTransGen (DeclaredEdge flat.transitions (stepIds flat.steps)) flat.entry s.id := by
  obtain ⟨p, hp, hr⟩ := Loops.exists_of_forall₂_right hsteps hs
  obtain ⟨q0, hq0, hen, hent⟩ := hsim.entry
  have hpl := (Hierarchy.mem_plainSteps ok).mp hp
  have hrc := Hierarchy.reaches_below ok (u := []) rfl ⟨hen, (Hierarchy.mem_plainSteps ok).mp hq0⟩ hpl
    ⟨nil_suffix, (Hierarchy.ne_nil_of_occurs (Hierarchy.isPlain_iff.mp hpl).1).symm⟩
  rw [hent, hr.id_eq]
  clear hp hr hent hen hpl
  induction hrc with
  | refl => exact .refl
  | @tail q q2 hrc he ih =>
    have hq : h.IsPlain q := by
      rcases ReflTransGen.cases_tail hrc with rfl | ⟨q1, -, d, -, -, hq⟩
      · exact (Hierarchy.mem_plainSteps ok).mp hq0
      · exact hq.2
    obtain ⟨d, hd, hn, hq2⟩ := id he
    refine ih.tail ⟨flowEdge_of_plainEdge ok hsim hq he, ?_, ?_⟩
    · exact pathName_mem_stepIds hsteps ((Hierarchy.mem_plainSteps ok).mpr hq)
    · exact pathName_mem_stepIds hsteps ((Hierarchy.mem_plainSteps ok).mpr hq2.2)

variable (hsources : ∀ t ∈ flat.transitions, t.from ∈ stepIds flat.steps)

include hsources

/-- Every transition of the document is an edge of the hierarchy, with its guard. -/
theorem exists_edge_of_mem {t : Transition} (ht : t ∈ flat.transitions) :
    ∃ p e, h.IsPlain p ∧ e ∈ h.effectiveEdges p ∧ t.from = pathName p ∧ t.guard = e.guard := by
  obtain ⟨step, hs, hid⟩ := mem_stepIds.mp (hsources t ht)
  obtain ⟨p, hp, hr⟩ := Loops.exists_of_forall₂_right hsteps hs
  have hf : t.from = pathName p := hid.symm.trans hr.id_eq
  have hm : (⟨t.to, t.guard⟩ : GuardedEdge StepId) ∈ flatEdges flat (pathName p) :=
    mem_map.mpr ⟨t, mem_filter.mpr ⟨ht, by simp [hf]⟩, rfl⟩
  obtain ⟨e, he, hgd, -⟩ := Loops.exists_of_forall₂_left (hsim.outgoing p hp) hm
  exact ⟨p, e, (Hierarchy.mem_plainSteps ok).mp hp, Hierarchy.mem_graft.mp he, hf, hgd⟩

/-- The document is deterministic exactly when no path gets two unguarded edges. -/
theorem deterministic_iff :
    (flat.transitions.filterMap unguardedSource).Nodup ↔ ∀ p, h.IsPlain p → h.unguarded p ≤ 1 := by
  have hc : ∀ p, h.IsPlain p → (flat.transitions.filterMap unguardedSource).count (pathName p) = h.unguarded p := by
    intro p hp
    have ho := hsim.outgoing p ((Hierarchy.mem_plainSteps ok).mpr hp)
    rw [← countP_edges id, Hierarchy.unguarded, countP_eq_length_filter, countP_eq_length_filter]
    exact (rel_filter (fun _ _ hed => by simp [hed.1]) ho).length_eq
  rw [nodup_iff_count_le_one]
  constructor
  · intro hle p hp
    rw [← hc p hp]
    exact hle _
  · intro hle id
    by_cases hm : id ∈ flat.transitions.filterMap unguardedSource
    · obtain ⟨t, ht, hs⟩ := mem_filterMap.mp hm
      obtain ⟨p, -, hp, -, hf, -⟩ := exists_edge_of_mem ok hsim hsteps hsources ht
      have hid : t.from = id := by
        rw [unguardedSource] at hs
        split at hs
        · exact some.inj hs
        · cases hs
      rw [← hid, hf, hc p hp]
      exact hle p hp
    · rw [count_eq_zero_of_not_mem hm]
      exact Nat.zero_le 1

omit hsources in
/-- A terminal step has no transition, and every other step has one. -/
theorem exists_transition_iff {s : Step} (hs : s ∈ flat.steps) :
    (∃ t ∈ flat.transitions, t.from = s.id) ↔ s.kind ≠ .terminal := by
  obtain ⟨p, hp, source, comment, hsr, rfl⟩ := Loops.exists_of_forall₂_right hsteps hs
  have ho := hsim.outgoing p hp
  constructor
  · rintro ⟨t, ht, hf⟩ hk
    have hm : (⟨t.to, t.guard⟩ : GuardedEdge StepId) ∈ flatEdges flat (pathName p) :=
      mem_map.mpr ⟨t, mem_filter.mpr ⟨ht, by simpa using hf⟩, rfl⟩
    obtain ⟨e, he, -⟩ := Loops.exists_of_forall₂_left ho hm
    have he := Hierarchy.mem_graft.mp he
    rw [Hierarchy.effectiveEdges_of_terminal ok hsr hk] at he
    cases he
  · intro hk
    obtain ⟨d, hd⟩ := exists_mem_of_ne_nil _ (Hierarchy.effectiveEdges_ne_nil ok hsr hk)
    obtain ⟨e, he, -⟩ := Loops.exists_of_forall₂_right ho (Hierarchy.mem_graft.mpr hd)
    obtain ⟨t, ht, -⟩ := mem_map.mp he
    obtain ⟨hm, hf⟩ := mem_filter.mp ht
    exact ⟨t, hm, beq_iff_eq.mp hf⟩

/-- Everything the validator asks of the document but for dangling targets and determinism, it has. -/
theorem journeyOk_of_simulates (hnd : (stepIds flat.steps).Nodup) (hcl : NoCalls flat)
    (hen : ¬ flat.engineVersion > journeyEngineVersion) (hsu : flat.subflows = none)
    (hd : flat.subflowDefinitions = none) (hta : ∀ t ∈ flat.transitions, t.to ∈ stepIds flat.steps)
    (hde : (flat.transitions.filterMap unguardedSource).Nodup) : JourneyOk false admitBuiltinOnly flat := by
  have hlev : ∀ st ∈ flat.steps, ∃ level source comment id, LevelOk admitBuiltinOnly h.registry level ∧
      source ∈ level.steps ∧ st = { source with id := id, comment := comment } := by
    intro st hs
    obtain ⟨p, hp, source, comment, hsr, hr⟩ := Loops.exists_of_forall₂_right hsteps hs
    obtain ⟨s, cs, rfl⟩ := exists_cons_of_ne_nil (Hierarchy.ne_nil_of_occurs ⟨source, hsr⟩)
    obtain ⟨level, hl, hm, -⟩ := (Hierarchy.stepAt_cons ok).mp hsr
    exact ⟨level, source, comment, _, Hierarchy.levelOk_of_levelOf ok hl, hm, hr⟩
  refine ⟨hen, ⟨hnd, ?_, fun t ht => ⟨hsources t ht, hta t ht⟩, hde, ?_, ?_, ?_, ?_⟩, ?_, ?_,
    by constructor <;> simp [inlineDefinitions, hsu, hd]⟩
  · obtain ⟨q, hq, -, hn⟩ := hsim.entry
    exact hn ▸ pathName_mem_stepIds hsteps hq
  · exact fun st hs => reachable_of_simulates ok hsim hsteps hs
  · intro st hs
    by_cases hk : st.kind = .terminal
    · exact .inl ((mem_terminalIds_iff hnd hs).mpr hk)
    · exact .inr ((exists_transition_iff ok hsim hsteps hs).mpr hk)
  · intro t ht guard hgd
    obtain ⟨p, e, -, he, -, hsa⟩ := exists_edge_of_mem ok hsim hsteps hsources ht
    obtain ⟨cs, level, t2, hl, ht2, hgd2⟩ := Hierarchy.exists_transition_of_mem_effectiveEdges he
    refine (Hierarchy.levelOk_of_levelOf ok hl).graph.guards t2 ht2 guard ?_
    rw [← hgd2, ← hsa]
    exact hgd
  · intro st hs
    obtain ⟨level, source, comment, id, hok, hm, rfl⟩ := hlev st hs
    exact hok.graph.decisions source hm
  · intro st hs
    have hpl := hcl st hs
    obtain ⟨level, source, comment, id, hok, hm, rfl⟩ := hlev st hs
    have hv := hok.vocabulary source hm
    have hc := hok.coherent source hm
    refine ⟨⟨hv.known, hv.builtin, hv.group⟩, fun hf => absurd hf (by decide), fun key hke => ?_,
      ⟨hc.call, hc.challenge, hc.subflow, hc.decision, hc.factor⟩⟩
    exact absurd (hc.subflow hv.known (isSome_iff_exists.mpr ⟨key, hke⟩)) hpl
  · intro t ht hter
    obtain ⟨st, hs, hid⟩ := mem_stepIds.mp (hsources t ht)
    have hk := (mem_terminalIds_iff hnd hs).mp (hid ▸ hter)
    exact (exists_transition_iff ok hsim hsteps hs).mp ⟨t, ht, hid.symm⟩ hk

end Last

/-- The last document of a run validates, but for the subject, exactly when the hierarchy is
composable. -/
theorem journeyOk_last_iff (hdo : JourneyOk true admitBuiltinOnly doc)
    (hr : ReflTransGen (Inlines (fullRegistry doc)) (initialFlat doc) flat) (hcl : NoCalls flat) :
    JourneyOk false admitBuiltinOnly flat ↔ Composable (hierarchy doc) := by
  have ok := hierarchy_ok hdo
  have hl : (∀ c, ¬ (hierarchy doc).Strands c) ↔
      ∀ c, (hierarchy doc).SelfLoop c → ∃ q, (hierarchy doc).Later c q ∧ pathName q = pathName c := by
    refine forall_congr' fun c => ?_
    rw [Hierarchy.Strands]
    push Not
    exact Iff.rfl
  -- what every turn keeps of the document besides its graph
  obtain ⟨-, -, -, he, hs, hde⟩ := Expansion.run_induction hdo (P := fun flat _ _ =>
    flat.engineVersion = doc.engineVersion ∧ flat.subflows = none ∧ flat.subflowDefinitions = none) ⟨rfl, rfl, rfl⟩
    (fun _ ht _ hp => ⟨ht.engine_eq2.trans hp.1, ht.subflows_eq2.trans hp.2.1, ht.definitions_eq2.trans hp.2.2⟩) hr
  constructor
  · intro hok
    have hd := distinct_of_run hdo hr hcl (not_broken_of_journeyOk hok)
    obtain ⟨hsteps, -, hsim, hsources, hta⟩ := composed_of_distinct hdo hd hr hcl
    refine ⟨hd, hl.mp (hta.mp fun t ht => (hok.graph.endpoints t ht).2), ?_⟩
    exact (Hierarchy.unguarded_le_one_iff ok).mp
      ((deterministic_iff ok hsim hsteps hsources).mp hok.graph.deterministic)
  · intro hc
    obtain ⟨hsteps, hnd, hsim, hsources, hta⟩ := composed_of_distinct hdo hc.names hr hcl
    refine journeyOk_of_simulates ok hsim hsteps hsources hnd hcl (he ▸ hdo.engine) hs hde
      (hta.mpr (hl.mpr hc.loops)) ?_
    exact (deterministic_iff ok hsim hsteps hsources).mpr ((Hierarchy.unguarded_le_one_iff ok).mpr hc.exits)

/-- **When a valid journey composes.** Within the ceiling composition always reaches a flat document,
and the second validation finds nothing in it but steps without a subject exactly when the hierarchy is
composable. -/
theorem composeFlat_revalidates_iff {journey : Journey} {admitBuiltinOnly : Bool}
    (hvalid : validateErrors journey true admitBuiltinOnly = []) (hsize : expandedStepCount journey ≤ maxComposedSteps) :
    ∃ flat, composeFlat journey = some (.ok flat) ∧
      ((∀ error ∈ validateErrors flat false admitBuiltinOnly, error.isSubject = true) ↔
        Composable (hierarchy journey)) := by
  have hdoc := (validateErrors_eq_nil.mp hvalid).1
  obtain ⟨last, hrun, ⟨has, hca⟩ | ⟨-, hla⟩⟩ := composeFlat_spec hdoc
  · refine ⟨last, has, ?_⟩
    rw [validateErrors_subject_only]
    exact journeyOk_last_iff hdoc hrun hca
  · exact absurd hla (Nat.not_lt.mpr hsize)

theorem stepUpJourney_composable : Composable (hierarchy stepUpJourney) := by
  have hva : validateErrors stepUpJourney true false = [] := isEmpty_iff.mp (by decide)
  obtain ⟨flat, hfl, hiff⟩ := composeFlat_revalidates_iff hva (by decide)
  have hok : loads (fun flat => (validateErrors flat false false).all JourneyError.isSubject)
      (composeFlat stepUpJourney) = true := by decide
  rw [hfl] at hok
  exact hiff.mp (all_eq_true.mp hok)

/-- Password, then the step-up, tried again while a second factor is due. -/
def retryStepUp : Journey where
  id := "retry"
  entry := "password"
  steps :=
    [{ id := "password", kind := .identifierPassword },
     { id := "step_up", kind := .subflowCall, subflow := some builtinMfaStepUp },
     { id := "done", kind := .terminal }]
  transitions :=
    [{ «from» := "password", «to» := "step_up" },
     { «from» := "step_up", «to» := "step_up", guard := some mfaRequired },
     { «from» := "step_up", «to» := "done" }]
  subflows := some [⟨builtinMfaStepUp, .builtin builtinMfaStepUp⟩]

/-- The retry validates and its flat form does not: the edge back to the call dangles. -/
theorem retryStepUp_rejected :
    validateErrors retryStepUp true false = [] ∧ expandedStepCount retryStepUp ≤ maxComposedSteps ∧
      ∃ flat, composeFlat retryStepUp = some (.ok flat) ∧
        ∃ error ∈ validateErrors flat false false, error.isSubject = false := by
  refine ⟨isEmpty_iff.mp (by decide), by decide, ?_⟩
  have hbad : loads (fun flat => (validateErrors flat false false).any fun error => !error.isSubject)
      (composeFlat retryStepUp) = true := by decide
  obtain ⟨flat, hfl, hte⟩ := loads_eq_true.mp hbad
  obtain ⟨error, hmem, her⟩ := any_eq_true.mp hte
  exact ⟨flat, hfl, error, hmem, by simpa using her⟩

end IronAuth.Journeys
