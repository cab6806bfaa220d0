import IronAuth.Journeys.Simulation

/-!
# Composition and routing

Whether the flat journey routes as the hierarchy does. Guards are data, so a
valuation is any function from predicates to verdicts; at each step the first edge
whose guard is absent or holds is taken.

A transition from a call step to itself is where the two part. The hierarchy
leads such an edge back to the entry of the fragment. The splice redirects the
transitions into the call before it grafts those that left it, so the grafted copy
of a self loop keeps the name of the call, which then names nothing, or something
else.
-/

namespace IronAuth.Journeys

open Relation List
open Lib

/-- The flat journey routes as the hierarchy does: it starts where the hierarchy starts, and from
each plain step, under each valuation of the guards, it goes where the hierarchy goes. -/
structure RoutesAs (h : Hierarchy) (flat : Journey) : Prop where
  entry : ∃ q, h.Descends [h.root.entry] q ∧ flat.entry = pathName q
  stays : ∀ p, h.IsPlain p → ∀ holds : Predicate → Except PredicateError Bool,
    firstTaken holds (h.effectiveEdges p) = none → firstTaken holds (flatEdges flat (pathName p)) = none
  goes : ∀ p, h.IsPlain p → ∀ (holds : Predicate → Except PredicateError Bool) (d : Path),
    firstTaken holds (h.effectiveEdges p) = some d →
      ∃ q, h.Descends d q ∧ firstTaken holds (flatEdges flat (pathName p)) = some (pathName q)

/-- Every transition from a call to itself comes after one from the same call that is unguarded or
has the same guard, and so is never taken. -/
def SelfLoopsShadowed (h : Hierarchy) : Prop :=
  ∀ (s : StepId) (cs : Path) (level : Subflow), h.IsCall (s :: cs) → h.levelOf cs = some level →
    ∀ before t after, (level.transitions.filter fun t => t.from == s) = before ++ t :: after → t.to = s →
      ∃ t2 ∈ before, t2.guard = none ∨ t2.guard = t.guard

namespace Hierarchy

variable {admitBuiltinOnly : Bool} {h : Hierarchy}

variable {p q cs : Path} {s : StepId} {l : Subflow}

theorem Enters.eq_or_head (hen : h.Enters p q) :
    p = q ∨ ∃ level, h.levelOf p = some level ∧ h.Enters (level.entry :: p) q := by
  induction hen with
  | refl => exact .inl rfl
  | @entry q level _ hl ih =>
    right
    rcases ih with rfl | ⟨o, hp, ih⟩
    · exact ⟨level, hl, .refl⟩
    · exact ⟨o, hp, .entry ih hl⟩

/-- Of two paths that are entered from one, either is entered from the other. -/
theorem Enters.total {q2 : Path} (hq : h.Enters p q) (hq2 : h.Enters p q2) :
    h.Enters q q2 ∨ h.Enters q2 q := by
  induction hq with
  | refl => exact .inl hq2
  | @entry q level _ hl ih =>
    rcases ih with ih | ih
    · rcases ih.eq_or_head with rfl | ⟨l2, hl2, hh⟩
      · exact .inr (.entry .refl hl)
      · rw [hl, Option.some.injEq] at hl2
        exact .inl (hl2 ▸ hh)
    · exact .inr (.entry ih hl)

theorem Enters.eq_of_isPlain (ok : h.Ok admitBuiltinOnly) (hp : h.IsPlain p) (hen : h.Enters p q) :
    p = q := by
  rcases hen.eq_or_head with heq | ⟨level, hl, -⟩
  · exact heq
  · obtain ⟨ho, hpl⟩ := isPlain_iff.mp hp
    exact absurd (isCall_of_levelOf ok (ne_nil_of_occurs ho) hl) hpl

/-- Entering a path leads to one plain step at most. -/
theorem Descends.unique (ok : h.Ok admitBuiltinOnly) {q2 : Path} (hq : h.Descends p q) (hq2 : h.Descends p q2) :
    q = q2 := by
  rcases hq.1.total hq2.1 with hen | hen
  · exact hen.eq_of_isPlain ok hq.2
  · exact (hen.eq_of_isPlain ok hq2.2).symm

/-- Listing an exit twice grafts its edges twice, which takes the same edge. -/
theorem firstTaken_graft (ho : Predicate → Except PredicateError Bool) :
    ∀ p : Path, firstTaken ho (h.graft p) = firstTaken ho (h.effectiveEdges p)
  | [] => rfl
  | s :: cs => by
    have ih := firstTaken_graft ho cs
    unfold graft effectiveEdges
    cases h.levelOf cs with
    | none => rfl
    | some level =>
      refine firstTaken_append_congr _ ?_
      by_cases hs : s ∈ level.exits
      · rw [if_pos hs]
        have hm : s ∈ level.exits.filter fun e => e == s := mem_filter.mpr ⟨hs, by simp⟩
        obtain ⟨e, exits, hx⟩ := exists_cons_of_ne_nil (ne_nil_of_mem hm)
        rw [hx, firstTaken_flatMap_const, ih]
      · have hn : (level.exits.filter fun e => e == s) = [] := by
          refine filter_eq_nil_iff.mpr fun e he => ?_
          simp only [beq_iff_eq]
          exact fun heq => hs (heq ▸ he)
        rw [if_neg hs, hn]
        rfl

/-- An exit has no edges of its own. -/
theorem ownEdges_of_exit (ok : h.Ok admitBuiltinOnly)
    (hl : h.levelOf cs = some l) (hs : s ∈ l.exits) : ownEdges l s cs = [] := by
  rw [ownEdges, map_eq_nil_iff]
  refine filter_eq_nil_iff.mpr fun t ht hf => ?_
  rw [beq_iff_eq] at hf
  exact (levelOk_of_levelOf ok hl).leaf t ht (mem_append_left _ (hf ▸ hs))

/-- It goes on with those of its caller. -/
theorem effectiveEdges_of_exit (ok : h.Ok admitBuiltinOnly)
    (hl : h.levelOf cs = some l) (hs : s ∈ l.exits) : h.effectiveEdges (s :: cs) = h.effectiveEdges cs := by
  rw [effectiveEdges, hl]
  simp [ownEdges_of_exit ok hl hs, if_pos hs]

/-- The splice grafts the edges of the hierarchy, some of them more than once. -/
theorem mem_graft : ∀ {p : Path} {e : GuardedEdge Path}, e ∈ h.graft p ↔ e ∈ h.effectiveEdges p
  | [], e => Iff.rfl
  | s :: cs, e => by
    have ih := mem_graft (p := cs) (e := e)
    unfold graft effectiveEdges
    cases h.levelOf cs with
    | none => exact Iff.rfl
    | some level =>
      rw [mem_append, mem_append]
      refine or_congr Iff.rfl ?_
      by_cases hs : s ∈ level.exits
      · simp [hs, ih]
      · simp [hs]

/-- An edge leads no deeper than it starts. -/
theorem length_to_le_of_mem_effectiveEdges : ∀ {p : Path} {e : GuardedEdge Path}, e ∈ h.effectiveEdges p →
    e.to.length ≤ p.length
  | [], e, he => by cases he
  | s :: cs, e, he => by
    unfold effectiveEdges at he
    cases hl : h.levelOf cs with
    | none =>
      rw [hl] at he
      cases he
    | some level =>
      rw [hl] at he
      rcases mem_append.mp he with he | he
      · obtain ⟨t, -, rfl⟩ := mem_map.mp he
        simp
      · split at he
        · have hle := length_to_le_of_mem_effectiveEdges he
          simp only [length_cons]
          omega
        · cases he

/-- When the edge taken leads from inside a call back to it, the call has a self loop that its
own edges take first. -/
theorem selfLoop_of_firstTaken_above (ok : h.Ok admitBuiltinOnly) {ho : Predicate → Except PredicateError Bool} :
    ∀ {p d : Path}, firstTaken ho (h.effectiveEdges p) = some d → Above d p →
      ∃ s cs level, d = s :: cs ∧ h.levelOf cs = some level ∧ h.IsCall (s :: cs) ∧
        firstTaken ho (ownEdges level s cs) = some (s :: cs)
  | [], d, htk, _ => by cases htk
  | s :: cs, d, htk, hab => by
    have hsu : d <:+ cs := by
      rcases suffix_cons_iff.mp hab.1 with heq | hsu
      · exact absurd heq hab.2
      · exact hsu
    have hlen := hsu.length_le
    cases hl : h.levelOf cs with
    | none =>
      rw [effectiveEdges, hl] at htk
      cases htk
    | some level =>
      by_cases hs : s ∈ level.exits
      · rw [effectiveEdges_of_exit ok hl hs] at htk
        by_cases hd : d = cs
        · subst hd
          cases d with
          | nil => cases htk
          | cons c u =>
            have hc := (isCall_cons_iff ok).mpr ⟨level, hl⟩
            obtain ⟨step, hst, -⟩ := hc
            obtain ⟨o, hu, -⟩ := (stepAt_cons ok).mp hst
            refine ⟨c, u, o, rfl, hu, (isCall_cons_iff ok).mpr ⟨level, hl⟩, ?_⟩
            rw [effectiveEdges, hu] at htk
            by_cases hex : Exhausted ho (ownEdges o c u)
            · -- the caller's edges lead less deep
              rw [firstTaken_append_of_exhausted hex] at htk
              obtain ⟨e, he, hto⟩ := exists_mem_of_firstTaken htk
              split at he
              · have hle := length_to_le_of_mem_effectiveEdges he
                rw [hto, length_cons] at hle
                omega
              · cases he
            · rw [firstTaken_append_of_not_exhausted hex] at htk
              exact htk
        · exact selfLoop_of_firstTaken_above ok htk ⟨hsu, hd⟩
      · rw [effectiveEdges, hl] at htk
        simp only [if_neg hs, append_nil] at htk
        obtain ⟨e, he, hto⟩ := exists_mem_of_firstTaken htk
        obtain ⟨t, -, rfl⟩ := mem_map.mp he
        rw [← hto, length_cons] at hlen
        omega

/-- An exit gets all the edges the splice gives its caller. -/
theorem graft_sublist_of_exit (hl : h.levelOf cs = some l)
    (hs : s ∈ l.exits) : (h.graft cs).Sublist (h.graft (s :: cs)) := by
  have hm : s ∈ l.exits.filter fun e => e == s := mem_filter.mpr ⟨hs, by simp⟩
  obtain ⟨e, exits, he⟩ := exists_cons_of_ne_nil (ne_nil_of_mem hm)
  have hgr : h.graft (s :: cs) = ownEdges l s cs ++ (e :: exits).flatMap fun _ => h.graft cs := by
    rw [graft, hl, ← he]
  rw [hgr, flatMap_cons]
  exact (sublist_append_left ..).trans (sublist_append_right ..)

/-- Inside every call there is a plain step that goes on with the edges of the call. -/
theorem exists_exit_below (ok : h.Ok admitBuiltinOnly) {c : Path} (hc : h.IsCall c) :
    ∃ p, h.IsPlain p ∧ Above c p ∧ h.effectiveEdges p = h.effectiveEdges c ∧ (h.graft c).Sublist (h.graft p) := by
  induction hn : h.rank c using Nat.strongRecOn generalizing c with
  | ind n ih =>
    obtain ⟨step, hs, -⟩ := id hc
    obtain ⟨s, cs, rfl⟩ := exists_cons_of_ne_nil (ne_nil_of_occurs ⟨step, hs⟩)
    obtain ⟨level, hl⟩ := (isCall_cons_iff ok).mp hc
    obtain ⟨key, hlk⟩ := exists_lookup_of_levelOf_cons hl
    obtain ⟨e, exits, hx⟩ := exists_cons_of_ne_nil (ok.callee_exits hlk)
    have he : e ∈ level.exits := by rw [hx]; exact mem_cons_self ..
    obtain ⟨step, hs, rfl⟩ := mem_stepIds.mp ((levelOk_of_levelOf ok hl).exits_mem e he)
    have hch : step.id :: s :: cs ∈ h.children (s :: cs) := mem_children.mpr ⟨level, hl, step, hs, rfl⟩
    have hed := effectiveEdges_of_exit ok hl he
    have hab : Above (s :: cs) (step.id :: s :: cs) := ⟨suffix_cons .., by simp⟩
    by_cases hca : h.IsCall (step.id :: s :: cs)
    · obtain ⟨p, hpl, hp, hpe, hpg⟩ := ih _ (hn ▸ ranked_children ok _ _ hch) hca rfl
      refine ⟨p, hpl, ⟨hab.1.trans hp.1, ?_⟩, hpe.trans hed, (graft_sublist_of_exit hl he).trans hpg⟩
      rintro rfl
      have hle := hp.1.length_le
      simp only [length_cons] at hle
      omega
    · exact ⟨_, isPlain_iff.mpr ⟨(cons_mem_children ok).mp hch, hca⟩, hab, hed, graft_sublist_of_exit hl he⟩

end Hierarchy

/-! ### Accepted journeys -/

/-- The flat document of an accepted journey simulates the hierarchy at its plain steps. -/
theorem simulates_of_composeInner {j flat : Journey} {admitBuiltinOnly : Bool}
    (hc : composeInner j admitBuiltinOnly = some (.ok flat)) :
    JourneyOk true admitBuiltinOnly j ∧ Simulates (hierarchy j) flat (hierarchy j).plainSteps ∧
      ((hierarchy j).plainSteps.map pathName).Nodup := by
  obtain ⟨hv, hf, hfi⟩ := composeInner_eq_ok.mp hc
  have hd := (validateErrors_eq_nil.mp hv).1
  have hok := (validateErrors_eq_nil.mp hfi).1
  obtain ⟨last, hr, ⟨hl, hcl⟩ | ⟨hl, -⟩⟩ := composeFlat_spec hd
  · rw [hf, Option.some.injEq, Except.ok.injEq] at hl
    subst hl
    obtain ⟨visited, a, he, hs⟩ := simulates_of_run hd hr
    have hns := (he.nodes_eq_of_noCalls (hierarchy_ok hd) hcl).1
    have hi := he.stepIds_eq
    rw [hns] at hs hi
    exact ⟨hd, hs (not_broken_of_journeyOk hok), hi ▸ hok.graph.nodup⟩
  · rw [hf] at hl
    cases hl

section Accepted

variable {admitBuiltinOnly : Bool} {h : Hierarchy} {flat : Journey}

/-- Where the flat document goes, by where the hierarchy goes. -/
theorem Simulates.firstTaken_rel (hs : Simulates h flat h.plainSteps) (ok : h.Ok admitBuiltinOnly) {p : Path}
    (hp : h.IsPlain p) (ho : Predicate → Except PredicateError Bool) :
    Option.Rel (fun tgt d => h.Leads h.plainSteps p d tgt) (firstTaken ho (flatEdges flat (pathName p)))
      (firstTaken ho (h.effectiveEdges p)) := by
  rw [← Hierarchy.firstTaken_graft]
  exact Journeys.firstTaken_rel (hs.outgoing p ((Hierarchy.mem_plainSteps ok).mpr hp))

/-- A lost edge does not lead where the hierarchy leads. -/
theorem not_descends_of_lost (ok : h.Ok admitBuiltinOnly) (hnd : (h.plainSteps.map pathName).Nodup) {c q : Path}
    (hc : h.IsCall c) (hq : h.Descends c q) : ¬ Hierarchy.Lost h.plainSteps c (pathName q) := by
  have hsu := hq.1.suffix
  rintro (heq | ⟨q2, hq2, heq, hn⟩)
  · have hne : c ≠ q := by
      rintro rfl
      exact (Hierarchy.isPlain_iff.mp hq.2).2 hc
    obtain ⟨step, hs, -⟩ := hc
    have hlt := length_pathName_lt (Hierarchy.ne_nil_of_occurs ⟨step, hs⟩) hsu hne
    rw [heq] at hlt
    exact lt_irrefl _ hlt
  · obtain rfl := inj_on_of_nodup_map hnd ((Hierarchy.mem_plainSteps ok).mpr hq.2) hq2 heq
    exact hn hsu

/-- Shadowed self loops are never taken, so no edge that is taken is lost. -/
theorem SelfLoopsShadowed.not_above (ok : h.Ok admitBuiltinOnly) (hsh : SelfLoopsShadowed h)
    {ho : Predicate → Except PredicateError Bool} {p d : Path}
    (htk : firstTaken ho (h.effectiveEdges p) = some d) : ¬ Hierarchy.Above d p := by
  intro hab
  obtain ⟨s, cs, level, rfl, hl, hc, hlo⟩ := Hierarchy.selfLoop_of_firstTaken_above ok htk hab
  obtain ⟨before, e, after, hsp, hb, hto, he⟩ := firstTaken_eq_some hlo
  obtain ⟨ts, rest, hf, hts, hr⟩ := map_eq_append_iff.mp hsp
  obtain ⟨t, ts2, rfl, rfl, -⟩ := map_eq_cons_iff.mp hr
  have hs : t.to = s := (List.cons.inj hto).1
  obtain ⟨t2, ht2, hgd⟩ := hsh s cs level hc hl ts t ts2 hf hs
  obtain ⟨guard, hso, hfa⟩ := hb ⟨t2.to :: cs, t2.guard⟩ (hts ▸ mem_map.mpr ⟨t2, ht2, rfl⟩)
  rcases hgd with hn | hsa
  · rw [hn] at hso
    cases hso
  · have ht := he guard (hsa ▸ hso)
    rw [hfa] at ht
    cases ht

/-- A self loop that is not shadowed is taken when its own guard holds and no other. -/
theorem exists_firstTaken_selfLoop {l : Subflow} {s : StepId} (cs : Path) {pre a : List Transition}
    {t : Transition} (hsp : (l.transitions.filter fun t => t.from == s) = pre ++ t :: a) (hto : t.to = s)
    (hb : ∀ t2 ∈ pre, ¬ (t2.guard = none ∨ t2.guard = t.guard)) :
    ∃ hl, firstTaken hl (Hierarchy.ownEdges l s cs) = some (s :: cs) := by
  classical
  refine ⟨fun guard => .ok (decide (some guard = t.guard)), ?_⟩
  rw [Hierarchy.ownEdges, hsp, map_append, map_cons, ← hto, firstTaken_append_of_exhausted, firstTaken]
  · cases t.guard <;> simp
  intro e he
  obtain ⟨t2, ht2, rfl⟩ := mem_map.mp he
  obtain ⟨hs, ho⟩ := not_or.mp (hb t2 ht2)
  obtain ⟨guard, hgd⟩ := Option.ne_none_iff_exists'.mp hs
  refine ⟨guard, hgd, ?_⟩
  rw [hgd] at ho
  simp [ho]

end Accepted

/-- **An accepted journey routes as its hierarchy does exactly when every self loop of a call is
shadowed.** -/
theorem composeInner_routesAs_iff {journey flat : Journey} {admitBuiltinOnly : Bool}
    (hcompose : composeInner journey admitBuiltinOnly = some (.ok flat)) :
    RoutesAs (hierarchy journey) flat ↔ SelfLoopsShadowed (hierarchy journey) := by
  obtain ⟨hdoc, hsim, hnd⟩ := simulates_of_composeInner hcompose
  have ok := hierarchy_ok hdoc
  constructor
  · intro hro s cs level hca hl before t after hsp hto
    by_contra hbefore
    push Not at hbefore
    obtain ⟨hol, hlo⟩ := exists_firstTaken_selfLoop cs hsp hto fun t2 ht2 => not_or.mpr (hbefore t2 ht2)
    -- a step of the call that goes on with the call's edges takes the self loop
    obtain ⟨p, hp, hab, hed, -⟩ := Hierarchy.exists_exit_below ok hca
    have hta : firstTaken hol ((hierarchy journey).effectiveEdges p) = some (s :: cs) := by
      rw [hed, Hierarchy.effectiveEdges, hl]
      refine (firstTaken_append_of_not_exhausted fun hex => ?_).trans hlo
      rw [firstTaken_of_exhausted hex] at hlo
      cases hlo
    obtain ⟨q, hq, hfl⟩ := hro.goes p hp hol _ hta
    have hrel := hsim.firstTaken_rel ok hp hol
    rw [hfl, hta] at hrel
    cases hrel with
    | some hle =>
      rcases hle.2 with ⟨-, hos⟩ | ⟨hnot, -⟩
      · exact not_descends_of_lost ok hnd hca hq hos
      · exact hnot hab
  · intro hsh
    refine ⟨?_, fun p hp hol hno => ?_, fun p hp hol d hta => ?_⟩
    · obtain ⟨q, hq, hen, hnt⟩ := hsim.entry
      exact ⟨q, ⟨hen, (Hierarchy.mem_plainSteps ok).mp hq⟩, hnt⟩
    · have hrel := hsim.firstTaken_rel ok hp hol
      rw [hno] at hrel
      cases hfl : firstTaken hol (flatEdges flat (pathName p)) with
      | none => rfl
      | some tar =>
        rw [hfl] at hrel
        cases hrel
    · have hrel := hsim.firstTaken_rel ok hp hol
      rw [hta] at hrel
      cases hfl : firstTaken hol (flatEdges flat (pathName p)) with
      | none =>
        rw [hfl] at hrel
        cases hrel
      | some tar =>
        rw [hfl] at hrel
        cases hrel with
        | some hle =>
          rcases hle.2 with ⟨hab, -⟩ | ⟨-, q, hq, hen, har⟩
          · exact absurd hab (hsh.not_above ok hta)
          · exact ⟨q, ⟨hen, (Hierarchy.mem_plainSteps ok).mp hq⟩, by rw [har]⟩

/-! ### A journey that routes, and one that does not -/

/-- The signal that a second factor is due. -/
def mfaRequired : Predicate := .cmp ⟨.signals, "/mfa_required"⟩ .eq (.bool true)

/-- Password, then the built-in step-up, then done. -/
def stepUpJourney : Journey where
  id := "step_up"
  entry := "password"
  steps :=
    [{ id := "password", kind := .identifierPassword },
     { id := "step_up", kind := .subflowCall, subflow := some builtinMfaStepUp },
     { id := "done", kind := .terminal }]
  transitions :=
    [{ «from» := "password", «to» := "step_up", guard := some mfaRequired },
     { «from» := "password", «to» := "done" },
     { «from» := "step_up", «to» := "done" }]
  subflows := some [⟨builtinMfaStepUp, .builtin builtinMfaStepUp⟩]

/-- A hierarchy without self loops shadows all of them. -/
theorem selfLoopsShadowed_of_noLoops {h : Hierarchy} (hr : ∀ t ∈ h.root.transitions, t.from ≠ t.to)
    (hre : ∀ entry ∈ h.registry, ∀ t ∈ entry.2.transitions, t.from ≠ t.to) : SelfLoopsShadowed h := by
  intro s cs level _ hl before t after hs hto
  have hm : t ∈ level.transitions.filter fun t => t.from == s := by simp [hs]
  obtain ⟨ht, hf⟩ := mem_filter.mp hm
  have hlo : t.from = t.to := by rw [hto, ← beq_iff_eq, hf]
  cases cs with
  | nil =>
    obtain rfl : h.root = level := Option.some.inj hl
    exact absurd hlo (hr t ht)
  | cons c cs =>
    obtain ⟨key, hlk⟩ := Hierarchy.exists_lookup_of_levelOf_cons hl
    obtain ⟨before, after, he, -⟩ := lookup_eq_some_iff.mp hlk
    exact absurd hlo (hre (key, level) (by simp [he]) t ht)

theorem stepUpJourney_routes :
    ∃ flat, composeInner stepUpJourney false = some (.ok flat) ∧ RoutesAs (hierarchy stepUpJourney) flat := by
  have hok : loads (fun _ => true) (composeInner stepUpJourney false) = true := by decide
  obtain ⟨flat, hco, -⟩ := loads_eq_true.mp hok
  refine ⟨flat, hco, (composeInner_routesAs_iff hco).mpr ?_⟩
  exact selfLoopsShadowed_of_noLoops (by decide) (by decide)

/-- Two calls, `a:` and `a`. Inside the first, the step-up is called by `b` and tried again while a
second factor is due; inside the second there is a step `:b`. Both `b` and `:b` are named `a:::b`. -/
def straySelfLoop : Journey where
  id := "stray"
  entry := "p"
  steps :=
    [{ id := "p", kind := .identifierPassword },
     { id := "a:", kind := .subflowCall, subflow := some "x1" },
     { id := "a", kind := .subflowCall, subflow := some "x2" },
     { id := "done", kind := .terminal }]
  transitions :=
    [{ «from» := "p", «to» := "a:" }, { «from» := "a:", «to» := "a" }, { «from» := "a", «to» := "done" }]
  subflows := some [⟨"x1", .inline "s1"⟩, ⟨"x2", .inline "s2"⟩]
  subflowDefinitions := some
    [{ id := "s1"
       entry := "b"
       exits := ["e"]
       steps :=
         [{ id := "b", kind := .subflowCall, subflow := some builtinMfaStepUp },
          { id := "e", kind := .progressiveProfiling }]
       transitions :=
         [{ «from» := "b", «to» := "b", guard := some mfaRequired }, { «from» := "b", «to» := "e" }] },
     { id := "s2"
       entry := ":b"
       exits := [":b"]
       steps := [{ id := ":b", kind := .progressiveProfiling }]
       transitions := [] }]

/-- The exit of the step-up should try the step-up again, and goes to the step of the other call. -/
theorem straySelfLoop_misroutes :
    ∃ flat, compose straySelfLoop = some (.ok flat) ∧ ¬ RoutesAs (hierarchy straySelfLoop) flat := by
  have hok : loads (fun flat => firstTaken (fun _ => .ok true) (flatEdges flat "a:::b::challenge") == some "a:::b")
      (compose straySelfLoop) = true := by decide
  obtain ⟨flat, hco, hte⟩ := loads_eq_true.mp hok
  refine ⟨flat, hco, fun hro => ?_⟩
  have hpl : (hierarchy straySelfLoop).IsPlain ["challenge", "b", "a:"] := ⟨_, rfl, by decide⟩
  have hak : firstTaken (fun _ => .ok true) ((hierarchy straySelfLoop).effectiveEdges ["challenge", "b", "a:"])
      = some ["b", "a:"] := by decide
  obtain ⟨q, hq, hfl⟩ := hro.goes _ hpl _ _ hak
  have hna : pathName ["b", "a:"] = pathName q := by
    have hta : pathName ["challenge", "b", "a:"] = "a:::b::challenge" := by decide
    rw [hta, beq_iff_eq.mp hte, Option.some.injEq] at hfl
    exact hfl
  have hne : ["b", "a:"] ≠ q := by
    rintro rfl
    obtain ⟨step, hst, hki⟩ := hq.2
    have hca : ((hierarchy straySelfLoop).stepAt ["b", "a:"]).map Step.kind = some .subflowCall := by decide
    rw [hst, Option.map_some, Option.some.injEq] at hca
    exact hki hca
  have hlt := length_pathName_lt (by simp) hq.1.suffix hne
  rw [hna] at hlt
  exact lt_irrefl _ hlt

end IronAuth.Journeys
