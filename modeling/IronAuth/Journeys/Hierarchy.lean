import IronAuth.Journeys.Validate
import IronAuth.Lib.Preorder

/-!
# The hierarchical journey

A journey before composition is a hierarchy: a root flow, and a registry of the
fragments its call steps stand for. This module says what such a journey means
without flattening it. A step is named by the calls that lead to it; a step that
is an exit of its fragment goes on, after its own edges, with the edges of the
call it returns to; an edge into a call step enters the fragment at its entry.

A path lists step ids from the innermost outwards, so that the caller of a path
is its tail.
-/

namespace IronAuth.Journeys

open Relation List Option
open Lib

/-- A step of the hierarchy: its own id, then the ids of the calls that lead to it, innermost first. -/
abbrev Path := List StepId

/-- The id of a spliced step. -/
def namespaced (callId id : StepId) : StepId := callId ++ namespaceSeparator ++ id

/-- The id composition gives a step: the ids along its path, outermost first, joined by the separator. -/
def pathName : Path → StepId
  | [] => ""
  | [s] => s
  | s :: c :: cs => namespaced (pathName (c :: cs)) s

/-- A root flow and the fragments its calls stand for. -/
structure Hierarchy where
  root : Subflow
  registry : Registry

/-- The first step with an id. -/
def Subflow.step? (level : Subflow) (id : StepId) : Option Step := level.steps.find? fun step => step.id == id

namespace Hierarchy

variable (h : Hierarchy)

/-- The fragment a call step stands for. -/
def calleeOf (step : Step) : Option Subflow :=
  if step.kind.isCall then step.subflow.bind fun key => h.registry.lookup key else none

/-- The flow that the steps directly below a path belong to: the root flow, or the fragment
that the call at the path stands for. -/
def levelOf : Path → Option Subflow
  | [] => some h.root
  | s :: cs => ((levelOf cs).bind fun level => level.step? s).bind h.calleeOf

/-- The step at a path. -/
def stepAt : Path → Option Step
  | [] => none
  | s :: cs => (h.levelOf cs).bind fun level => level.step? s

/-- The paths directly below a path, in document order. -/
def children (p : Path) : List Path :=
  match h.levelOf p with
  | some level => level.steps.map fun step => step.id :: p
  | none => []

/-- How far a path is from the deepest level there can be. -/
def rank (p : Path) : ℕ := h.registry.length + 1 - p.length

/-- Every step of the hierarchy in document order, a call before the steps it expands to. -/
def documentOrder : List Path := (h.children []).flatMap (Preorder.subtree h.children h.rank)

/-- The edges of step `s` in the flow `level` below `cs`, in document order. -/
def ownEdges (level : Subflow) (s : StepId) (cs : Path) : List (GuardedEdge Path) :=
  (level.transitions.filter fun t => t.from == s).map fun t => ⟨t.to :: cs, t.guard⟩

/-- The edges that leave a path, in the order they are tried: its own edges, and if it is an
exit of its fragment then those of the call it returns to. -/
def effectiveEdges : Path → List (GuardedEdge Path)
  | [] => []
  | s :: cs =>
    match h.levelOf cs with
    | none => []
    | some level => ownEdges level s cs ++ if s ∈ level.exits then effectiveEdges cs else []

/-- The path `q` is entered when `p` is: `p` itself, or, below a call, the entry of its fragment. -/
inductive Enters (p : Path) : Path → Prop
  | refl : Enters p p
  | entry {q : Path} {level : Subflow} : Enters p q → h.levelOf q = some level → Enters p (level.entry :: q)

/-- There is a step at the path. -/
def Occurs (p : Path) : Prop := ∃ step, h.stepAt p = some step

/-- There is a call step at the path. -/
def IsCall (p : Path) : Prop := ∃ step, h.stepAt p = some step ∧ step.kind = .subflowCall

/-- There is a step at the path that is not a call. -/
def IsPlain (p : Path) : Prop := ∃ step, h.stepAt p = some step ∧ step.kind ≠ .subflowCall

/-- Entering `p` leads to the plain step `q`. -/
def Descends (p q : Path) : Prop := h.Enters p q ∧ h.IsPlain q

end Hierarchy

/-! ### Well-formed hierarchies -/

/-- A flow of the hierarchy, as the validator leaves it. -/
structure LevelOk (admitBuiltinOnly : Bool) (registry : Registry) (level : Subflow) : Prop where
  graph : GraphOk level.entry level.steps level.transitions (level.exits ++ terminalIds level.steps)
  vocabulary : ∀ step ∈ level.steps, StepInVocabulary admitBuiltinOnly step
  coherent : ∀ step ∈ level.steps, StepCoherent step
  reserved : ∀ step ∈ level.steps, strContains step.id namespaceSeparator = false
  calls : ∀ step ∈ level.steps, step.kind = .subflowCall →
    ∃ key callee, step.subflow = some key ∧ registry.lookup key = some callee
  exits_mem : ∀ exit ∈ level.exits, exit ∈ stepIds level.steps
  leaf : ∀ t ∈ level.transitions, t.from ∉ level.exits ++ terminalIds level.steps

/-- A hierarchy whose flows are well formed, whose fragments return, and whose calls never recur. -/
structure Hierarchy.Ok (admitBuiltinOnly : Bool) (h : Hierarchy) : Prop where
  root : LevelOk admitBuiltinOnly h.registry h.root
  root_exits : h.root.exits = []
  callee : ∀ {key : SubflowId} {level : Subflow}, h.registry.lookup key = some level →
    LevelOk admitBuiltinOnly h.registry level
  callee_exits : ∀ {key : SubflowId} {level : Subflow}, h.registry.lookup key = some level → level.exits ≠ []
  callee_terminal : ∀ {key : SubflowId} {level : Subflow}, h.registry.lookup key = some level →
    ∀ step ∈ level.steps, step.kind ≠ .terminal
  acyclic : ∀ key, ¬ TransGen h.registry.Calls key key

theorem Subflow.step?_eq_some {l : Subflow} (hnd : (stepIds l.steps).Nodup) {id : StepId} {s : Step} :
    l.step? id = some s ↔ s ∈ l.steps ∧ s.id = id :=
  find?_step_eq_some hnd

namespace Hierarchy

variable {admitBuiltinOnly : Bool} {h : Hierarchy}

theorem levelOf_cons {s : StepId} {cs : Path} : h.levelOf (s :: cs) = (h.stepAt (s :: cs)).bind h.calleeOf := rfl

variable {level : Subflow}

theorem calleeOf_eq_some {s : Step} :
    h.calleeOf s = some level ↔
      s.kind = .subflowCall ∧ ∃ key, s.subflow = some key ∧ h.registry.lookup key = some level := by
  unfold calleeOf
  by_cases hc : s.kind = .subflowCall
  · rw [if_pos (by simpa using hc), bind_eq_some_iff]
    simp [hc]
  · rw [if_neg (by simpa using hc)]
    simp [hc]

theorem exists_lookup_of_levelOf_cons {s : StepId} {cs : Path} (hl : h.levelOf (s :: cs) = some level) :
    ∃ key, h.registry.lookup key = some level := by
  rw [levelOf_cons, bind_eq_some_iff] at hl
  obtain ⟨step, -, hc⟩ := hl
  obtain ⟨-, key, -, hlk⟩ := calleeOf_eq_some.mp hc
  exact ⟨key, hlk⟩

theorem mem_children {p q : Path} :
    q ∈ h.children p ↔ ∃ level, h.levelOf p = some level ∧ ∃ step ∈ level.steps, q = step.id :: p := by
  unfold children
  cases hl : h.levelOf p with
  | none => simp
  | some level => simp [eq_comm]

section Ok

variable (ok : h.Ok admitBuiltinOnly)

include ok

variable {p : Path} {s : StepId}

theorem levelOk_of_levelOf {level : Subflow} (hl : h.levelOf p = some level) :
    LevelOk admitBuiltinOnly h.registry level := by
  cases p with
  | nil =>
    cases hl
    exact ok.root
  | cons s cs =>
    obtain ⟨key, hlk⟩ := exists_lookup_of_levelOf_cons hl
    exact ok.callee hlk

theorem stepAt_cons {cs : Path} {st : Step} :
    h.stepAt (s :: cs) = some st ↔
      ∃ level, h.levelOf cs = some level ∧ st ∈ level.steps ∧ st.id = s := by
  rw [stepAt, bind_eq_some_iff]
  constructor
  · rintro ⟨level, hl, hs⟩
    exact ⟨level, hl, (Subflow.step?_eq_some (levelOk_of_levelOf ok hl).graph.nodup).mp hs⟩
  · rintro ⟨level, hl, hs⟩
    exact ⟨level, hl, (Subflow.step?_eq_some (levelOk_of_levelOf ok hl).graph.nodup).mpr hs⟩

/-- A call step is exactly a path with a level below it. -/
theorem isCall_cons_iff {cs : Path} : h.IsCall (s :: cs) ↔ ∃ level, h.levelOf (s :: cs) = some level := by
  constructor
  · rintro ⟨step, hs, hk⟩
    obtain ⟨level, hl, hm, -⟩ := (stepAt_cons ok).mp hs
    obtain ⟨key, callee, hke, hlk⟩ := (levelOk_of_levelOf ok hl).calls step hm hk
    refine ⟨callee, ?_⟩
    rw [levelOf_cons, hs, bind_some]
    exact calleeOf_eq_some.mpr ⟨hk, key, hke, hlk⟩
  · rintro ⟨level, hl⟩
    rw [levelOf_cons, bind_eq_some_iff] at hl
    obtain ⟨step, hs, hc⟩ := hl
    exact ⟨step, hs, (calleeOf_eq_some.mp hc).1⟩

/-- The path of a call or of nothing: where steps can be directly below. -/
theorem isCall_of_levelOf (hp : p ≠ []) {l : Subflow} (hl : h.levelOf p = some l) : h.IsCall p := by
  obtain ⟨s, cs, rfl⟩ := exists_cons_of_ne_nil hp
  exact (isCall_cons_iff ok).mpr ⟨l, hl⟩

/-- An exit belongs to a fragment, so its level is that of a call. -/
theorem isCall_of_exit {l : Subflow} (hl : h.levelOf p = some l) (hs : s ∈ l.exits) : h.IsCall p := by
  refine isCall_of_levelOf ok ?_ hl
  rintro rfl
  obtain rfl : h.root = l := some.inj hl
  rw [ok.root_exits] at hs
  cases hs

omit ok in
theorem IsCall.occurs (hc : h.IsCall p) : h.Occurs p := by
  obtain ⟨call, hs, -⟩ := hc
  exact ⟨call, hs⟩

omit ok in
theorem ne_nil_of_occurs (hp : h.Occurs p) : p ≠ [] := by
  rintro rfl
  obtain ⟨step, hs⟩ := hp
  cases hs

/-- A plain step has nothing below it. -/
theorem children_eq_nil_of_isPlain (hp : h.IsPlain p) : h.children p = [] := by
  obtain ⟨step, hs, hk⟩ := hp
  refine eq_nil_iff_forall_not_mem.mpr fun q hq => ?_
  obtain ⟨level, hl, -⟩ := mem_children.mp hq
  obtain ⟨s2, hs2, hk2⟩ := isCall_of_levelOf ok (ne_nil_of_occurs ⟨step, hs⟩) hl
  rw [hs, Option.some.injEq] at hs2
  exact hk (hs2 ▸ hk2)

/-- The children of a path are the steps directly below it. -/
theorem cons_mem_children : s :: p ∈ h.children p ↔ h.Occurs (s :: p) := by
  rw [mem_children, Occurs]
  constructor
  · rintro ⟨level, hl, step, hs, heq⟩
    exact ⟨step, (stepAt_cons ok).mpr ⟨level, hl, hs, by simpa [eq_comm] using heq⟩⟩
  · rintro ⟨step, hs⟩
    obtain ⟨level, hl, hm, rfl⟩ := (stepAt_cons ok).mp hs
    exact ⟨level, hl, step, hm, rfl⟩

/-! ### The depth of the hierarchy -/

/-- The keys called along a path: the last one is called from all the others, so they are distinct. -/
theorem exists_keys_of_levelOf : ∀ {p : Path} {l : Subflow}, h.levelOf p = some l →
    ∃ keys : List SubflowId, keys.length = p.length ∧ keys.Nodup ∧ keys ⊆ h.registry.map Prod.fst ∧
      ∀ key, keys.head? = some key → h.registry.lookup key = some l ∧
        ∀ key2 ∈ keys, ReflTransGen h.registry.Calls key2 key
  | [], l, _ => ⟨[], rfl, nodup_nil, by simp, by simp⟩
  | s :: cs, l, hl => by
    rw [levelOf_cons, bind_eq_some_iff] at hl
    obtain ⟨step, hs, hc⟩ := hl
    obtain ⟨hki, key, hke, hlk⟩ := calleeOf_eq_some.mp hc
    obtain ⟨c, hcl, hm, -⟩ := (stepAt_cons ok).mp hs
    obtain ⟨keys, hle, hnd, hsu, hh⟩ := exists_keys_of_levelOf hcl
    have hr : ∀ key2 ∈ keys, TransGen h.registry.Calls key2 key := by
      intro key2 hk2
      cases keys with
      | nil => cases hk2
      | cons k ks =>
        obtain ⟨hk, ha⟩ := hh k rfl
        exact TransGen.tail' (ha key2 hk2) ⟨c, hk, step, hm, hki, hke⟩
    refine ⟨key :: keys, by simp [hle], nodup_cons.mpr ⟨fun hin => ok.acyclic key (hr key hin), hnd⟩, ?_, ?_⟩
    · refine cons_subset.mpr ⟨?_, hsu⟩
      exact lookup_isSome_iff_mem_keys.mp (by simp [hlk])
    · intro key2 hk2
      obtain rfl : key = key2 := by simpa using hk2
      refine ⟨hlk, fun key3 hk3 => ?_⟩
      rcases mem_cons.mp hk3 with rfl | hk3
      · exact .refl
      · exact (hr key3 hk3).to_reflTransGen

theorem ranked_children : Preorder.Ranked h.children h.rank := by
  intro p q hq
  obtain ⟨level, hl, step, -, rfl⟩ := mem_children.mp hq
  -- a call is no deeper than there are definitions
  obtain ⟨keys, he, hnd, hs, -⟩ := exists_keys_of_levelOf ok hl
  have hle := (subperm_of_subset hnd hs).length_le
  rw [he, length_map] at hle
  simp only [rank, length_cons]
  omega

/-! ### Document order -/

/-- What lies below a path, by the parent relation, is what it is a suffix of. -/
theorem reflTransGen_children_iff {q : Path} (hp : p = [] ∨ h.Occurs p) :
    ReflTransGen (fun x y => y ∈ h.children x) p q ↔ p <:+ q ∧ (q = p ∨ h.Occurs q) := by
  constructor
  · intro hpq
    induction hpq with
    | refl => exact ⟨suffix_refl p, .inl rfl⟩
    | tail _ hs ih =>
      obtain ⟨level, hl, step, hm, rfl⟩ := mem_children.mp hs
      exact ⟨ih.1.trans (suffix_cons ..), .inr ⟨step, (stepAt_cons ok).mpr ⟨level, hl, hm, rfl⟩⟩⟩
  · rintro ⟨hsu, hq⟩
    induction q with
    | nil =>
      obtain rfl := suffix_nil.mp hsu
      exact .refl
    | cons s cs ih =>
      rcases hq with rfl | ⟨step, hs⟩
      · exact .refl
      rcases suffix_cons_iff.mp hsu with rfl | ht
      · exact .refl
      · obtain ⟨level, hl, hm, rfl⟩ := (stepAt_cons ok).mp hs
        refine .tail (ih ht ?_) (mem_children.mpr ⟨level, hl, step, hm, rfl⟩)
        cases cs with
        | nil => exact .inl (suffix_nil.mp ht).symm
        | cons c cs =>
          exact .inr ((isCall_cons_iff ok).mpr ⟨level, hl⟩).occurs

/-- The document order lists exactly the steps of the hierarchy. -/
theorem mem_documentOrder : p ∈ h.documentOrder ↔ h.Occurs p := by
  have hr : ReflTransGen (fun x y => y ∈ h.children x) [] p ↔ p = [] ∨ h.Occurs p := by
    rw [reflTransGen_children_iff ok (.inl rfl)]
    simp
  have hne : ¬ h.Occurs [] := by
    rintro ⟨step, hs⟩
    cases hs
  rw [documentOrder, mem_flatMap]
  constructor
  · rintro ⟨c, hc, hp⟩
    obtain ⟨level, hl, step, hm, rfl⟩ := mem_children.mp hc
    have ho : h.Occurs [step.id] := ⟨step, (stepAt_cons ok).mpr ⟨level, hl, hm, rfl⟩⟩
    obtain ⟨-, rfl | hp⟩ := (reflTransGen_children_iff ok (.inr ho)).mp ((Preorder.mem_subtree (ranked_children ok)).mp hp)
    · exact ho
    · exact hp
  · intro hp
    rcases ReflTransGen.cases_head (hr.mpr (.inr hp)) with rfl | ⟨c, hc, hcp⟩
    · exact absurd hp hne
    · exact ⟨c, hc, (Preorder.mem_subtree (ranked_children ok)).mpr hcp⟩

/-- No step is listed twice. -/
theorem nodup_subtree (p : Path) : (Preorder.subtree h.children h.rank p).Nodup := by
  induction hn : h.rank p using Nat.strongRecOn generalizing p with
  | ind n ih =>
    have hr := ranked_children ok
    have hbe : ∀ c ∈ h.children p, ∀ q ∈ Preorder.subtree h.children h.rank c, c <:+ q := by
      intro c hc q hq
      obtain ⟨level, hl, step, hm, rfl⟩ := mem_children.mp hc
      have ho : h.Occurs (step.id :: p) := ⟨step, (stepAt_cons ok).mpr ⟨level, hl, hm, rfl⟩⟩
      exact ((reflTransGen_children_iff ok (.inr ho)).mp ((Preorder.mem_subtree hr).mp hq)).1
    rw [Preorder.subtree_eq hr, nodup_cons, nodup_flatMap]
    refine ⟨?_, fun c hc => ih _ (hn ▸ hr p c hc) c rfl, ?_⟩
    · intro hp
      obtain ⟨c, hc, hpc⟩ := mem_flatMap.mp hp
      obtain ⟨level, hl, step, hm, rfl⟩ := mem_children.mp hc
      have hle := (hbe _ hc p hpc).length_le
      rw [length_cons] at hle
      omega
    · -- two siblings have the same length, so only one of them is a suffix of a given path
      unfold children
      cases hl : h.levelOf p with
      | none => exact List.Pairwise.nil
      | some level =>
        have hs := (levelOk_of_levelOf ok hl).graph.nodup
        refine pairwise_map.mpr ((pairwise_map.mp hs).imp_of_mem ?_)
        intro a b ha hb hne
        refine disjoint_left.mpr fun q hqa hqb => hne ?_
        have hsa := hbe _ (mem_children.mpr ⟨level, hl, a, ha, rfl⟩) q hqa
        have hsb := hbe _ (mem_children.mpr ⟨level, hl, b, hb, rfl⟩) q hqb
        have hab := suffix_of_suffix_length_le hsa hsb (by simp)
        have := hab.eq_of_length (by simp)
        simpa using this

theorem nodup_documentOrder : h.documentOrder.Nodup := by
  have hr := nodup_subtree ok []
  rw [Preorder.subtree_eq (ranked_children ok)] at hr
  exact (nodup_cons.mp hr).2

end Ok

end Hierarchy

/-! ### Names -/

theorem namespaced_toList (c id : StepId) :
    (namespaced c id).toList = c.toList ++ (namespaceSeparator.toList ++ id.toList) := by
  simp [namespaced, String.toList_append]

theorem namespaced_inj {c id id2 : StepId} (heq : namespaced c id = namespaced c id2) : id = id2 := by
  have hl := congrArg String.toList heq
  rw [namespaced_toList, namespaced_toList] at hl
  exact String.toList_inj.mp (append_cancel_left (append_cancel_left hl))

theorem strContains_namespaced (c id : StepId) : strContains (namespaced c id) namespaceSeparator = true := by
  rw [strContains, decide_eq_true_iff, namespaced_toList]
  exact ⟨c.toList, id.toList, by simp⟩

variable {p : Path}

theorem pathName_cons (hp : p ≠ []) (s : StepId) : pathName (s :: p) = namespaced (pathName p) s := by
  obtain ⟨c, cs, rfl⟩ := exists_cons_of_ne_nil hp
  rfl

/-- The name of a path below `u`: the name of `u`, then that of the rest. -/
theorem pathName_append {u : Path} (hu : u ≠ []) : ∀ {w : Path}, w ≠ [] →
    pathName (w ++ u) = namespaced (pathName u) (pathName w)
  | [], hw => absurd rfl hw
  | [s], _ => pathName_cons hu s
  | s :: c :: cs, _ => by
    have ih := pathName_append hu (w := c :: cs) (by simp)
    have hs : pathName (s :: c :: cs) = namespaced (pathName (c :: cs)) s := rfl
    rw [cons_append, pathName_cons (by simp), ih, hs]
    simp only [namespaced, String.append_assoc]

/-- A longer path has a longer name. -/
theorem length_pathName_lt {q : Path} (hp : p ≠ []) (hs : p <:+ q) (hne : p ≠ q) :
    (pathName p).toList.length < (pathName q).toList.length := by
  obtain ⟨w, rfl⟩ := hs
  have hw : w ≠ [] := by
    rintro rfl
    exact hne rfl
  rw [pathName_append hp hw, namespaced_toList]
  simp [namespaceSeparator]

/-- **A name tells a path from the steps of the levels it lies in**: no step directly below an
ancestor of `p` has the name of `p`, other than `p` itself. -/
theorem pathName_eq_sibling {u w : Path} {b : StepId} (hb : strContains b namespaceSeparator = false) (hw : w ≠ [])
    (heq : pathName (w ++ u) = pathName (b :: u)) : w = [b] := by
  have hn : pathName w = b := by
    by_cases hu : u = []
    · subst hu
      rw [append_nil] at heq
      exact heq
    · rw [pathName_append hu hw, pathName_cons hu] at heq
      exact namespaced_inj heq
  obtain ⟨s, cs, rfl⟩ := exists_cons_of_ne_nil hw
  by_cases hcs : cs = []
  · subst hcs
    exact congrArg (fun x => [x]) hn
  · rw [← hn, pathName_cons hcs, strContains_namespaced] at hb
    cases hb

end IronAuth.Journeys
