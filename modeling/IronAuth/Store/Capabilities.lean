import IronAuth.Lib.StackWalk
import IronAuth.Journeys.Compile

/-!
# The capabilities a journey exercises

The deriver of `ironauth-store/src/interchange.rs`. A capability is a dotted token: one of a closed
vocabulary, or one that carries a step kind, a node group or the name of a built-in subflow.
`derive_capabilities` walks the journey as it was authored and the table it compiles to, and
collects what it meets in a set.

The authored journey names what composition erases: the calls, the references to subflows, and the
keys that nested calls resolve by themselves. The table names what composition brings in. What runs
is the composed journey, so the question is whether the two walks together see all of it.
-/

namespace IronAuth.Store.Interchange

open Journeys Lib
open List hiding set

/-! ### The vocabulary -/

/-- The closed vocabulary. -/
inductive FixedCapability where
  | predicateCmp | predicateIn | predicateMember | predicateAnd | predicateOr | predicateNot
  | predicateAlways | predicateNever
  | opEq | opNe | opLt | opLe | opGt | opGe
  | fieldFlow | fieldSignals | fieldSubjectTraits | fieldSubjectGroups | fieldSubjectScopes | fieldRisk
  | memberGroup | memberScope
  | literalNull | literalBool | literalNumber | literalString
  | transitionGuard | decisionPredicate | decisionSandbox | subflowInline
  deriving DecidableEq

/-- The token of a capability of the vocabulary. -/
def FixedCapability.asWire : FixedCapability → String
  | predicateCmp => "predicate.cmp"
  | predicateIn => "predicate.in"
  | predicateMember => "predicate.member"
  | predicateAnd => "predicate.and"
  | predicateOr => "predicate.or"
  | predicateNot => "predicate.not"
  | predicateAlways => "predicate.always"
  | predicateNever => "predicate.never"
  | opEq => "predicate.op.eq"
  | opNe => "predicate.op.ne"
  | opLt => "predicate.op.lt"
  | opLe => "predicate.op.le"
  | opGt => "predicate.op.gt"
  | opGe => "predicate.op.ge"
  | fieldFlow => "predicate.field.flow"
  | fieldSignals => "predicate.field.signals"
  | fieldSubjectTraits => "predicate.field.subject_traits"
  | fieldSubjectGroups => "predicate.field.subject_groups"
  | fieldSubjectScopes => "predicate.field.subject_scopes"
  | fieldRisk => "predicate.field.risk"
  | memberGroup => "predicate.member.group"
  | memberScope => "predicate.member.scope"
  | literalNull => "predicate.literal.null"
  | literalBool => "predicate.literal.bool"
  | literalNumber => "predicate.literal.number"
  | literalString => "predicate.literal.string"
  | transitionGuard => "transition.guard"
  | decisionPredicate => "decision.predicate"
  | decisionSandbox => "decision.sandbox"
  | subflowInline => "subflow.inline"

/-- A capability, by its token. -/
structure Capability where
  wire : String
  deriving DecidableEq

namespace Capability

def fixed (capability : FixedCapability) : Capability := ⟨capability.asWire⟩

/-- A step of this kind. -/
def step (kind : StepKind) : Capability := ⟨"step." ++ kind.asWire⟩

/-- A step that renders under this node group. -/
def nodeGroup (group : String) : Capability := ⟨"node_group." ++ group⟩

/-- A built-in subflow. -/
def builtinSubflow (name : SubflowId) : Capability := ⟨"subflow.builtin." ++ name⟩

end Capability

/-- A `BTreeSet` of capabilities. -/
abbrev Capabilities := Finset Capability

/-! ### The walks -/

def cmpOpCapability : CmpOp → FixedCapability
  | .eq => .opEq
  | .ne => .opNe
  | .lt => .opLt
  | .le => .opLe
  | .gt => .opGt
  | .ge => .opGe

def fieldSourceCapability : FieldSource → FixedCapability
  | .flow => .fieldFlow
  | .signals => .fieldSignals
  | .subjectTraits => .fieldSubjectTraits
  | .subjectGroups => .fieldSubjectGroups
  | .subjectScopes => .fieldSubjectScopes
  | .risk => .fieldRisk

def memberSetCapability : MemberSet → FixedCapability
  | .group _ => .memberGroup
  | .scope _ => .memberScope

def literalCapability : Literal → FixedCapability
  | .null => .literalNull
  | .bool _ => .literalBool
  | .number _ => .literalNumber
  | .string _ => .literalString

/-- What one node of a predicate exercises by itself. -/
def nodeCapabilities : Predicate → List FixedCapability
  | .cmp field op value =>
    [.predicateCmp, cmpOpCapability op, fieldSourceCapability field.source, literalCapability value]
  | .in field values => .predicateIn :: fieldSourceCapability field.source :: values.map literalCapability
  | .member field set => [.predicateMember, fieldSourceCapability field.source, memberSetCapability set]
  | .and _ => [.predicateAnd]
  | .or _ => [.predicateOr]
  | .not _ => [.predicateNot]
  | .always => [.predicateAlways]
  | .never => [.predicateNever]

/-- What the loop pushes for a node. -/
def operandsOf : Predicate → List Predicate
  | .and operands | .or operands => operands
  | .not operand => [operand]
  | _ => []

mutual

/-- The nodes of a predicate, the last operand first. -/
def nodes : Predicate → List Predicate
  | .and operands => .and operands :: nodesBelow operands
  | .or operands => .or operands :: nodesBelow operands
  | .not operand => .not operand :: nodes operand
  | p => [p]

/-- The nodes of a list of operands, the last operand first. -/
def nodesBelow : List Predicate → List Predicate
  | [] => []
  | p :: ps => nodesBelow ps ++ nodes p

end

/-- Insert capabilities of the vocabulary one by one. -/
def insertFixed (out : Capabilities) (capabilities : List FixedCapability) : Capabilities :=
  capabilities.foldl (fun out capability => insert (Capability.fixed capability) out) out

/-- `walk_predicate`: pop a node, insert what it exercises, push its operands; one turn for each
node. -/
def walkPredicate (root : Predicate) (out : Capabilities) : Capabilities :=
  (StackWalk.walk operandsOf (nodes root).length [root]).foldl (fun out node => insertFixed out (nodeCapabilities node)) out

def walkDecision (decision : DecisionSpec) (out : Capabilities) : Capabilities :=
  match decision with
  | .predicate predicate =>
    walkPredicate predicate (insert (.fixed .decisionPredicate) (insert (.fixed .decisionSandbox) out))

/-- What the walk of a step and the walk of a compiled step do. -/
def walkStep (kind : StepKind) (nodeGroup : Option String) (decision : Option DecisionSpec) (out : Capabilities) :
    Capabilities :=
  let out := insert (Capability.step kind) out
  let out := match nodeGroup with
    | some group => insert (Capability.nodeGroup group) out
    | none => out
  match decision with
  | some decision => walkDecision decision out
  | none => out

/-- What the walk of a transition and the walk of a compiled edge do. -/
def walkGuard (guard : Option Predicate) (out : Capabilities) : Capabilities :=
  match guard with
  | some guard => walkPredicate guard (insert (.fixed .transitionGuard) out)
  | none => out

def walkSteps (steps : List Step) (out : Capabilities) : Capabilities :=
  steps.foldl (fun out step => walkStep step.kind step.nodeGroup step.decision out) out

def walkTransitions (transitions : List Transition) (out : Capabilities) : Capabilities :=
  transitions.foldl (fun out transition => walkGuard transition.guard out) out

def walkSubflowReference (reference : SubflowRef) (out : Capabilities) : Capabilities :=
  match reference.source with
  | .builtin name => insert (.builtinSubflow name) out
  | .inline _ => insert (.fixed .subflowInline) out

/-- The loop over the bodies whose calls are still to be looked at, the top of the stack first. -/
structure CallWalk where
  out : Capabilities
  visited : List SubflowId
  pending : List Subflow

/-- One step of a body: a key of the registry is the built-in, and its body is pushed once. -/
def CallWalk.visit (walk : CallWalk) (step : Step) : CallWalk :=
  match step.subflow with
  | none => walk
  | some key =>
    match builtinSubflows.lookup key with
    | some body =>
      let out := insert (Capability.builtinSubflow key) walk.out
      if key ∈ walk.visited then ⟨out, walk.visited, walk.pending⟩
      else ⟨out, key :: walk.visited, body :: walk.pending⟩
    | none => ⟨insert (Capability.fixed .subflowInline) walk.out, walk.visited, walk.pending⟩

/-- Pop a body and look at its steps, until none is pending. -/
def CallWalk.run : ℕ → CallWalk → CallWalk
  | 0, walk => walk
  | fuel + 1, walk =>
    match walk.pending with
    | [] => walk
    | body :: pending => run fuel (body.steps.foldl visit ⟨walk.out, walk.visited, pending⟩)

/-- `walk_nested_subflow_calls`: one turn for each definition, and one for each built-in. -/
def walkNestedSubflowCalls (source : Journey) (out : Capabilities) : Capabilities :=
  (CallWalk.run ((inlineDefinitions source).length + builtinSubflows.length)
    ⟨out, [], (inlineDefinitions source).reverse⟩).out

/-- The walk of the authored journey. -/
def walkSource (source : Journey) (out : Capabilities) : Capabilities :=
  let out := walkSteps source.steps out
  let out := walkTransitions source.transitions out
  let out := (source.subflows.getD []).foldl (fun out reference => walkSubflowReference reference out) out
  let out := (inlineDefinitions source).foldl
    (fun out definition => walkTransitions definition.transitions (walkSteps definition.steps out)) out
  walkNestedSubflowCalls source out

/-- The walk of the table. -/
def walkCompiled (compiled : CompiledJourney) (out : Capabilities) : Capabilities :=
  let out := compiled.steps.entries.foldl
    (fun out entry => walkStep entry.2.kind entry.2.nodeGroup entry.2.decision out) out
  compiled.transitions.entries.foldl
    (fun out entry => entry.2.foldl (fun out edge => walkGuard edge.guard out) out) out

def deriveCapabilities (source : Journey) (compiled : CompiledJourney) : Capabilities :=
  walkCompiled compiled (walkSource source ∅)

/-! ### What is exercised -/

/-- What a predicate exercises: what its nodes do. -/
def predicateCapabilities (predicate : Predicate) : List Capability :=
  (nodes predicate).flatMap fun node => (nodeCapabilities node).map .fixed

/-- What a decision attachment exercises. -/
def decisionCapabilities : DecisionSpec → List Capability
  | .predicate predicate => .fixed .decisionSandbox :: .fixed .decisionPredicate :: predicateCapabilities predicate

/-- What a kind, a node group and a decision attachment exercise together. -/
def exercisedBy (kind : StepKind) (nodeGroup : Option String) (decision : Option DecisionSpec) : List Capability :=
  .step kind :: (nodeGroup.toList.map .nodeGroup ++ decision.toList.flatMap decisionCapabilities)

/-- What a step exercises. -/
def stepCapabilities (step : Step) : List Capability := exercisedBy step.kind step.nodeGroup step.decision

/-- What a transition exercises: its guard. -/
def guardCapabilities (guard : Option Predicate) : List Capability :=
  guard.toList.flatMap fun guard => .fixed .transitionGuard :: predicateCapabilities guard

/-- The keys of the definitions that composition splices in, in the order in which it does. -/
def splicedKeys (registry : Registry) : ℕ → Journey → List SubflowId
  | 0, _ => []
  | fuel + 1, flat =>
    match flat.steps.findIdx? fun step => step.kind.isCall with
    | none => []
    | some index =>
      (flat.steps[index]?.bind Step.subflow).toList ++
        ((inlineOne flat index registry).map (splicedKeys registry fuel)).getD []

/-- The built-in subflows that composition splices into a journey, at any depth. -/
def splicedBuiltins (journey : Journey) : List SubflowId :=
  (splicedKeys (fullRegistry journey) ((hierarchy journey).documentOrder.length + 1) (initialFlat journey)).filter
    fun key => (builtinSubflows.lookup key).isSome

/-! ### What the walks collect -/

variable {out : Capabilities} {c : Capability}

theorem nodesBelow_eq (ps : List Predicate) : nodesBelow ps = ps.reverse.flatMap nodes := by
  induction ps with
  | nil => rfl
  | cons p ps ih => rw [nodesBelow, ih, reverse_cons, flatMap_append, flatMap_singleton]

theorem nodes_eq (p : Predicate) : nodes p = p :: (operandsOf p).reverse.flatMap nodes := by
  cases p with
  | and | or => rw [nodes, nodesBelow_eq, operandsOf]
  | not o => rw [nodes, operandsOf, reverse_singleton, flatMap_singleton]
  | _ => rfl

/-- **The loop with its own stack sees every node of the predicate.** -/
theorem mem_walkPredicate {root : Predicate} :
    c ∈ walkPredicate root out ↔ c ∈ out ∨ c ∈ predicateCapabilities root := by
  have hw : StackWalk.walk operandsOf (nodes root).length [root] = nodes root := by
    rw [StackWalk.walk_eq_flatMap nodes_eq _ _ (by rw [flatMap_singleton]), flatMap_singleton]
  have hn : ∀ (out : Capabilities) (n : Predicate) (c : Capability),
      c ∈ insertFixed out (nodeCapabilities n) ↔ c ∈ out ∨ c ∈ (nodeCapabilities n).map .fixed := by
    intro out n c
    have ho : ∀ (out : Capabilities) (a : FixedCapability) (c : Capability),
        c ∈ insert (Capability.fixed a) out ↔ c ∈ out ∨ c ∈ [Capability.fixed a] := by
      intro out a c
      rw [Finset.mem_insert, mem_singleton, or_comm]
    rw [insertFixed, Loops.mem_foldl_iff ho]
    simp [eq_comm]
  rw [walkPredicate, hw, Loops.mem_foldl_iff hn, predicateCapabilities, mem_flatMap]

theorem mem_walkDecision {decision : DecisionSpec} :
    c ∈ walkDecision decision out ↔ c ∈ out ∨ c ∈ decisionCapabilities decision := by
  cases decision with
  | predicate predicate =>
    simp [walkDecision, mem_walkPredicate, decisionCapabilities, or_assoc, or_left_comm, or_comm]

theorem mem_walkStep {k : StepKind} {n : Option String} {decision : Option DecisionSpec} :
    c ∈ walkStep k n decision out ↔ c ∈ out ∨ c ∈ exercisedBy k n decision := by
  cases n <;> cases decision <;>
    simp [walkStep, exercisedBy, mem_walkDecision, or_assoc, or_left_comm, or_comm]

/-- The edges of one step, or the transitions of a document. -/
theorem mem_foldl_walkGuard {α : Type} (g : α → Option Predicate) (as : List α) (out : Capabilities) (c : Capability) :
    c ∈ as.foldl (fun out a => walkGuard (g a) out) out ↔ c ∈ out ∨ ∃ a ∈ as, c ∈ guardCapabilities (g a) := by
  have hgd : ∀ (out : Capabilities) (a : α) (c : Capability),
      c ∈ walkGuard (g a) out ↔ c ∈ out ∨ c ∈ guardCapabilities (g a) := by
    intro out a c
    cases g a <;> simp [walkGuard, guardCapabilities, mem_walkPredicate, or_assoc, or_left_comm]
  rw [Loops.mem_foldl_iff hgd]

/-- **What the walk of the table collects**: what its steps and its edges exercise. -/
theorem mem_walkCompiled {cj : CompiledJourney} :
    c ∈ walkCompiled cj out ↔ c ∈ out ∨
      (∃ e ∈ cj.steps.entries, c ∈ exercisedBy e.2.kind e.2.nodeGroup e.2.decision) ∨
      ∃ e ∈ cj.transitions.entries, ∃ ed ∈ e.2, c ∈ guardCapabilities ed.guard := by
  have hs : ∀ (out : Capabilities) (e : Sigma fun _ : StepId => CompiledStep) (c : Capability),
      c ∈ walkStep e.2.kind e.2.nodeGroup e.2.decision out ↔
        c ∈ out ∨ c ∈ exercisedBy e.2.kind e.2.nodeGroup e.2.decision :=
    fun _ _ _ => mem_walkStep
  have hed : ∀ (out : Capabilities) (e : Sigma fun _ : StepId => List (GuardedEdge StepId)) (c : Capability),
      c ∈ e.2.foldl (fun out ed => walkGuard ed.guard out) out ↔
        c ∈ out ∨ c ∈ e.2.flatMap fun ed => guardCapabilities ed.guard := by
    intro out e c
    rw [mem_foldl_walkGuard, mem_flatMap]
  rw [walkCompiled, Loops.mem_foldl_iff hed, Loops.mem_foldl_iff hs, or_assoc]
  simp [mem_flatMap]

/-! ### Nested calls -/

namespace CallWalk

/-- The turns that are still to come: the bodies that are pending, and the built-ins that are not
visited. -/
def left (walk : CallWalk) : ℕ :=
  walk.pending.length + (builtinSubflows.filter fun entry => entry.1 ∉ walk.visited).length

/-- What a step leaves: it collects, it may push, and it makes no more turns necessary. -/
structure Grows (walk walk2 : CallWalk) : Prop where
  out : walk.out ⊆ walk2.out
  pending : walk.pending ⊆ walk2.pending
  left : walk2.left ≤ walk.left

theorem Grows.refl (walk : CallWalk) : Grows walk walk := ⟨fun _ h => h, fun _ h => h, le_rfl⟩

theorem Grows.trans {w w2 walk3 : CallWalk} (h : Grows w w2) (h2 : Grows w2 walk3) : Grows w walk3 :=
  ⟨h.out.trans h2.out, fun _ hb => h2.pending (h.pending hb), h2.left.trans h.left⟩

variable {key : SubflowId} {body : Subflow}

theorem grows_visit (w : CallWalk) (s : Step) : Grows w (w.visit s) := by
  cases hs : s.subflow with
  | none => simpa only [visit, hs] using Grows.refl w
  | some key =>
    cases hb : builtinSubflows.lookup key with
    | none =>
      simp only [visit, hs, hb]
      exact ⟨Finset.subset_insert .., fun _ h => h, le_rfl⟩
    | some body =>
      by_cases hk : key ∈ w.visited
      · simp only [visit, hs, hb, hk, if_true]
        exact ⟨Finset.subset_insert .., fun _ h => h, le_rfl⟩
      · -- a built-in that is visited now was not visited before
        have hlt := Worklist.length_filter_notMem_cons (builtinSubflows.map Prod.fst) hk
        have hc : 0 < (builtinSubflows.map Prod.fst).count key :=
          count_pos_iff.mpr (lookup_isSome_iff_mem_keys.mp (by simp [hb]))
        simp only [filter_map, length_map, Function.comp_def] at hlt
        simp only [visit, hs, hb, hk, if_false]
        refine ⟨Finset.subset_insert .., subset_cons_self .., ?_⟩
        simp only [left, length_cons]
        omega

theorem grows_foldl_visit (s : List Step) (w : CallWalk) : Grows w (s.foldl visit w) := by
  induction s generalizing w with
  | nil => exact .refl w
  | cons step s ih => exact (grows_visit w step).trans (ih (w.visit step))

theorem builtin_mem_foldl_visit {s : List Step} {st : Step} (hs : st ∈ s)
    (hk : st.subflow = some key) (hb : builtinSubflows.lookup key = some body) (w : CallWalk) :
    Capability.builtinSubflow key ∈ (s.foldl visit w).out := by
  induction s generalizing w with
  | nil => cases hs
  | cons first s ih =>
    rcases mem_cons.mp hs with rfl | hr
    · refine (grows_foldl_visit s _).out ?_
      simp only [visit, hk, hb]
      split <;> exact Finset.mem_insert_self ..
    · exact ih hr _

theorem out_subset_run (f : ℕ) (w : CallWalk) : w.out ⊆ (run f w).out := by
  induction f generalizing w with
  | zero => exact fun _ h => h
  | succ f ih =>
    unfold run
    cases w.pending with
    | nil => exact fun _ h => h
    | cons body pending => exact (grows_foldl_visit body.steps ⟨w.out, w.visited, pending⟩).out.trans (ih _)

/-- **With a turn for each pending body and each built-in, every key a pending body calls is seen.** -/
theorem builtin_mem_run {f : ℕ} {w : CallWalk} (hf : w.left ≤ f) {d : Subflow}
    (hd : d ∈ w.pending) {s : Step} (hs : s ∈ d.steps)
    (hk : s.subflow = some key) (hb : builtinSubflows.lookup key = some body) :
    Capability.builtinSubflow key ∈ (run f w).out := by
  induction f generalizing w with
  | zero =>
    have hp := length_pos_of_mem hd
    rw [left] at hf
    omega
  | succ f ih =>
    obtain ⟨out, visited, pending⟩ := w
    cases pending with
    | nil => cases hd
    | cons first pending =>
      have hg := grows_foldl_visit first.steps ⟨out, visited, pending⟩
      rcases mem_cons.mp hd with rfl | hr
      · exact out_subset_run f _ (builtin_mem_foldl_visit hs hk hb _)
      · refine ih (hg.left.trans ?_) (hg.pending hr)
        simp only [left, length_cons] at hf ⊢
        omega

end CallWalk

variable {src doc : Journey} {key : SubflowId} {ref : SubflowRef}

/-! ### What composition splices in -/

/-- A key that a call names is derived when it is a built-in. -/
def Seen (out : Capabilities) (step : Step) : Prop :=
  step.kind = .subflowCall → ∀ key ∈ step.subflow, (builtinSubflows.lookup key).isSome → Capability.builtinSubflow key ∈ out

/-- **Along the loop, every key that is spliced in was seen**: the calls of the working document are
those it started with and those of the fragments. -/
theorem seen_splicedKeys {reg : Registry}
    (hr : ∀ key d, reg.lookup key = some d → ∀ step ∈ d.steps, Seen out step)
    (f : ℕ) {flat : Journey} (hf : ∀ step ∈ flat.steps, Seen out step)
    (hk : key ∈ splicedKeys reg f flat) (hbi : (builtinSubflows.lookup key).isSome) :
    Capability.builtinSubflow key ∈ out := by
  induction f generalizing flat with
  | zero => cases hk
  | succ f ih =>
    rw [splicedKeys] at hk
    cases hfi : flat.steps.findIdx? fun step => step.kind.isCall with
    | none => rw [hfi] at hk; cases hk
    | some i =>
      obtain ⟨before, call, after, hst, hl, hc, -⟩ := Loops.exists_split_of_findIdx? hfi
      have hg : flat.steps[i]? = some call := by simp [hst, hl]
      have hm : call ∈ flat.steps := hst ▸ mem_append_right _ (mem_cons_self ..)
      simp only [hfi, hg, Option.bind_some, mem_append, Option.mem_toList] at hk
      rcases hk with hk | hk
      · exact hf call hm (StepKind.isCall_eq_true.mp hc) key hk hbi
      · cases ho : inlineOne flat i reg with
        | none => rw [ho] at hk; cases hk
        | some f2 =>
          rw [ho] at hk
          suffices hf2 : ∀ step ∈ f2.steps, Seen out step from ih hf2 hk
          simp only [inlineOne, hg, Option.bind_some, Option.bind_eq_some_iff, Option.map_eq_some_iff] at ho
          obtain ⟨cl, -, d, hlk, rfl⟩ := ho
          intro step hs
          rcases mem_append.mp hs with hs | hs
          · rcases mem_append.mp hs with hs | hs
            · exact hf step (mem_of_mem_take hs)
            · -- a spliced step calls what the fragment's step calls
              obtain ⟨o, ho, rfl⟩ := mem_map.mp hs
              have hse := hr cl d hlk o ho
              simp only
              split <;> exact hse
          · exact hf step (mem_of_mem_drop hs)

/-! ### The authored journey -/

/-- What a reference exercises. -/
def referenceCapability : SubflowSource → Capability
  | .builtin name => .builtinSubflow name
  | .inline _ => .fixed .subflowInline

/-- Walking the definitions takes nothing away. -/
theorem subset_foldl_definitions (d : List Subflow) (out : Capabilities) :
    out ⊆ d.foldl
      (fun out de => walkTransitions de.transitions (walkSteps de.steps out)) out := by
  induction d generalizing out with
  | nil => exact fun _ h => h
  | cons de d ih =>
    refine subset_trans (fun c hc => ?_) (ih _)
    refine (mem_foldl_walkGuard Transition.guard _ _ c).mpr (.inl ?_)
    exact (Loops.mem_foldl_iff (R := fun step c => c ∈ stepCapabilities step) (fun _ _ _ => mem_walkStep) _ _ c).mpr (.inl hc)

theorem reference_mem_walkSource (hr : ref ∈ src.subflows.getD []) :
    referenceCapability ref.source ∈ walkSource src out := by
  have ho : ∀ (out : Capabilities) (ref : SubflowRef) (c : Capability),
      c ∈ walkSubflowReference ref out ↔ c ∈ out ∨ c ∈ [referenceCapability ref.source] := by
    intro out ref c
    rw [mem_singleton, or_comm, walkSubflowReference]
    cases ref.source with
    | builtin | inline => exact Finset.mem_insert
  refine CallWalk.out_subset_run ((inlineDefinitions src).length + builtinSubflows.length)
    ⟨_, [], (inlineDefinitions src).reverse⟩ (subset_foldl_definitions _ _ ?_)
  exact (Loops.mem_foldl_iff ho _ _ _).mpr (.inr ⟨ref, hr, mem_singleton_self _⟩)

/-- The calls of the journey itself: an alias stands for a reference, and the references are
walked. A reference to a definition of the journey is not to a built-in. -/
theorem seen_initialFlat (hd : JourneyOk true false doc) :
    ∀ step ∈ (initialFlat doc).steps, Seen (walkSource doc ∅) step := by
  intro step hs hk key hke hbi
  obtain ⟨o, ho, rfl⟩ := mem_map.mp hs
  rw [normalizeCall_kind] at hk
  have hok := hd.steps o ho
  obtain ⟨name, hn⟩ := Option.isSome_iff_exists.mp (hok.coherent.call hk)
  obtain ⟨key2, callee, ha, -⟩ := exists_lookup_of_alias hd.subflows (hok.keys name hn)
  have hno : (normalizeCall (aliasToKey doc) o).subflow = some key2 := by
    simp [normalizeCall, hk, hn, ha]
  obtain rfl : key2 = key := by rw [hno] at hke; exact Option.some.inj hke
  obtain ⟨f, rest, hsp, -⟩ := lookup_eq_some_iff.mp ha
  have he : (name, key2) ∈ aliasToKey doc := hsp ▸ mem_append_right _ (mem_cons_self ..)
  obtain ⟨reference, hr, heq⟩ := mem_map.mp (mem_reverse.mp he)
  obtain ⟨-, rfl⟩ := Prod.mk.inj heq
  have hse : referenceCapability reference.source ∈ walkSource doc ∅ := reference_mem_walkSource hr
  have hre := hd.subflows.resolves reference hr
  cases hsr : reference.source with
  | builtin n2 => rwa [hsr] at hse
  | inline s =>
    rw [hsr] at hre hbi
    obtain ⟨d, hde, rfl⟩ := mem_map.mp hre
    exact absurd (lookup_isSome_iff_mem_keys.mp hbi) (hd.subflows.fresh d hde)

/-- The calls of the definitions: those of the journey are walked, and the built-in has none. -/
theorem seen_fullRegistry (hd : JourneyOk true false doc) (key : SubflowId) (d : Subflow)
    (hlk : (fullRegistry doc).lookup key = some d) :
    ∀ step ∈ d.steps, Seen (walkSource doc ∅) step := by
  intro step hs _ cl hc hbi
  rcases (lookup_fullRegistry hd.subflows).mp hlk with ⟨-, rfl⟩ | ⟨hde, -⟩
  · obtain rfl := mem_singleton.mp hs
    cases hc
  · obtain ⟨body, hb⟩ := Option.isSome_iff_exists.mp hbi
    refine CallWalk.builtin_mem_run ?_ (mem_reverse.mpr hde) hs hc hb
    simp only [CallWalk.left, length_reverse]
    have hle := length_filter_le (fun e : SubflowId × Subflow => decide (e.1 ∉ ([] : List SubflowId))) builtinSubflows
    omega

/-! ### The composed journey -/

section Composed

variable {doc flat : Journey}

/-- What a step of the composed journey exercises is derived. -/
theorem step_mem_deriveCapabilities (hf : composeInner doc false = some (.ok flat)) {s : Step} (hs : s ∈ flat.steps)
    {c : Capability} (hc : c ∈ stepCapabilities s) : c ∈ deriveCapabilities doc (lower flat) := by
  have hnd : (stepIds flat.steps).Nodup :=
    (validateErrors_eq_nil.mp (composeInner_eq_ok.mp hf).2.2).1.graph.nodup
  have hl : (lower flat).step s.id = some (compileStep s) := (step_lower hnd).mpr ⟨s, hs, rfl, rfl⟩
  have he := AList.mem_lookup_iff.mp hl
  exact mem_walkCompiled.mpr (.inr (.inl ⟨_, he, hc⟩))

/-- What the guard of a transition of the composed journey exercises is derived. -/
theorem transition_mem_deriveCapabilities {t : Transition} (ht : t ∈ flat.transitions) {c : Capability}
    (hc : c ∈ guardCapabilities t.guard) : c ∈ deriveCapabilities doc (lower flat) := by
  have he : (⟨t.to, t.guard⟩ : GuardedEdge StepId) ∈ (lower flat).edges t.from := by
    rw [edges_lower]
    exact mem_map.mpr ⟨t, mem_filter.mpr ⟨ht, by simp⟩, rfl⟩
  cases hed : (lower flat).transitions.lookup t.from with
  | none =>
    rw [CompiledJourney.edges, hed] at he
    cases he
  | some edges =>
    rw [CompiledJourney.edges, hed] at he
    exact mem_walkCompiled.mpr (.inr (.inr ⟨_, AList.mem_lookup_iff.mp hed, _, he, hc⟩))

/-- **A built-in that composition splices in, at any depth, is derived.** -/
theorem builtinSubflow_mem_deriveCapabilities (hd : JourneyOk true false doc) (compiled : CompiledJourney) {n : SubflowId}
    (hn : n ∈ splicedBuiltins doc) : Capability.builtinSubflow n ∈ deriveCapabilities doc compiled := by
  obtain ⟨hk, hbi⟩ := mem_filter.mp hn
  refine mem_walkCompiled.mpr (.inl ?_)
  exact seen_splicedKeys (seen_fullRegistry hd) _ (seen_initialFlat hd) hk hbi

end Composed

end IronAuth.Store.Interchange
