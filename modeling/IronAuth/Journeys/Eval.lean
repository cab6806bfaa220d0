import IronAuth.Journeys.Artifact

/-!
# Predicates: evaluation and the load-time type check

The evaluator of `ironauth-journey/src/eval.rs`: the typed context a guard reads,
the total evaluation of a predicate against it, and the type check every guard
passes before it can be stored. Both recurse over the predicate with a nesting
depth and refuse to go past `maxPredicateDepth`, which is the only way evaluation
can fail.
-/

namespace IronAuth.Journeys

open List hiding set

/-! ### The evaluation context -/

/-- A JSON value (`serde_json::Value`); an object is its list of members. -/
inductive Json where
  | null
  | bool (b : Bool)
  | number (n : Number)
  | string (s : String)
  | array (items : List Json)
  | object (members : List (String × Json))

/-- The step outcome signals. -/
inductive OutcomeSignal where
  | primaryVerified | mfaRequired | enrollRequired | profilingPending
  deriving DecidableEq

/-- Parse a signal's wire name. -/
def OutcomeSignal.fromWire (raw : String) : Option OutcomeSignal :=
  if raw = "primary_verified" then some .primaryVerified
  else if raw = "mfa_required" then some .mfaRequired
  else if raw = "enroll_required" then some .enrollRequired
  else if raw = "profiling_pending" then some .profilingPending
  else none

/-- The signals that hold. -/
structure SignalSet where
  signals : List OutcomeSignal

/-- Whether a signal is asserted. -/
def SignalSet.asserted (set : SignalSet) (signal : OutcomeSignal) : Bool := set.signals.contains signal

/-- The categorical risk level. -/
inductive RiskLevel where
  | low | medium | high
  deriving DecidableEq

/-- The wire name of a level. -/
def RiskLevel.asWire : RiskLevel → String
  | low => "low"
  | medium => "medium"
  | high => "high"

/-- The risk decision a guard reads. -/
structure RiskView where
  level : RiskLevel
  score : UInt32

/-- Flow-local state. -/
structure FlowContext where
  stepId : String
  methodTokens : List String
  subjectHandle : String
  signals : SignalSet

/-- Everything a predicate can read. -/
structure EvalContext where
  flow : FlowContext
  subjectTraits : Json
  subjectGroups : List String
  subjectScopes : List String
  risk : RiskView

/-! ### Resolving a field -/

/-- Replace every occurrence of the pair `a b` by `c`. -/
def replacePair (a b c : Char) : List Char → List Char
  | x :: y :: rest =>
      if x = a ∧ y = b then c :: replacePair a b c rest else x :: replacePair a b c (y :: rest)
  | rest => rest

/-- An array index of a JSON pointer: decimal digits, no sign and no leading zero. -/
def parseIndex (token : List Char) : Option ℕ :=
  if token.head? = some '0' ∧ token.length ≠ 1 then none
  else if token ≠ [] ∧ token.all Char.isDigit then
    let n := token.foldl (fun acc c => acc * 10 + (c.toNat - '0'.toNat)) 0
    if n < 2 ^ 64 then some n else none
  else none

/-- One token of a JSON pointer. -/
def Json.child (token : List Char) : Json → Option Json
  | .object members => members.lookup (String.ofList token)
  | .array items => (parseIndex token).bind fun i => items[i]?
  | _ => none

/-- `Value::pointer` (RFC 6901). -/
def Json.pointer (value : Json) (pointer : String) : Option Json :=
  match pointer.toList with
  | [] => some value
  | c :: rest =>
      if c ≠ '/' then none
      else ((rest.splitOn '/').map fun token => replacePair '~' '0' '~' (replacePair '~' '1' '/' token)).foldl
        (fun target token => target.bind (Json.child token)) (some value)

/-- A scalar the evaluator compares. -/
inductive ResolvedScalar where
  | null
  | bool (b : Bool)
  | number (n : Number)
  | str (s : String)

/-- What a field resolves to. -/
inductive Resolution where
  | scalar (s : ResolvedScalar)
  | nonScalar

/-- A primitive is a scalar; an array or an object is not. -/
def valueToResolution : Json → Resolution
  | .null => .scalar .null
  | .bool b => .scalar (.bool b)
  | .number n => .scalar (.number n)
  | .string s => .scalar (.str s)
  | .array _ | .object _ => .nonScalar

/-- The signal a `signals` pointer names. -/
def signalFromPointer (pointer : String) : Option OutcomeSignal :=
  match pointer.toList with
  | '/' :: rest => OutcomeSignal.fromWire (String.ofList rest)
  | _ => none

/-- Resolve a field against the context. -/
def EvalContext.resolveScalar (ctx : EvalContext) (field : FieldRef) : Resolution :=
  match field.source with
  | .flow =>
      if field.pointer = "/step_id" then .scalar (.str ctx.flow.stepId)
      else if field.pointer = "/subject" then .scalar (.str ctx.flow.subjectHandle)
      else if field.pointer = "/method_tokens" then .nonScalar
      else .scalar .null
  | .signals =>
      match signalFromPointer field.pointer with
      | some signal => .scalar (.bool (ctx.flow.signals.asserted signal))
      | none => .scalar .null
  | .subjectTraits =>
      match ctx.subjectTraits.pointer field.pointer with
      | some value => valueToResolution value
      | none => .scalar .null
  | .subjectGroups | .subjectScopes => .nonScalar
  | .risk =>
      if field.pointer = "/level" then .scalar (.str ctx.risk.level.asWire)
      else if field.pointer = "/score" then .scalar (.number (.posInt ctx.risk.score.toUInt64))
      else .scalar .null

/-! ### Comparing -/

/-- `Number::as_i64`. -/
def Number.asI64 : Number → Option ℤ
  | posInt n => if n.toNat < 2 ^ 63 then some n.toNat else none
  | negInt n => some n.toInt
  | float _ => none

/-- `Number::as_u64`. -/
def Number.asU64 : Number → Option ℕ
  | posInt n => some n.toNat
  | _ => none

/-- Round a natural to the nearest double, ties to even: 53 bits of significand. -/
def roundToDouble (n : ℕ) : ℕ :=
  if n < 2 ^ 53 then n
  else
    let shift := n.log2 - 52
    let kept := n / 2 ^ shift
    let dropped := n % 2 ^ shift
    let up := 2 ^ (shift - 1) < dropped ∨ (dropped = 2 ^ (shift - 1) ∧ kept % 2 = 1)
    (if up then kept + 1 else kept) * 2 ^ shift

/-- `Number::as_f64`, as the rational the double denotes. -/
def Number.asF64 : Number → ℚ
  | posInt n => roundToDouble n.toNat
  | negInt n => -(roundToDouble n.toInt.natAbs : ℚ)
  | float q => q

/-- Order two numbers, exactly when both are integers of one signedness and as doubles otherwise. -/
def numOrdering (a b : Number) : Option Ordering :=
  match a.asI64, b.asI64 with
  | some x, some y => some (compare x y)
  | _, _ =>
    match a.asU64, b.asU64 with
    | some x, some y => some (compare x y)
    | _, _ => some (cmp a.asF64 b.asF64)

/-- Typed equality: equal only when type and value agree. -/
def typedEq : ResolvedScalar → Literal → Bool
  | .null, .null => true
  | .bool a, .bool b => a == b
  | .number a, .number b => numOrdering a b == some .eq
  | .str a, .string b => a == b
  | _, _ => false

/-- Ordering, defined between two numbers or two strings. -/
def typedOrdering : ResolvedScalar → Literal → Option Ordering
  | .number a, .number b => numOrdering a b
  | .str a, .string b => some (compare a b)
  | _, _ => none

/-- Whether an ordering satisfies an ordering operator. -/
def applyOrdering (ordering : Ordering) : CmpOp → Bool
  | .lt => ordering == .lt
  | .le => ordering != .gt
  | .gt => ordering == .gt
  | .ge => ordering != .lt
  | .eq | .ne => false

/-- Apply a comparison operator under the total rules. -/
def compareResolved : Resolution → CmpOp → Literal → Bool
  | .nonScalar, op, _ => op == .ne
  | .scalar s, .eq, literal => typedEq s literal
  | .scalar s, .ne, literal => !typedEq s literal
  | .scalar s, op, literal =>
      match typedOrdering s literal with
      | some ordering => applyOrdering ordering op
      | none => false

/-- An `in` test. -/
def evalIn (ctx : EvalContext) (field : FieldRef) (values : List Literal) : Bool :=
  match ctx.resolveScalar field with
  | .scalar s => values.any (typedEq s)
  | .nonScalar => false

/-- A membership test. -/
def evalMember (ctx : EvalContext) : MemberSet → Bool
  | .group name => ctx.subjectGroups.contains name
  | .scope name => ctx.subjectScopes.contains name

/-! ### Evaluation -/

/-- `MAX_PREDICATE_DEPTH`. -/
def maxPredicateDepth : ℕ := 32

/-- The only run-time failure: a predicate nested too deep. -/
inductive PredicateError where
  | tooDeep (limit : ℕ)
  deriving DecidableEq

mutual

/-- Evaluate a predicate at a nesting depth. -/
def evaluateAtDepth (ctx : EvalContext) : Predicate → ℕ → Except PredicateError Bool
  | p, depth =>
    if maxPredicateDepth < depth then .error (.tooDeep maxPredicateDepth)
    else
      match p with
      | .cmp field op value => .ok (compareResolved (ctx.resolveScalar field) op value)
      | .in field values => .ok (evalIn ctx field values)
      | .member _ set => .ok (evalMember ctx set)
      | .and operands => evaluateAnd ctx operands (depth + 1)
      | .or operands => evaluateOr ctx operands (depth + 1)
      | .not operand => (evaluateAtDepth ctx operand (depth + 1)).map (!·)
      | .always => .ok true
      | .never => .ok false

/-- The `and` loop: stop at the first operand that is false. -/
def evaluateAnd (ctx : EvalContext) : List Predicate → ℕ → Except PredicateError Bool
  | [], _ => .ok true
  | p :: ps, depth =>
    match evaluateAtDepth ctx p depth with
    | .error e => .error e
    | .ok false => .ok false
    | .ok true => evaluateAnd ctx ps depth

/-- The `or` loop: stop at the first operand that is true. -/
def evaluateOr (ctx : EvalContext) : List Predicate → ℕ → Except PredicateError Bool
  | [], _ => .ok false
  | p :: ps, depth =>
    match evaluateAtDepth ctx p depth with
    | .error e => .error e
    | .ok true => .ok true
    | .ok false => evaluateOr ctx ps depth

end

/-- Evaluate a predicate against the context. -/
def evaluate (p : Predicate) (ctx : EvalContext) : Except PredicateError Bool := evaluateAtDepth ctx p 0

/-! ### Choosing an edge -/

/-- A guarded edge. -/
structure GuardedEdge (α : Type) where
  «to» : α
  guard : Option Predicate

/-- The first edge, in document order, whose guard is absent or holds. A guard that fails to
evaluate routes nowhere: later edges are not tried. -/
def firstTaken {α : Type} (holds : Predicate → Except PredicateError Bool) : List (GuardedEdge α) → Option α
  | [] => none
  | edge :: edges =>
    match edge.guard with
    | none => some edge.to
    | some guard =>
      match holds guard with
      | .error _ => none
      | .ok true => some edge.to
      | .ok false => firstTaken holds edges

/-- Every edge of the list has a guard that does not hold. -/
def Exhausted {α : Type} (holds : Predicate → Except PredicateError Bool) (edges : List (GuardedEdge α)) : Prop :=
  ∀ edge ∈ edges, ∃ guard, edge.guard = some guard ∧ holds guard = .ok false

variable {holds : Predicate → Except PredicateError Bool}

variable {α : Type} {l1 l2 e edges : List (GuardedEdge α)}

theorem firstTaken_append_of_exhausted (h : Exhausted holds l1) :
    firstTaken holds (l1 ++ l2) = firstTaken holds l2 := by
  induction l1 with
  | nil => rfl
  | cons ed l1 ih =>
    obtain ⟨guard, hgd, hf⟩ := h ed (mem_cons_self ..)
    simp only [cons_append, firstTaken, hgd, hf]
    exact ih fun e he => h e (mem_cons_of_mem _ he)

theorem firstTaken_of_exhausted (h : Exhausted holds e) :
    firstTaken holds e = none := by
  rw [← append_nil e, firstTaken_append_of_exhausted h]
  rfl

theorem firstTaken_append_of_not_exhausted (h : ¬ Exhausted holds l1) :
    firstTaken holds (l1 ++ l2) = firstTaken holds l1 := by
  induction l1 with
  | nil => exact absurd (by simp [Exhausted]) h
  | cons ed l1 ih =>
    cases hgd : ed.guard with
    | none => simp [firstTaken, hgd]
    | some guard =>
      cases hv : holds guard with
      | error e => simp [firstTaken, hgd, hv]
      | ok b =>
        cases b with
        | true => simp [firstTaken, hgd, hv]
        | false =>
          simp only [cons_append, firstTaken, hgd, hv]
          refine ih fun hr => h ?_
          intro e he
          rcases mem_cons.mp he with rfl | he
          · exact ⟨guard, hgd, hv⟩
          · exact hr e he

/-- The edge that is taken: its guard is absent or holds, and no edge before it could be taken. -/
theorem firstTaken_eq_some {a : α} (h : firstTaken holds e = some a) :
    ∃ before ed after, e = before ++ ed :: after ∧ Exhausted holds before ∧ ed.to = a ∧
      ∀ guard, ed.guard = some guard → holds guard = .ok true := by
  induction e with
  | nil => cases h
  | cons ed e ih =>
    unfold firstTaken at h
    split at h
    · rename_i hgd
      exact ⟨[], ed, e, rfl, by simp [Exhausted], Option.some.inj h, by simp [hgd]⟩
    · rename_i guard hgd
      split at h
      · cases h
      · rename_i hv
        refine ⟨[], ed, e, rfl, by simp [Exhausted], Option.some.inj h, ?_⟩
        intro g2 hgd2
        rw [hgd, Option.some.injEq] at hgd2
        exact hgd2 ▸ hv
      · rename_i hv
        obtain ⟨before, e2, after, rfl, hb, hto, htk⟩ := ih h
        refine ⟨ed :: before, e2, after, rfl, ?_, hto, htk⟩
        exact forall_mem_cons.mpr ⟨⟨guard, hgd, hv⟩, hb⟩

theorem exists_mem_of_firstTaken {a : α}
    (h : firstTaken holds e = some a) : ∃ ed ∈ e, ed.to = a := by
  obtain ⟨before, ed, after, rfl, -, hto, -⟩ := firstTaken_eq_some h
  exact ⟨ed, by simp, hto⟩

theorem firstTaken_append_congr (l : List (GuardedEdge α))
    (h : firstTaken holds l1 = firstTaken holds l2) : firstTaken holds (l ++ l1) = firstTaken holds (l ++ l2) := by
  by_cases hl : Exhausted holds l
  · rw [firstTaken_append_of_exhausted hl, firstTaken_append_of_exhausted hl, h]
  · rw [firstTaken_append_of_not_exhausted hl, firstTaken_append_of_not_exhausted hl]

/-- Trying the same edges again changes nothing. -/
theorem firstTaken_flatMap_const {β : Type} (edges : List (GuardedEdge α)) (b : β) (bs : List β) :
    firstTaken holds ((b :: bs).flatMap fun _ => edges) = firstTaken holds edges := by
  induction bs generalizing b with
  | nil => simp
  | cons b2 bs ih =>
    rw [flatMap_cons]
    by_cases h : Exhausted holds edges
    · rw [firstTaken_append_of_exhausted h, ih]
    · rw [firstTaken_append_of_not_exhausted h]

/-- Two lists with the same guards in the same order take corresponding edges. -/
theorem firstTaken_rel {β : Type} {R : α → β → Prop} {l2 : List (GuardedEdge β)}
    (h : List.Forall₂ (fun a b => a.guard = b.guard ∧ R a.to b.to) l1 l2) :
    Option.Rel R (firstTaken holds l1) (firstTaken holds l2) := by
  induction h with
  | nil => exact .none
  | @cons a b l1 l2 hab _ ih =>
    obtain ⟨hgd, hto⟩ := hab
    unfold firstTaken
    rw [← hgd]
    split
    · exact .some hto
    · split
      · exact .none
      · exact .some hto
      · exact ih

/-- Where every guard evaluates, no edge is taken exactly when all of them are guarded and false. -/
theorem firstTaken_eq_none_iff (h : ∀ e ∈ edges, ∀ guard ∈ e.guard, ∃ b, holds guard = .ok b) :
    firstTaken holds edges = none ↔ Exhausted holds edges := by
  refine ⟨fun hn => ?_, firstTaken_of_exhausted⟩
  induction edges with
  | nil => exact forall_mem_nil _
  | cons e edges ih =>
    obtain ⟨he, hed⟩ := forall_mem_cons.mp h
    cases hgd : e.guard with
    | none => simp [firstTaken, hgd] at hn
    | some guard =>
      obtain ⟨b, hb⟩ := he guard hgd
      cases b with
      | true => simp [firstTaken, hgd, hb] at hn
      | false =>
        simp only [firstTaken, hgd, hb] at hn
        exact forall_mem_cons.mpr ⟨⟨guard, hgd, hb⟩, ih hed hn⟩

theorem firstTaken_congr {h2 : Predicate → Except PredicateError Bool}
    (h : ∀ e ∈ edges, ∀ guard ∈ e.guard, holds guard = h2 guard) :
    firstTaken holds edges = firstTaken h2 edges := by
  induction edges with
  | nil => rfl
  | cons e edges ih =>
    obtain ⟨he, hed⟩ := forall_mem_cons.mp h
    cases hgd : e.guard with
    | none => simp [firstTaken, hgd]
    | some guard => simp [firstTaken, hgd, he guard hgd, ih hed]

/-! ### The type check -/

/-- The static type of a source pointer. -/
inductive StaticType where
  | bool | number | str | enum | stringSet | dynamic
  deriving DecidableEq

/-- The static type of a literal. -/
inductive LiteralType where
  | null | bool | number | str
  deriving DecidableEq

/-- Why a predicate is not type-safe. -/
inductive PredicateTypeError where
  | unknownField (pointer : String) (source : FieldSource)
  | notComparable (pointer : String)
  | orderingUndefined (pointer : String)
  | literalTypeMismatch (pointer : String)
  | memberSetMismatch (pointer : String)
  | tooDeep (pointer : String)
  | sourceNotLive (pointer : String) (source : FieldSource)
  deriving DecidableEq

/-- The type a source pointer yields, if a closed source knows it. -/
def sourceType : FieldSource → String → Option StaticType
  | .flow, pointer =>
      if pointer = "/step_id" ∨ pointer = "/subject" then some .str
      else if pointer = "/method_tokens" then some .stringSet
      else none
  | .signals, pointer => (signalFromPointer pointer).map fun _ => .bool
  | .subjectTraits, _ => some .dynamic
  | .subjectGroups, _ | .subjectScopes, _ => some .stringSet
  | .risk, pointer =>
      if pointer = "/level" then some .enum
      else if pointer = "/score" then some .number
      else none

/-- Whether the engine populates a live value for a source pointer. -/
def sourceIsEngineLive : FieldSource → String → Bool
  | .flow, _ | .signals, _ | .subjectTraits, _ => true
  | .risk, pointer => pointer = "/level"
  | .subjectGroups, _ | .subjectScopes, _ => false

/-- The type of a literal. -/
def literalType : Literal → LiteralType
  | .null => .null
  | .bool _ => .bool
  | .number _ => .number
  | .string _ => .str

/-- An ordering operator. -/
def isOrdering : CmpOp → Bool
  | .lt | .le | .gt | .ge => true
  | .eq | .ne => false

/-- Whether ordering is defined between a field type and a literal type. -/
def orderingIsDefined : StaticType → LiteralType → Bool
  | .number, literal => literal == .number
  | .str, literal => literal == .str
  | .dynamic, literal => literal == .number || literal == .str
  | .bool, _ | .enum, _ | .stringSet, _ => false

/-- Whether a literal type unifies with a field type. -/
def literalUnifies (fieldType : StaticType) (literal : LiteralType) : Bool :=
  if literal = .null then fieldType != .stringSet
  else
    match fieldType with
    | .bool => literal == .bool
    | .number => literal == .number
    | .str | .enum => literal == .str
    | .dynamic => true
    | .stringSet => false

variable (field : FieldRef)

/-- The comparable type of a field, or the error that refuses it: the opening checks that
a comparison and an `in` test share. -/
def comparableType (base : String) : Except PredicateTypeError StaticType :=
  if sourceIsEngineLive field.source field.pointer = false then
    .error (.sourceNotLive (base ++ "/field") field.source)
  else
    match sourceType field.source field.pointer with
    | none => .error (.unknownField (base ++ "/field") field.source)
    | some .stringSet => .error (.notComparable (base ++ "/field"))
    | some fieldType => .ok fieldType

/-- Type-check a comparison; the first failure is reported. -/
def typecheckCmp (op : CmpOp) (value : Literal) (base : String) : List PredicateTypeError :=
  match comparableType field base with
  | .error e => [e]
  | .ok fieldType =>
    if isOrdering op && !orderingIsDefined fieldType (literalType value) then [.orderingUndefined (base ++ "/op")]
    else if literalUnifies fieldType (literalType value) = false then [.literalTypeMismatch (base ++ "/value")]
    else []

/-- Type-check an `in` test; every literal that does not unify is reported. -/
def typecheckIn (values : List Literal) (base : String) : List PredicateTypeError :=
  match comparableType field base with
  | .error e => [e]
  | .ok fieldType =>
    values.zipIdx.flatMap fun (value, index) =>
      if literalUnifies fieldType (literalType value) = false then [.literalTypeMismatch s!"{base}/values/{index}"]
      else []

/-- Type-check a membership test. -/
def typecheckMember (set : MemberSet) (base : String) : List PredicateTypeError :=
  if sourceIsEngineLive field.source field.pointer = false then
    [.sourceNotLive (base ++ "/field") field.source]
  else
    let agrees :=
      match set with
      | .group _ => field.source == .subjectGroups
      | .scope _ => field.source == .subjectScopes
    if agrees = false then [.memberSetMismatch (base ++ "/field")] else []

mutual

/-- Type-check a predicate at a nesting depth. -/
def typecheckAtDepth : Predicate → String → ℕ → List PredicateTypeError
  | p, base, depth =>
    if maxPredicateDepth < depth then [.tooDeep base]
    else
      match p with
      | .cmp field op value => typecheckCmp field op value base
      | .in field values => typecheckIn field values base
      | .member field set => typecheckMember field set base
      | .and operands | .or operands => typecheckOperands operands base 0 (depth + 1)
      | .not operand => typecheckAtDepth operand (base ++ "/operand") (depth + 1)
      | .always | .never => []

/-- The operands of a conjunction or disjunction, from index `index` on. -/
def typecheckOperands : List Predicate → String → ℕ → ℕ → List PredicateTypeError
  | [], _, _, _ => []
  | p :: ps, base, index, depth =>
    typecheckAtDepth p s!"{base}/operands/{index}" depth ++ typecheckOperands ps base (index + 1) depth

end

/-- Type-check a predicate that stands at `base`. -/
def typecheckPredicate (p : Predicate) (base : String) : List PredicateTypeError := typecheckAtDepth p base 0

/-! ### The verdict does not depend on the location -/

theorem comparableType_congr (f : FieldRef) (b b2 : String) :
    (∃ e, comparableType f b = .error e ∧ ∃ e2, comparableType f b2 = .error e2) ∨
      ∃ t, comparableType f b = .ok t ∧ comparableType f b2 = .ok t := by
  unfold comparableType
  split
  · exact .inl ⟨_, rfl, _, rfl⟩
  · split
    · exact .inl ⟨_, rfl, _, rfl⟩
    · exact .inl ⟨_, rfl, _, rfl⟩
    · exact .inr ⟨_, rfl, rfl⟩

mutual

theorem typecheckAtDepth_eq_nil_congr :
    ∀ (p : Predicate) (base b2 : String) (d : ℕ),
      typecheckAtDepth p base d = [] ↔ typecheckAtDepth p b2 d = []
  | p, base, b2, d => by
    unfold typecheckAtDepth
    split
    · simp
    · cases p with
      | cmp f op value =>
        simp only [typecheckCmp]
        rcases comparableType_congr f base b2 with ⟨e, he, e2, he2⟩ | ⟨t, ht, ht2⟩
        · simp [he, he2]
        · simp only [ht, ht2]
          split
          · simp
          · split <;> simp
      | «in» f v =>
        simp only [typecheckIn]
        rcases comparableType_congr f base b2 with ⟨e, he, e2, he2⟩ | ⟨t, ht, ht2⟩
        · simp [he, he2]
        · simp [ht, ht2, flatMap_eq_nil_iff]
      | member f set =>
        simp only [typecheckMember]
        split <;> simp
      | and o | or o => exact typecheckOperands_eq_nil_congr o base b2 0 (d + 1)
      | not oe => exact typecheckAtDepth_eq_nil_congr oe _ _ (d + 1)
      | always | never => simp

theorem typecheckOperands_eq_nil_congr :
    ∀ (ps : List Predicate) (base base2 : String) (index depth : ℕ),
      typecheckOperands ps base index depth = [] ↔ typecheckOperands ps base2 index depth = []
  | [], _, _, _, _ => by simp [typecheckOperands]
  | p :: ps, base, base2, index, depth => by
    unfold typecheckOperands
    rw [append_eq_nil_iff, append_eq_nil_iff, typecheckOperands_eq_nil_congr ps base base2,
      typecheckAtDepth_eq_nil_congr p _ s!"{base2}/operands/{index}" depth]

end

/-! ### A predicate that type-checks evaluates, from live sources -/

/-- The contexts agree on what the engine populates: groups, scopes and the risk score are free. -/
structure EvalContext.AgreesLive (ctx ctx2 : EvalContext) : Prop where
  flow : ctx.flow = ctx2.flow
  subjectTraits : ctx.subjectTraits = ctx2.subjectTraits
  level : ctx.risk.level = ctx2.risk.level

section AgreesLive

variable {ctx : EvalContext}

theorem EvalContext.AgreesLive.resolveScalar {ctx2 : EvalContext} (h : ctx.AgreesLive ctx2) {field : FieldRef}
    (hl : sourceIsEngineLive field.source field.pointer = true) : ctx2.resolveScalar field = ctx.resolveScalar field := by
  unfold EvalContext.resolveScalar
  cases hs : field.source with
  | flow | signals => simp [h.flow]
  | subjectTraits => simp [h.subjectTraits]
  | subjectGroups | subjectScopes => rfl
  | risk =>
    have hle : field.pointer = "/level" := by simpa [sourceIsEngineLive, hs] using hl
    simp [hle, h.level]

theorem live_of_comparableType {f : FieldRef} {b : String} {t : StaticType} (h : comparableType f b = .ok t) :
    sourceIsEngineLive f.source f.pointer = true := by
  unfold comparableType at h
  split_ifs at h with hl
  exact Bool.not_eq_false _ ▸ hl

/-- A membership test never type-checks: neither set is live. -/
theorem typecheckMember_ne_nil (f : FieldRef) (set : MemberSet) (base : String) : typecheckMember f set base ≠ [] := by
  unfold typecheckMember
  split_ifs with hl
  · exact cons_ne_nil _ _
  · cases set <;> cases hs : f.source <;> simp [sourceIsEngineLive, hs] at hl ⊢

mutual

theorem evaluateAtDepth_live :
    ∀ (p : Predicate) (base : String) (d : ℕ), typecheckAtDepth p base d = [] →
      ∃ b, ∀ ctx2, ctx.AgreesLive ctx2 → evaluateAtDepth ctx2 p d = .ok b
  | p, base, d => by
    intro h
    unfold typecheckAtDepth at h
    unfold evaluateAtDepth
    split at h
    · cases h
    · rename_i hd
      simp only [if_neg hd]
      cases p with
      | cmp f op value =>
        refine ⟨compareResolved (ctx.resolveScalar f) op value, fun ctx2 ha => ?_⟩
        simp only [typecheckCmp] at h
        split at h
        · cases h
        · rename_i ht
          simp [ha.resolveScalar (live_of_comparableType ht)]
      | «in» f v =>
        refine ⟨evalIn ctx f v, fun ctx2 ha => ?_⟩
        simp only [typecheckIn] at h
        split at h
        · cases h
        · rename_i ht
          simp [evalIn, ha.resolveScalar (live_of_comparableType ht)]
      | member f set => exact absurd h (typecheckMember_ne_nil f set base)
      | and o => exact (evaluateOperands_live o base 0 (d + 1) h).1
      | or o => exact (evaluateOperands_live o base 0 (d + 1) h).2
      | not oe =>
        obtain ⟨b, hb⟩ := evaluateAtDepth_live oe _ (d + 1) h
        exact ⟨!b, fun ctx2 ha => by simp [hb ctx2 ha, Except.map]⟩
      | always | never => exact ⟨_, fun _ _ => rfl⟩

theorem evaluateOperands_live :
    ∀ (ps : List Predicate) (ba : String) (i d : ℕ), typecheckOperands ps ba i d = [] →
      (∃ b, ∀ ctx2, ctx.AgreesLive ctx2 → evaluateAnd ctx2 ps d = .ok b) ∧
        ∃ b, ∀ ctx2, ctx.AgreesLive ctx2 → evaluateOr ctx2 ps d = .ok b
  | [], _, _, _ => fun _ => ⟨⟨true, fun _ _ => by simp [evaluateAnd]⟩, false, fun _ _ => by simp [evaluateOr]⟩
  | p :: ps, ba, i, d => by
    intro h
    obtain ⟨hp, hps⟩ := append_eq_nil_iff.mp h
    obtain ⟨b, hb⟩ := evaluateAtDepth_live p _ d hp
    obtain ⟨⟨c, hc⟩, o, ho⟩ := evaluateOperands_live ps ba (i + 1) d hps
    refine ⟨⟨b && c, fun ctx2 ha => ?_⟩, b || o, fun ctx2 ha => ?_⟩
    · unfold evaluateAnd
      cases b <;> simp [hb ctx2 ha, hc ctx2 ha]
    · unfold evaluateOr
      cases b <;> simp [hb ctx2 ha, ho ctx2 ha]

end

variable (ctx) in
/-- A predicate that type-checks evaluates, and alike wherever the live sources agree: the depth guard
never fires. -/
theorem evaluate_live {p : Predicate} {ba : String} (h : typecheckPredicate p ba = []) :
    ∃ b, ∀ ctx2, ctx.AgreesLive ctx2 → evaluate p ctx2 = .ok b :=
  evaluateAtDepth_live p ba 0 h

end AgreesLive

end IronAuth.Journeys
