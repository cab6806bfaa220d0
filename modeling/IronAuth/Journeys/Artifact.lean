import IronAuth.Lib.Table
import Mathlib

/-!
# The journey artifact

The value model of `ironauth-journey/src/artifact.rs`: a journey is a list of
steps and a list of guarded transitions, plus the subflows it may call. A guard
is a `Predicate`, a closed grammar kept as data.

Identifiers are strings, as in the source; the maps and sets the source keys by
them are lists here. A JSON number is what `serde_json` keeps: an unsigned or a
negative 64-bit integer, or a finite double, which is modelled by the rational it
denotes.
-/

namespace IronAuth.Journeys

/-- A step id, unique within a document. -/
abbrev StepId := String

/-- A subflow alias or definition id. -/
abbrev SubflowId := String

/-! ### Predicates -/

/-- `serde_json::Number`. -/
inductive Number where
  /-- A non-negative integer, kept as a `u64`. -/
  | posInt (n : UInt64)
  /-- A negative integer, kept as an `i64`. -/
  | negInt (n : Int64)
  /-- A finite double, as the rational it denotes. -/
  | float (q : ℚ)
  deriving DecidableEq

/-- A comparison operator. -/
inductive CmpOp where
  | eq | ne | lt | le | gt | ge
  deriving DecidableEq

/-- The sources a field is read from. -/
inductive FieldSource where
  | flow | signals | subjectTraits | subjectGroups | subjectScopes | risk
  deriving DecidableEq

/-- A field of the evaluation context: a source and a JSON pointer into it. -/
structure FieldRef where
  source : FieldSource
  pointer : String
  deriving DecidableEq

/-- The set a membership test reads. -/
inductive MemberSet where
  | group (name : String)
  | scope (name : String)
  deriving DecidableEq

/-- A literal of the predicate grammar. -/
inductive Literal where
  | null
  | bool (b : Bool)
  | number (n : Number)
  | string (s : String)
  deriving DecidableEq

/-- The predicate grammar. -/
inductive Predicate where
  | cmp (field : FieldRef) (op : CmpOp) (value : Literal)
  | in (field : FieldRef) (values : List Literal)
  | member (field : FieldRef) (set : MemberSet)
  | and (operands : List Predicate)
  | or (operands : List Predicate)
  | not (operand : Predicate)
  | always
  | never

/-- What a decision step may carry: today only a predicate. -/
inductive DecisionSpec where
  | predicate (predicate : Predicate)

/-! ### Steps -/

/-- The closed step vocabulary, and the carrier of a wire value outside it. -/
inductive StepKind where
  | identifierPassword
  | mfaChallenge
  | mfaEnroll
  | progressiveProfiling
  | orgPicker
  | decision
  | subflowCall
  | terminal
  | registration
  | recoveryStart
  | recoveryVerify
  | customChallenge
  | unknown (raw : String)
  deriving DecidableEq

namespace StepKind

/-- The wire string of a kind. -/
def asWire : StepKind → String
  | identifierPassword => "identifier_password"
  | mfaChallenge => "mfa_challenge"
  | mfaEnroll => "mfa_enroll"
  | progressiveProfiling => "progressive_profiling"
  | orgPicker => "org_picker"
  | decision => "decision"
  | subflowCall => "subflow_call"
  | terminal => "terminal"
  | registration => "registration"
  | recoveryStart => "recovery_start"
  | recoveryVerify => "recovery_verify"
  | customChallenge => "custom_challenge"
  | unknown raw => raw

/-- One of the built-in kinds. -/
def isKnown : StepKind → Bool
  | unknown _ => false
  | _ => true

/-- The mint family, which only an embedded artifact may name. -/
def isBuiltinOnly : StepKind → Bool
  | registration | recoveryStart | recoveryVerify => true
  | _ => false

/-- The kind a journey leaves only by completing. -/
def isTerminal : StepKind → Bool
  | terminal => true
  | _ => false

/-- The kinds that read an already established subject. -/
def requiresSubject : StepKind → Bool
  | mfaChallenge | mfaEnroll | progressiveProfiling | orgPicker => true
  | _ => false

/-- The kinds that establish the subject. -/
def establishesSubject : StepKind → Bool
  | identifierPassword | registration | recoveryVerify => true
  | _ => false

/-- A call into a subflow, which composition replaces. -/
def isCall : StepKind → Bool
  | subflowCall => true
  | _ => false

@[simp] theorem isTerminal_eq_true {k : StepKind} : k.isTerminal = true ↔ k = terminal := by
  cases k <;> simp [isTerminal]

@[simp] theorem isCall_eq_true {k : StepKind} : k.isCall = true ↔ k = subflowCall := by
  cases k <;> simp [isCall]

end StepKind

/-- One step: its id, its kind, and the attachments its kind may use. -/
structure Step where
  id : StepId
  kind : StepKind
  nodeGroup : Option String := none
  subflow : Option SubflowId := none
  decision : Option DecisionSpec := none
  factor : Option String := none
  comment : Option String := none

/-- A transition; without a guard it always applies. -/
structure Transition where
  «from» : StepId
  «to» : StepId
  guard : Option Predicate := none
  comment : Option String := none

/-- Where the definition of a subflow reference comes from. -/
inductive SubflowSource where
  | builtin (name : String)
  | inline (subflowId : SubflowId)
  deriving DecidableEq

/-- A subflow reference: an alias and its source. -/
structure SubflowRef where
  id : SubflowId
  source : SubflowSource
  deriving DecidableEq

/-- A reusable fragment: an entry, steps and transitions, and the exits it returns from. -/
structure Subflow where
  id : SubflowId
  entry : StepId
  exits : List StepId
  comment : Option String := none
  steps : List Step
  transitions : List Transition

/-- `JOURNEY_ENGINE_VERSION`. -/
def journeyEngineVersion : UInt32 := 2

/-- `JOURNEY_SCHEMA_VERSION`. -/
def journeySchemaVersion : String := "ironauth.journey/v1"

/-- A whole journey artifact. -/
structure Journey where
  schemaVersion : String := journeySchemaVersion
  id : String
  engineVersion : UInt32 := journeyEngineVersion
  entry : StepId
  comment : Option String := none
  steps : List Step
  transitions : List Transition
  subflows : Option (List SubflowRef) := none
  subflowDefinitions : Option (List Subflow) := none

/-- `str::contains`: whether `pattern` occurs in `s`. -/
def strContains (s pattern : String) : Bool := decide (pattern.toList <:+: s.toList)

/-- The ids of a step list, in document order. -/
def stepIds (steps : List Step) : List StepId := steps.map Step.id

@[simp] theorem mem_stepIds {s : List Step} {id : StepId} :
    id ∈ stepIds s ↔ ∃ step ∈ s, step.id = id := by
  simp [stepIds]

/-- Where ids are unique, looking up an id finds the step that has it. -/
theorem find?_step_eq_some {st : List Step} (hnd : (stepIds st).Nodup) {id : StepId} {se : Step} :
    (st.find? fun se => se.id == id) = some se ↔ se ∈ st ∧ se.id = id := Lib.findKey_eq_some_iff hnd

end IronAuth.Journeys
