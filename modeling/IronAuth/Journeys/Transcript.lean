import IronAuth.Journeys.Replay
import IronAuth.Lib.Fallible

/-!
# Golden transcripts

`run` replays a recorded transcript against the routing of a compiled table, one hop of the harness
for each recorded step, and compares where it lands with what was recorded. `regenerated` makes the
same walk and records where it lands.

`run` asks for a terminal at the end; `regenerated` refuses a hop past a terminal, but not a
transcript that stops before one. The signals and the risk of a transcript are those of the
evaluation context under other wire names, and its groups and scopes are not read.
-/

namespace IronAuth.Journeys

open Lib.Fallible

structure TranscriptSubject where
  traits : Json := .null
  groups : List String := []
  scopes : List String := []
  methodTokens : List String := []
  subjectHandle : String := ""
  risk : Option RiskView := none

/-- Where a hop is expected to land. -/
inductive ExpectedHop where
  | step (id : StepId)
  | terminal (id : StepId)
  deriving DecidableEq

/-- `ExpectedHop::parts`. -/
def ExpectedHop.parts : ExpectedHop → StepId × Bool
  | step id => (id, false)
  | terminal id => (id, true)

structure TranscriptStep where
  comment : Option String := none
  signals : List OutcomeSignal := []
  subject : Option TranscriptSubject := none
  expect : ExpectedHop

structure JourneyTranscript where
  journeyId : String
  engineVersion : UInt32
  description : Option String := none
  steps : List TranscriptStep

/-- `base_context`: no groups and no scopes, whatever the transcript says. -/
def baseContext (step : TranscriptStep) : EvalContext :=
  let subject := step.subject.getD {}
  ⟨⟨"", subject.methodTokens, subject.subjectHandle, ⟨step.signals⟩⟩, subject.traits, [], [],
    subject.risk.getD ⟨.low, 0⟩⟩

inductive ObservedHop where
  | advanced («to» : StepId) (terminal : Bool)
  | deadEnded
  | pastTerminal
  | incomplete
  | unsettled
  deriving DecidableEq

structure Divergence where
  stepIndex : ℕ
  «from» : StepId
  expected : Option ExpectedHop
  observed : ObservedHop
  deriving DecidableEq

inductive ReplayReport where
  | «match»
  | divergence (divergence : Divergence)
  deriving DecidableEq

inductive RegenerateReason where
  | deadEnded («at» : StepId)
  | pastTerminal
  | unsettled
  deriving DecidableEq

structure RegenerateError where
  stepIndex : ℕ
  reason : RegenerateReason
  deriving DecidableEq

section Loops

variable (compiled : CompiledJourney)

/-- The loop of `run`, from a hop on. -/
def runFrom (index : ℕ) (cursor : StepId) (completed : Bool) : List TranscriptStep → ReplayReport
  | [] => if completed then .match else .divergence ⟨index, cursor, none, .incomplete⟩
  | step :: rest =>
    if completed then .divergence ⟨index, cursor, some step.expect, .pastTerminal⟩
    else
      match routeHop compiled cursor (baseContext step) with
      | .landed next terminal =>
        if (next, terminal) ≠ step.expect.parts then
          .divergence ⟨index, cursor, some step.expect, .advanced next terminal⟩
        else runFrom (index + 1) (if terminal then cursor else next) terminal rest
      | .deadEnd stuck => .divergence ⟨index, stuck, some step.expect, .deadEnded⟩
      | .unsettled => .divergence ⟨index, cursor, some step.expect, .unsettled⟩

/-- Replay a transcript. -/
def run (transcript : JourneyTranscript) : ReplayReport := runFrom compiled 0 compiled.entry false transcript.steps

/-- The loop of `regenerated`, from a hop on. -/
def regenerateFrom (index : ℕ) (cursor : StepId) (completed : Bool) :
    List TranscriptStep → Except RegenerateError (List TranscriptStep)
  | [] => .ok []
  | step :: rest =>
    if completed then .error ⟨index, .pastTerminal⟩
    else
      match routeHop compiled cursor (baseContext step) with
      | .landed next terminal => do
        let steps ← regenerateFrom (index + 1) (if terminal then cursor else next) terminal rest
        return { step with expect := if terminal then .terminal next else .step next } :: steps
      | .deadEnd stuck => .error ⟨index, .deadEnded stuck⟩
      | .unsettled => .error ⟨index, .unsettled⟩

/-- `JourneyTranscript::regenerated`. -/
def JourneyTranscript.regenerated (transcript : JourneyTranscript) : Except RegenerateError JourneyTranscript := do
  let steps ← regenerateFrom compiled 0 compiled.entry false transcript.steps
  return { transcript with steps := steps }

/-- The recorded hops lead from a step into a terminal, the last of them. -/
inductive LeadsToTerminal : StepId → List TranscriptStep → Prop
  | last {cursor next : StepId} {step : TranscriptStep} (h : routeHop compiled cursor (baseContext step) = .landed next true) :
      LeadsToTerminal cursor [step]
  | hop {cursor next : StepId} {step : TranscriptStep} {rest : List TranscriptStep}
      (h : routeHop compiled cursor (baseContext step) = .landed next false) (hrest : LeadsToTerminal next rest) :
      LeadsToTerminal cursor (step :: rest)

variable {compiled} {cursor next : StepId}

theorem leadsToTerminal_cons {s : TranscriptStep} {rest : List TranscriptStep} {t : Bool}
    (hh : routeHop compiled cursor (baseContext s) = .landed next t) :
    LeadsToTerminal compiled cursor (s :: rest) ↔
      t = true ∧ rest = [] ∨ t = false ∧ LeadsToTerminal compiled next rest := by
  constructor
  · intro h
    cases h with
    | last h => simp_all
    | hop h hr => simp_all
  · rintro (⟨rfl, rfl⟩ | ⟨rfl, hr⟩)
    · exact .last hh
    · exact .hop hh hr

/-- The two loops in lockstep: whatever was regenerated is regenerated again, and its replay misses
nothing but a terminal at the end. -/
theorem runFrom_regenerateFrom {s s2 : List TranscriptStep} {i : ℕ} {c : Bool}
    (h : regenerateFrom compiled i cursor c s = .ok s2) :
    regenerateFrom compiled i cursor c s2 = .ok s2 ∧ (c = true → s = []) ∧
      (runFrom compiled i cursor c s2 = .match ↔
        c = true ∨ LeadsToTerminal compiled cursor s) := by
  induction s generalizing s2 i cursor c with
  | nil =>
    cases h
    have hn : ¬ LeadsToTerminal compiled cursor [] := fun h => by cases h
    simp [regenerateFrom, runFrom, hn]
  | cons step rest ih =>
    cases c with
    | true => simp [regenerateFrom] at h
    | false =>
      cases hh : routeHop compiled cursor (baseContext step) with
      | deadEnd | unsettled => simp [regenerateFrom, hh] at h
      | landed next terminal =>
        simp only [regenerateFrom, hh, Bool.false_eq_true, if_false, bind_eq_ok_iff] at h
        obtain ⟨r2, hr, heq⟩ := h
        cases heq
        obtain ⟨ha, hp, hru⟩ := ih hr
        -- the context of a hop does not depend on what is expected of it
        have hb : ∀ expect, routeHop compiled cursor (baseContext { step with expect }) = .landed next terminal :=
          fun _ => hh
        simp only [regenerateFrom, runFrom, hb, ha, leadsToTerminal_cons hh]
        cases terminal <;> simp_all [ExpectedHop.parts]

end Loops

/-- **What was regenerated is regenerated to itself, and its replay matches exactly when the recorded
hops lead into a terminal.** -/
theorem regenerated_replays_iff {compiled : CompiledJourney} {transcript transcript2 : JourneyTranscript}
    (h : transcript.regenerated compiled = .ok transcript2) :
    (run compiled transcript2 = .match ∧ transcript2.regenerated compiled = .ok transcript2) ↔
      LeadsToTerminal compiled compiled.entry transcript.steps := by
  obtain ⟨steps, hst, heq⟩ := bind_eq_ok_iff.mp h
  cases heq
  obtain ⟨hag, -, hrun⟩ := runFrom_regenerateFrom hst
  simp [run, JourneyTranscript.regenerated, hag, hrun]

/-- A transcript of the journey whose decision completes when a second factor is due. -/
def cycleTranscript (steps : List TranscriptStep) : JourneyTranscript where
  journeyId := decisionCycle.id
  engineVersion := 1
  steps := steps

/-- A transcript without hops is regenerated, and its replay misses the terminal. -/
theorem emptyTranscript_incomplete :
    ∃ compiled, compile decisionCycle = some (.ok compiled) ∧
      (cycleTranscript []).regenerated compiled = .ok (cycleTranscript []) ∧ run compiled (cycleTranscript []) ≠ .match := by
  have hok : loads (fun _ => true) (compile decisionCycle) = true := by decide
  obtain ⟨compiled, hco, -⟩ := loads_eq_true.mp hok
  exact ⟨compiled, hco, rfl, by simp [run, runFrom, cycleTranscript]⟩

theorem mfaTranscript_replays :
    ∃ compiled transcript, compile decisionCycle = some (.ok compiled) ∧
      (cycleTranscript [{ signals := [.mfaRequired], expect := .step "check" }]).regenerated compiled = .ok transcript ∧
      run compiled transcript = .match ∧ transcript.regenerated compiled = .ok transcript := by
  have hok : loads (fun compiled => decide (routeHop compiled compiled.entry
      (baseContext { signals := [.mfaRequired], expect := .step "check" }) = .landed "done" true))
      (compile decisionCycle) = true := by decide
  obtain ⟨compiled, hco, hte⟩ := loads_eq_true.mp hok
  have hhop := of_decide_eq_true hte
  have hre : (cycleTranscript [{ signals := [.mfaRequired], expect := .step "check" }]).regenerated compiled =
      .ok (cycleTranscript [{ signals := [.mfaRequired], expect := .terminal "done" }]) := by
    simp [JourneyTranscript.regenerated, regenerateFrom, cycleTranscript, hhop]
  exact ⟨compiled, _, hco, hre, (regenerated_replays_iff hre).mpr (.last hhop)⟩

end IronAuth.Journeys
