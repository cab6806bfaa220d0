import IronAuth.Lib.ReadCommitted

/-!
# Transactions as scripts

A script has a control state, and each control state a statement: a query, an update of one row
under a guard, an insertion, a failure or the commit. A statement says how the script goes on. A
program of scripts takes rows only by its updates and insertions, so the questions about rows that
the rules of rely and guarantee ask have one answer for all of them.

An update of many rows is a query for their keys, followed by an update of each: it sees the rows
that were there when it started, and looks again at each row that it had to wait for.

## What is proved

* `perform_ensures`: a statement establishes what holds in every case that it distinguishes.
* `scriptDiscipline`: what remains to be shown of a program of scripts.
-/

namespace IronAuth.Lib.ReadCommitted

variable {K : Type} [DecidableEq K] {V : K → Type} {C Q : Type}

/-- A statement, and how the script goes on after it. -/
inductive Statement (V : K → Type) (C : Type) where
  | query (next : Rows V → C)
  | update (k : K) (guard : V k → Bool) (set : V k → V k) (hit : V k → C) (miss : C)
  | insert (k : K) (row : V k) (next : C)
  | fail
  | commit

/-- A script that is running: its control state, and what it has written. -/
structure Script (V : K → Type) (C : Type) where
  control : C
  writes : Rows V

namespace Statement

/-- What a statement comes to. -/
def perform (locked : K → Bool) (committed writes : Rows V) : Statement V C → Outcome (Script V C)
  | .query next => .next ⟨next (writes.over committed), writes⟩
  | .update k guard set hit miss => guardedUpdate locked (writes.over committed) k guard
      (fun row => .next ⟨hit row, Function.update writes k (some (set row))⟩) (.next ⟨miss, writes⟩)
  | .insert k row next =>
    insertUnique locked (writes.over committed) k (.next ⟨next, Function.update writes k (some row)⟩)
  | .fail => .fail
  | .commit => .commit

/-- Whatever the statement comes to, the script goes on as it should. -/
def Ensures (committed writes : Rows V) (post : Script V C → Prop) : Statement V C → Prop
  | .query next => post ⟨next (writes.over committed), writes⟩
  | .update k guard set hit miss =>
    (∀ row, writes.over committed k = some row → guard row = true →
      post ⟨hit row, Function.update writes k (some (set row))⟩) ∧
    ((∀ row, writes.over committed k = some row → guard row = false) → post ⟨miss, writes⟩)
  | .insert k row next => writes.over committed k = none → post ⟨next, Function.update writes k (some row)⟩
  | .fail => True
  | .commit => True

variable {locked : K → Bool} {committed writes : Rows V} {statement : Statement V C} {script : Script V C}

theorem perform_ensures {p : Script V C → Prop} (h : statement.Ensures committed writes p)
    (hn : statement.perform locked committed writes = .next script) : p script := by
  cases statement with
  | query next =>
    cases hn
    exact h
  | update k guard set hit m => exact guardedUpdate_next hn (fun _ => h.1) h.2
  | insert k row next =>
    obtain ⟨-, hno, hh⟩ := insertUnique_eq_next hn
    cases hh
    exact h hno
  | fail | commit => cases hn

theorem eq_commit (h : statement.perform locked committed writes = .commit) : statement = .commit := by
  cases statement with
  | query | fail => cases h
  | update k guard set hit m => exact absurd h (guardedUpdate_ne_commit (fun row => by simp) (by simp))
  | insert k row next => exact absurd h (insertUnique_ne_commit (by simp))
  | commit => rfl

/-- A statement takes only a row that it finds free. -/
theorem held_perform {k : K} (h : statement.perform locked committed writes = .next script)
    (hh : (script.writes k).isSome) : (writes k).isSome ∨ locked k = false := by
  have hu : ∀ {k2 : K} {row : V k2}, (Function.update writes k2 (some row) k).isSome → locked k2 = false →
      (writes k).isSome ∨ locked k = false := by
    intro k2 row hh hf
    by_cases hk : k = k2
    · exact .inr (hk ▸ hf)
    · rw [Function.update_of_ne hk] at hh
      exact .inl hh
  cases statement with
  | query next =>
    cases h
    exact .inl hh
  | update k2 guard set hit m =>
    obtain ⟨hf, ⟨row, -, -, hhi⟩ | ⟨-, hm⟩⟩ := guardedUpdate_eq_next h
    · cases hhi
      exact hu hh hf
    · cases hm
      exact .inl hh
  | insert k2 row next =>
    obtain ⟨hf, -, hhi⟩ := insertUnique_eq_next h
    cases hhi
    exact hu hh hf
  | fail | commit => cases h

end Statement

/-- The program whose transactions are scripts. -/
def scripts (statement : C → Statement V C) (begins : Q → C) : Program V (Script V C) Q where
  writes := Script.writes
  begins := fun request => ⟨begins request, fun _ => none⟩
  next := fun locked committed script => (statement script.control).perform locked committed script.writes

/-- **The discipline of scripts.** -/
theorem scriptDiscipline {statement : C → Statement V C} {begins : Q → C} {I : Rows V → Prop}
    {P : Rows V → Script V C → Prop} {G : Rows V → Rows V → Prop}
    (hb : ∀ committed request, I committed → P committed ⟨begins request, fun _ => none⟩)
    (hn : ∀ committed script, I committed → P committed script →
      (statement script.control).Ensures committed script.writes (P committed))
    (hc : ∀ committed script, I committed → P committed script → statement script.control = .commit →
      I (script.writes.over committed) ∧ G committed (script.writes.over committed))
    (hs : ∀ committed after script, I committed → P committed script → G committed after →
      (∀ k, (script.writes k).isSome → after k = committed k) → P after script) :
    Discipline (scripts statement begins) I P G where
  begins := hb
  begins_writes := fun _ _ => rfl
  next := fun _ committed script _ hI h heq => Statement.perform_ensures (hn committed script hI h) heq
  next_writes := fun _ _ _ _ _ heq hh => Statement.held_perform heq hh
  commit := fun _ committed script hI h heq => hc committed script hI h (Statement.eq_commit heq)
  stable := hs

end IronAuth.Lib.ReadCommitted
