import Mathlib.Algebra.BigOperators.Group.List.Basic
import Mathlib.Algebra.Order.Group.Defs
import Mathlib.Data.List.Basic

/-!
# Machines

A machine answers each input and moves on. Its `transcript` pairs every input of a run
with the answer; a condition holds `Along` a run when it holds before every step.

The rules below take a relation, or an invariant, that may speak of the inputs still to
come: what is assumed of a run (that its clock never runs back, that its steps meet a
condition) is part of it and is consumed step by step.

## What is proved

* `along_of_invariant`: a condition that an invariant gives holds along the run.
* `run_of_mem_transcript`: what an answer establishes and every step keeps holds after the run;
  `exists_mem_transcript`, that nothing else establishes it; `run_iff_mem_flatMap`, both.
* `count_flatMap_le_one`: an answer that ends the condition it needs is given once at most.
* `transcript_eq`: related states answer alike; `map_transcript_eq`, for two machines.
* `sum_spent_le`: what a run spends is covered by a potential.
* `filter_transcript_eq`: unwinding: dropped inputs do not show in what is observed.
* `transcript_eraseIdx`: deleting one input that nothing depends on.
-/

namespace IronAuth.Lib.Machine

open List

variable {σ ι ο : Type*} (step : σ → ι → ο × σ)

/-- The state after a run. -/
def run : σ → List ι → σ
  | state, [] => state
  | state, input :: inputs => run (step state input).2 inputs

/-- Each input of a run with its answer. -/
def transcript : σ → List ι → List (ι × ο)
  | _, [] => []
  | state, input :: inputs => (input, (step state input).1) :: transcript (step state input).2 inputs

/-- A condition on the state and the input, met before every step of a run. -/
def Along (P : σ → ι → Prop) : σ → List ι → Prop
  | _, [] => True
  | state, input :: inputs => P state input ∧ Along P (step state input).2 inputs

instance decidableAlong (P : σ → ι → Prop) [∀ state input, Decidable (P state input)] :
    ∀ (state : σ) (inputs : List ι), Decidable (Along step P state inputs)
  | _, [] => isTrue trivial
  | state, input :: inputs =>
    have := decidableAlong P (step state input).2 inputs
    inferInstanceAs (Decidable (P state input ∧ Along step P (step state input).2 inputs))

variable {step}

variable {P : σ → ι → Prop}

/-- Conditions that agree at every step agree along every run. -/
theorem along_congr {Q : σ → ι → Prop} (h : ∀ state inp, P state inp ↔ Q state inp) (state : σ)
    (inputs : List ι) : Along step P state inputs ↔ Along step Q state inputs := by
  induction inputs generalizing state with
  | nil => exact Iff.rfl
  | cons inp inputs ih => exact and_congr (h state inp) (ih _)

variable {state : σ} {inputs : List ι}

/-- An invariant that gives a condition gives it along the run. -/
theorem along_of_invariant {I : σ → List ι → Prop}
    (hs : ∀ state inp inputs, I state (inp :: inputs) → P state inp ∧ I (step state inp).2 inputs)
    (h : I state inputs) : Along step P state inputs := by
  induction inputs generalizing state with
  | nil => trivial
  | cons inp inputs ih => exact ⟨(hs state inp inputs h).1, ih (hs state inp inputs h).2⟩

theorem run_append (state : σ) (inputs inputs2 : List ι) :
    run step state (inputs ++ inputs2) = run step (run step state inputs) inputs2 := by
  induction inputs generalizing state with
  | nil => rfl
  | cons i inputs ih => exact ih _

theorem along_append {inputs2 : List ι} :
    Along step P state (inputs ++ inputs2) ↔ Along step P state inputs ∧ Along step P (run step state inputs) inputs2 := by
  induction inputs generalizing state with
  | nil => exact (iff_of_eq (true_and _)).symm
  | cons i inputs ih => rw [cons_append, Along, Along, run, ih, and_assoc]

/-- A condition on the inputs alone holds along a run when every input meets it. -/
theorem along_of_forall_mem {p : ι → Prop} (h : ∀ inp ∈ inputs, p inp) :
    Along step (fun _ inp => p inp) state inputs := by
  induction inputs generalizing state with
  | nil => trivial
  | cons inp inputs ih => exact ⟨h inp mem_cons_self, ih fun i' hm => h i' (mem_cons_of_mem _ hm)⟩

theorem along_and_mem {p : ι → Prop} :
    Along step (fun state inp => p inp ∧ P state inp) state inputs ↔
      (∀ inp ∈ inputs, p inp) ∧ Along step P state inputs := by
  induction inputs generalizing state with
  | nil => simp [Along]
  | cons inp inputs ih => rw [Along, Along, ih, forall_mem_cons, and_and_and_comm]

variable {I : σ → Prop}

/-- What every step keeps that meets a condition holds after a run that meets it. -/
theorem run_of_along (hs : ∀ state inp, I state → P state inp → I (step state inp).2) (h : I state)
    (ha : Along step P state inputs) : I (run step state inputs) := by
  induction inputs generalizing state with
  | nil => exact h
  | cons inp inputs ih => exact ih (hs state inp h ha.1) ha.2

/-- What every step keeps holds after a run. -/
theorem run_of_step (hs : ∀ state inp, I state → I (step state inp).2) (h : I state) : I (run step state inputs) :=
  run_of_along (P := fun _ _ => True) (fun state inp h _ => hs state inp h) h (along_of_forall_mem fun _ _ => trivial)

variable {Q : σ → Prop} {p : ι × ο → Prop}

/-- What an answer establishes, and every step keeps, holds after the run. -/
theorem run_of_mem_transcript (hI : ∀ state inp, I state → I (step state inp).2)
    (hk : ∀ state inp, I state → Q state → Q (step state inp).2)
    (ha : ∀ state inp, I state → p (inp, (step state inp).1) → Q (step state inp).2) (h : I state)
    {e : ι × ο} (hm : e ∈ transcript step state inputs) (hp : p e) : Q (run step state inputs) := by
  induction inputs generalizing state with
  | nil => cases hm
  | cons inp inputs ih =>
    obtain rfl | hm := mem_cons.mp hm
    · exact (run_of_step (I := fun state => I state ∧ Q state) (fun state inp h => ⟨hI state inp h.1, hk state inp h.1 h.2⟩)
        ⟨hI state inp h, ha state inp h hp⟩).2
    · exact ih (hI state inp h) hm

/-- What a step brings about only by an answer, the run has brought about only if it was given. The steps
may have to meet a condition. -/
theorem exists_mem_transcript_of_along (hI : ∀ state inp, I state → P state inp → I (step state inp).2)
    (hs : ∀ state inp, I state → P state inp → Q (step state inp).2 → Q state ∨ p (inp, (step state inp).1))
    (h : I state) (ha : Along step P state inputs) (hQ : Q (run step state inputs)) :
    Q state ∨ ∃ entry ∈ transcript step state inputs, p entry := by
  induction inputs generalizing state with
  | nil => exact .inl hQ
  | cons inp inputs ih =>
    obtain hn | ⟨entry, he, hp⟩ := ih (hI state inp h ha.1) ha.2 hQ
    · exact (hs state inp h ha.1 hn).imp_right fun hp => ⟨_, mem_cons_self, hp⟩
    · exact .inr ⟨entry, mem_cons_of_mem _ he, hp⟩

/-- The same for steps that need not meet any. -/
theorem exists_mem_transcript (hI : ∀ state inp, I state → I (step state inp).2)
    (hs : ∀ state inp, I state → Q (step state inp).2 → Q state ∨ p (inp, (step state inp).1))
    (h : I state) (hQ : Q (run step state inputs)) : Q state ∨ ∃ entry ∈ transcript step state inputs, p entry :=
  exists_mem_transcript_of_along (P := fun _ _ => True) (fun state inp h _ => hI state inp h)
    (fun state inp h _ => hs state inp h) h (along_of_forall_mem fun _ _ => trivial) hQ

variable {α : Type*} {f : ι × ο → List α} {a : α} {R : σ → σ → List ι → Prop}

/-- What a step brings about exactly by an answer, the run has brought about exactly if it was given. -/
theorem run_iff_mem_flatMap (hI : ∀ state inp, I state → I (step state inp).2)
    (hs : ∀ state inp, I state → (Q (step state inp).2 ↔ Q state ∨ a ∈ f (inp, (step state inp).1)))
    (h : I state) : Q (run step state inputs) ↔ Q state ∨ a ∈ (transcript step state inputs).flatMap f := by
  induction inputs generalizing state with
  | nil => simp [run, transcript]
  | cons inp inputs ih =>
    rw [run, transcript, ih (hI state inp h), hs state inp h, flatMap_cons, mem_append, or_assoc]

/-- An answer that needs a condition, and ends it for good, is given once at most. -/
theorem count_flatMap_le_one_of_along [DecidableEq α]
    (hI : ∀ state inp, I state → P state inp → I (step state inp).2)
    (hg : ∀ state inp, I state → P state inp → ¬ Q state → ¬ Q (step state inp).2)
    (hgi : ∀ state inp, I state → P state inp → a ∈ f (inp, (step state inp).1) → Q state ∧ ¬ Q (step state inp).2)
    (ho : ∀ state inp, I state → (f (inp, (step state inp).1)).count a ≤ 1) (h : I state)
    (ha : Along step P state inputs) : ((transcript step state inputs).flatMap f).count a ≤ 1 := by
  have hn : ∀ (inputs : List ι) (state : σ), I state → Along step P state inputs → ¬ Q state →
      ((transcript step state inputs).flatMap f).count a = 0 := by
    intro inputs
    induction inputs with
    | nil => exact fun _ _ _ _ => rfl
    | cons inp inputs ih =>
      intro state hst hr hQ
      rw [transcript, flatMap_cons, count_append,
        ih _ (hI state inp hst hr.1) hr.2 (hg state inp hst hr.1 hQ),
        count_eq_zero.mpr fun hm => hQ (hgi state inp hst hr.1 hm).1]
  induction inputs generalizing state with
  | nil => exact Nat.zero_le 1
  | cons inp inputs ih =>
    rw [transcript, flatMap_cons, count_append]
    by_cases hm : a ∈ f (inp, (step state inp).1)
    · rw [hn inputs _ (hI state inp h ha.1) ha.2 (hgi state inp h ha.1 hm).2]
      exact ho state inp h
    · rw [count_eq_zero.mpr hm, Nat.zero_add]
      exact ih (hI state inp h ha.1) ha.2

theorem count_flatMap_le_one [DecidableEq α]
    (hI : ∀ state inp, I state → I (step state inp).2)
    (hg : ∀ state inp, I state → ¬ Q state → ¬ Q (step state inp).2)
    (hgi : ∀ state inp, I state → a ∈ f (inp, (step state inp).1) → Q state ∧ ¬ Q (step state inp).2)
    (ho : ∀ state inp, I state → (f (inp, (step state inp).1)).count a ≤ 1) (h : I state) :
    ((transcript step state inputs).flatMap f).count a ≤ 1 :=
  count_flatMap_le_one_of_along (P := fun _ _ => True) (fun state inp h _ => hI state inp h)
    (fun state inp h _ => hg state inp h) (fun state inp h _ => hgi state inp h) ho h
    (along_of_forall_mem fun _ _ => trivial)

/-- Related states answer alike. -/
theorem transcript_eq (hs : ∀ s1 s2 inp inputs, R s1 s2 (inp :: inputs) →
      (step s1 inp).1 = (step s2 inp).1 ∧ R (step s1 inp).2 (step s2 inp).2 inputs)
    {s1 s2 : σ} (h : R s1 s2 inputs) : transcript step s1 inputs = transcript step s2 inputs := by
  induction inputs generalizing s1 s2 with
  | nil => rfl
  | cons inp inputs ih =>
    obtain ⟨ha, hn⟩ := hs s1 s2 inp inputs h
    rw [transcript, transcript, ha, ih hn]

/-- Machines in related states give answers that look alike. -/
theorem map_transcript_eq {σ2 ο2 π : Type*} {st2 : σ2 → ι → ο2 × σ2} (v : ο → π) (v2 : ο2 → π)
    {R : σ → σ2 → List ι → Prop}
    (hs : ∀ s s2 inp inputs, R s s2 (inp :: inputs) →
      v (step s inp).1 = v2 (st2 s2 inp).1 ∧ R (step s inp).2 (st2 s2 inp).2 inputs)
    {s : σ} {s2 : σ2} (h : R s s2 inputs) :
    (transcript step s inputs).map (fun entry => v entry.2) =
      (transcript st2 s2 inputs).map fun entry => v2 entry.2 := by
  induction inputs generalizing s s2 with
  | nil => rfl
  | cons inp inputs ih =>
    obtain ⟨ha, hn⟩ := hs s s2 inp inputs h
    rw [transcript, transcript, map_cons, map_cons, ha, ih hn]

/-- What a run spends is covered by a potential that every step pays from. -/
theorem sum_spent_le {K : Type*} [AddCommGroup K] [LinearOrder K] [IsOrderedAddMonoid K] {po : σ → K}
    {s : ι × ο → K} {I : σ → List ι → Prop}
    (hs : ∀ state inp inputs, I state (inp :: inputs) →
      s (inp, (step state inp).1) + po (step state inp).2 ≤ po state ∧
        I (step state inp).2 inputs)
    (he : ∀ state, I state [] → 0 ≤ po state) (h : I state inputs) :
    ((transcript step state inputs).map s).sum ≤ po state := by
  induction inputs generalizing state with
  | nil => exact he state h
  | cons inp inputs ih =>
    obtain ⟨hp, hn⟩ := hs state inp inputs h
    exact (add_le_add_right (ih hn) _).trans hp

/-- **Unwinding.** When kept inputs are answered alike as far as they are observed, and dropped ones
are not observed and keep the states related, a run without the dropped inputs looks the same. -/
theorem filter_transcript_eq (k o : ι → Bool)
    (hk : ∀ s1 s2 inp inputs, R s1 s2 (inp :: inputs) → k inp = true →
      (o inp = true → (step s1 inp).1 = (step s2 inp).1) ∧
        R (step s1 inp).2 (step s2 inp).2 inputs)
    (hd : ∀ s1 s2 inp inputs, R s1 s2 (inp :: inputs) → k inp = false →
      o inp = false ∧ R (step s1 inp).2 s2 inputs)
    {s1 s2 : σ} (h : R s1 s2 inputs) :
    (transcript step s1 inputs).filter (fun entry => o entry.1) =
      (transcript step s2 (inputs.filter k)).filter fun entry => o entry.1 := by
  induction inputs generalizing s1 s2 with
  | nil => rfl
  | cons inp inputs ih =>
    cases hke : k inp with
    | true =>
      obtain ⟨ha, hn⟩ := hk s1 s2 inp inputs h hke
      rw [filter_cons_of_pos hke, transcript, transcript, filter_cons, filter_cons, ih hn]
      split
      · rename_i ho
        rw [ha ho]
      · rfl
    | false =>
      obtain ⟨hh, hn⟩ := hd s1 s2 inp inputs h hke
      rw [filter_cons_of_neg (by simp [hke]), transcript, filter_cons_of_neg (by simp [hh]), ih hn]

/-- Deleting an input deletes its entry, if the rest of the run answers as if it had not been there. -/
theorem transcript_eraseIdx {I : σ → List ι → Prop} {s : ι × ο → Prop}
    (hst : ∀ state inp inputs, I state (inp :: inputs) → I (step state inp).2 inputs)
    (hsi : ∀ state inp inputs, I state (inp :: inputs) → s (inp, (step state inp).1) →
      transcript step (step state inp).2 inputs = transcript step state inputs)
    (h : I state inputs) {i : ℕ} {e : ι × ο} (he : (transcript step state inputs)[i]? = some e)
    (hs : s e) : transcript step state (inputs.eraseIdx i) = (transcript step state inputs).eraseIdx i := by
  induction inputs generalizing state i with
  | nil => simp [transcript] at he
  | cons inp inputs ih =>
    cases i with
    | zero =>
      rw [transcript, List.getElem?_cons_zero, Option.some.injEq] at he
      exact (hsi state inp inputs h (he ▸ hs)).symm
    | succ i =>
      rw [eraseIdx_cons_succ, transcript, transcript, eraseIdx_cons_succ, ih (hst _ _ _ h) he]

end IronAuth.Lib.Machine
