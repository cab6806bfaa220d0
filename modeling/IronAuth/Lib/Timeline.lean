import Mathlib.Data.List.MinMax
import Mathlib.Data.List.TakeWhile
import IronAuth.Lib.Machine

/-!
# Dated inputs

Where the inputs of a machine carry dates that never run back, the machine has a state `asOf`
each instant: the one after every input dated up to it. An observer who looks twice sees two states
of one run, and what was entered in between is dated in between.

`maxByKey` is how the latest of several dated things is found.
-/

namespace IronAuth.Lib.Timeline

open Lib.Machine

section AsOf

variable {σ ι ο τ : Type*} [LinearOrder τ] (step : σ → ι → ο × σ) (date : ι → τ)

/-- The state after the inputs dated up to an instant. -/
def asOf (state : σ) (inputs : List ι) (t : τ) : σ := run step state (inputs.takeWhile fun input => decide (date input ≤ t))

variable {step date} {P : σ → ι → Prop} {state : σ} {inputs : List ι} {t u : τ}

variable {I : σ → Prop}

/-- What every input keeps that is dated up to an instant holds as of it. -/
theorem asOf_induction (hs : ∀ state inp, date inp ≤ t → P state inp → I state → I (step state inp).2)
    (h : I state) (ha : Along step P state inputs) : I (asOf step date state inputs t) := by
  unfold asOf
  induction inputs generalizing state with
  | nil => exact h
  | cons inp inputs ih =>
    rw [List.takeWhile_cons]
    split
    · rename_i hd
      exact ih (hs state inp (of_decide_eq_true hd) ha.1 h) ha.2
    · exact h

/-- What the inputs keep that are dated between two instants is carried from the one to the other. -/
theorem asOf_later (hsr : inputs.Pairwise fun a b => date a ≤ date b) (htu : t ≤ u)
    (hs : ∀ state inp, t < date inp → date inp ≤ u → P state inp → I state → I (step state inp).2)
    (ha : Along step P state inputs) (h : I (asOf step date state inputs t)) : I (asOf step date state inputs u) := by
  induction inputs generalizing state with
  | nil => exact h
  | cons inp inputs ih =>
    obtain ⟨hf, hsr⟩ := List.pairwise_cons.mp hsr
    by_cases hd : date inp ≤ t
    · -- The input is in the past of both instants.
      have hb : ∀ v, t ≤ v → asOf step date state (inp :: inputs) v = asOf step date (step state inp).2 inputs v := by
        intro v hv
        rw [asOf, List.takeWhile_cons, if_pos (decide_eq_true (hd.trans hv)), run, asOf]
      rw [hb u htu]
      exact ih hsr ha.2 (hb t le_rfl ▸ h)
    · -- It is not, and so none of the inputs after it is in the past of the first.
      have hn : asOf step date state (inp :: inputs) t = state := by
        rw [asOf, List.takeWhile_cons, if_neg (by simpa using hd), run]
      rw [hn] at h
      refine asOf_induction (P := fun state input' => t < date input' ∧ P state input') ?_ h ?_
      · intro state input' hu hP
        exact hs state input' hP.1 hu hP.2
      · have hl : ∀ input' ∈ inp :: inputs, t < date input' := by
          intro input' hm
          obtain rfl | hm := List.mem_cons.mp hm
          · exact not_le.mp hd
          · exact (not_le.mp hd).trans_le (hf input' hm)
        exact along_and_mem.mpr ⟨hl, ha⟩

end AsOf

section Latest

variable {α τ : Type*} [LinearOrder τ] {key : α → τ} {as : List α} {a : α}

/-- `Iterator::max_by_key`: of several greatest elements, the last. -/
def maxByKey (key : α → τ) (as : List α) : Option α := as.reverse.argmax key

theorem mem_of_maxByKey (h : maxByKey key as = some a) : a ∈ as := List.mem_reverse.mp (List.argmax_mem h)

theorem le_of_maxByKey (h : maxByKey key as = some a) {b : α} (hb : b ∈ as) : key b ≤ key a :=
  List.le_of_mem_argmax (List.mem_reverse.mpr hb) h

theorem maxByKey_eq_none_iff : maxByKey key as = none ↔ as = [] := by
  rw [maxByKey, List.argmax_eq_none, List.reverse_eq_nil_iff]

end Latest

end IronAuth.Lib.Timeline
