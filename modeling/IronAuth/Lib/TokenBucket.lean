import IronAuth.Lib.Machine
import Mathlib.Algebra.Order.Ring.Defs
import Mathlib.Tactic.Linarith
import Mathlib.Tactic.Ring

/-!
# Token buckets

A bucket holds at most `burst` tokens and gains `rate` of them per unit of time. The
level of a bucket that is left alone is `wait`; what may be drawn from it over time is
a trace of draws that `Conforms`.
-/

namespace IronAuth.Lib.TokenBucket

variable {K : Type*} [CommRing K] [LinearOrder K]

/-- The level after some time: it rises at `rate`, up to `burst`. -/
def wait (burst rate level elapsed : K) : K := min (level + elapsed * rate) burst

/-- A trace of draws, each at a time, that a bucket at `level` since `last` can serve. -/
def Conforms (burst rate : K) : K → K → List (K × K) → Prop
  | _, _, [] => True
  | level, last, (time, cost) :: trace =>
    last ≤ time ∧ cost ≤ wait burst rate level (time - last) ∧
      Conforms burst rate (wait burst rate level (time - last) - cost) time trace

/-- The sum of the draws between `a` and `b`, both included. -/
def drawn (a b : K) (trace : List (K × K)) : K :=
  ((trace.filter fun draw => decide (a ≤ draw.1 ∧ draw.1 ≤ b)).map Prod.snd).sum

variable {burst rate level elapsed elapsed2 : K}

theorem wait_le_burst : wait burst rate level elapsed ≤ burst := min_le_right _ _

theorem wait_le_add : wait burst rate level elapsed ≤ level + elapsed * rate := min_le_left _ _

theorem drawn_cons (a b : K) (d : K × K) (trace : List (K × K)) :
    drawn a b (d :: trace) = (if a ≤ d.1 ∧ d.1 ≤ b then d.2 else 0) + drawn a b trace := by
  unfold drawn
  rw [List.filter_cons]
  by_cases hin : a ≤ d.1 ∧ d.1 ≤ b
  · simp [hin]
  · simp only [hin, decide_false, if_false, zero_add]
    rfl

/-- Past the end of the window nothing counts. -/
theorem drawn_of_lt {a b l : K} {t : List (K × K)} (h : Conforms burst rate level l t)
    (hl : b < l) : drawn a b t = 0 := by
  induction t generalizing level l with
  | nil => rfl
  | cons d t ih =>
    obtain ⟨ha, -, hr⟩ := h
    have hla : ¬ (a ≤ d.1 ∧ d.1 ≤ b) := fun hin => absurd (hl.trans_le ha) (not_lt.mpr hin.2)
    rw [drawn_cons, if_neg hla, zero_add]
    exact ih hr (hl.trans_le ha)

/-! ### Waiting -/

variable [IsStrictOrderedRing K]

/-- A full bucket stays full. -/
@[simp] theorem wait_burst (hg : 0 ≤ elapsed * rate) : wait burst rate burst elapsed = burst :=
  min_eq_right (le_add_of_nonneg_right hg)

/-- Waiting twice is waiting once for the sum. -/
theorem wait_wait (hg : 0 ≤ elapsed2 * rate) :
    wait burst rate (wait burst rate level elapsed) elapsed2 = wait burst rate level (elapsed + elapsed2) := by
  unfold wait
  rw [← min_add_add_right, min_assoc, add_mul, ← add_assoc]
  congr 1
  exact min_eq_right (le_add_of_nonneg_right hg)

/-! ### Drawing -/

section Conforms

variable (hburst : 0 ≤ burst) (hrate : 0 ≤ rate)

include hrate

variable {l : K} {t : List (K × K)}

/-- A bucket that is looked at later is the same bucket. -/
theorem conforms_of_wait {t : K} {trace : List (K × K)} (ht : l ≤ t)
    (h : Conforms burst rate (wait burst rate level (t - l)) t trace) :
    Conforms burst rate level l trace := by
  cases trace with
  | nil => trivial
  | cons d trace =>
    obtain ⟨ha, hc, hr⟩ := h
    have hs : wait burst rate (wait burst rate level (t - l)) (d.1 - t) =
        wait burst rate level (d.1 - l) := by
      rw [wait_wait (mul_nonneg (sub_nonneg.mpr ha) hrate)]
      congr 1
      ring
    rw [hs] at hc hr
    exact ⟨ht.trans ha, hc, hr⟩

/-- What is drawn from now to the end of a window is covered by the level now and by the gain. -/
theorem drawn_le_level {a b : K} (h : Conforms burst rate level l t)
    (he : 0 ≤ level) (hl : l ≤ b) (ha : a ≤ l) : drawn a b t ≤ level + (b - l) * rate := by
  induction t generalizing level l with
  | nil =>
    have hg := mul_nonneg (sub_nonneg.mpr hl) hrate
    simpa [drawn] using add_nonneg he hg
  | cons d t ih =>
    obtain ⟨haf, hc, hr⟩ := h
    rw [drawn_cons]
    by_cases hb : d.1 ≤ b
    · have hle := ih hr (sub_nonneg.mpr hc) hb (ha.trans haf)
      have hg : wait burst rate level (d.1 - l) ≤ level + (d.1 - l) * rate := wait_le_add
      rw [if_pos ⟨ha.trans haf, hb⟩]
      linarith
    · rw [if_neg fun hin => hb hin.2, drawn_of_lt hr (not_le.mp hb), add_zero]
      exact add_nonneg he (mul_nonneg (sub_nonneg.mpr hl) hrate)

include hburst

/-- **A bucket never oversells**: in a window a conforming trace draws at most a burst and what the
window gains. -/
theorem drawn_le {a b : K} (h : Conforms burst rate level l t)
    (hab : a ≤ b) : drawn a b t ≤ burst + (b - a) * rate := by
  have hg := mul_nonneg (sub_nonneg.mpr hab) hrate
  induction t generalizing level l with
  | nil => simpa [drawn] using add_nonneg hburst hg
  | cons d t ih =>
    obtain ⟨haf, hc, hr⟩ := h
    have hl := sub_nonneg.mpr hc
    by_cases ha : a ≤ d.1
    · by_cases hb : d.1 ≤ b
      · -- the window has begun: count from here
        have hle := drawn_le_level hrate hr hl hb ha
        have hca : wait burst rate level (d.1 - l) ≤ burst := wait_le_burst
        have hs : (b - d.1) * rate ≤ (b - a) * rate :=
          mul_le_mul_of_nonneg_right (by linarith) hrate
        rw [drawn_cons, if_pos ⟨ha, hb⟩]
        linarith
      · rw [drawn_cons, if_neg fun hin => hb hin.2, drawn_of_lt hr (not_le.mp hb), add_zero]
        exact add_nonneg hburst hg
    · rw [drawn_cons, if_neg fun hin => ha hin.1, zero_add]
      exact ih hr

end Conforms

/-! ### The draws of a machine -/

section Draws

open Machine

variable {σ ι ο : Type*} {step : σ → ι → ο × σ}

/-- The draws of a transcript, each at the time of its input. -/
def draws (time : ι → K) (draw : ι × ο → Option K) (entries : List (ι × ο)) : List (K × K) :=
  entries.filterMap fun entry => (draw entry).map fun cost => (time entry.1, cost)

/-- What a step does to a level that is a function of time: it draws from it, or leaves it alone. -/
def Draws (burst rate time : K) (cost : Option K) (before after : K → K) : Prop :=
  match cost with
  | none => ∀ t, time ≤ t → after t = before t
  | some cost => cost ≤ before time ∧ ∀ t, time ≤ t → after t = wait burst rate (before time - cost) (t - time)

variable {ti : ι → K} {d : ι × ο → Option K} {l : σ → K → K} {I : σ → List ι → Prop} {ins : List ι}

variable (hburst : 0 ≤ burst) (hrate : 0 ≤ rate) (hi : ∀ s inp ins, I s (inp :: ins) → I (step s inp).2 ins)
  (hd : ∀ s inp ins, I s (inp :: ins) → Draws burst rate (ti inp) (d (inp, (step s inp).1)) (l s) (l (step s inp).2))
  {s : σ} (h : I s ins)

include hrate hi hd h

/-- A machine draws as a bucket allows, when each of its steps does. -/
theorem conforms_draws {now : K} (hcl : ins.Pairwise fun i j => ti i ≤ ti j) (hn : ∀ inp ∈ ins, now ≤ ti inp)
    (hl : ∀ t, now ≤ t → l s t = wait burst rate level (t - now)) :
    Conforms burst rate level now (draws ti d (transcript step s ins)) := by
  induction ins generalizing s now level with
  | nil => trivial
  | cons inp ins ih =>
    obtain ⟨hla, hcl⟩ := List.pairwise_cons.mp hcl
    have hti := hn inp List.mem_cons_self
    have hs := hd s inp ins h
    rw [transcript, draws, List.filterMap_cons]
    cases hc : d (inp, (step s inp).1) with
    | none =>
      rw [hc] at hs
      refine conforms_of_wait hrate hti (ih (hi _ _ _ h) hcl hla fun t ht => ?_)
      rw [hs t ht, hl t (hti.trans ht), wait_wait (mul_nonneg (sub_nonneg.mpr ht) hrate)]
      congr 1
      ring
    | some cost =>
      rw [hc] at hs
      obtain ⟨hle, ha⟩ := hs
      rw [hl _ hti] at hle ha
      exact ⟨hti, hle, ih (hi _ _ _ h) hcl hla ha⟩

include hburst in
/-- **A machine that draws as a full bucket allows never oversells.** -/
theorem drawn_draws_le (hc : ins.Pairwise fun i j => ti i ≤ ti j) (hf : ∀ t, l s t = burst) {a b : K} (hab : a ≤ b) :
    drawn a b (draws ti d (transcript step s ins)) ≤ burst + (b - a) * rate := by
  cases ins with
  | nil =>
    have hn : Conforms burst rate burst a (draws ti d (transcript step s [])) := trivial
    exact drawn_le hburst hrate hn hab
  | cons inp ins =>
    have hco : Conforms burst rate burst (ti inp) (draws ti d (transcript step s (inp :: ins))) := by
      refine conforms_draws hrate hi hd h hc ?_ ?_
      · intro la hl
        rcases List.mem_cons.mp hl with rfl | hm
        · exact le_refl _
        · exact (List.pairwise_cons.mp hc).1 la hm
      · intro t ht
        rw [hf, wait_burst (mul_nonneg (sub_nonneg.mpr ht) hrate)]
    exact drawn_le hburst hrate hco hab

end Draws

end IronAuth.Lib.TokenBucket
