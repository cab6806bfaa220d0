import Mathlib.Data.List.Basic
import Mathlib.Data.List.Forall2

/-!
# Loops that may fail

A fallible computation is a value of `Except`, and a loop that stops at its first error is
`List.foldlM` over it. Two such loops are compared through a view of their states, one step
at a time.
-/

namespace IronAuth.Lib.Fallible

open List

universe u

variable {ε ι κ : Type*} {α β σ τ : Type u}

/-- Refuse with an error, under a condition. -/
def refuseIf (refused : Prop) [Decidable refused] (error : ε) : Except ε Unit :=
  if refused then .error error else .ok ()

section refuseIf

variable {refused : Prop} [Decidable refused] {error : ε}

@[simp]
theorem refuseIf_eq_ok_iff : refuseIf refused error = .ok () ↔ ¬ refused := by
  unfold refuseIf
  split_ifs with h
  · simp [h]
  · simp [h]

theorem refuseIf_pos (h : refused) : refuseIf refused error = .error error := if_pos h

theorem refuseIf_neg (h : ¬ refused) : refuseIf refused error = .ok () := if_neg h

end refuseIf

variable {x : Except ε α} {f : α → Except ε β} {s : σ} {st : σ → ι → Except ε σ} {ins : List ι}

/-- A sequence succeeds when its parts do. -/
theorem bind_eq_ok_iff {b : β} :
    (x >>= f) = .ok b ↔ ∃ a, x = .ok a ∧ f a = .ok b := by
  cases x with
  | error | ok => simp [bind, Except.bind]

/-- A check has one result. -/
theorem exists_unit_iff {p : Unit → Prop} : (∃ r, p r) ↔ p () := ⟨fun ⟨_, h⟩ => h, fun h => ⟨(), h⟩⟩

/-- The same, when the first part is a check. -/
@[simp]
theorem check_bind_eq_ok_iff {α : Type} {x : Except ε Unit} {f : Unit → Except ε α} {a : α} :
    (x >>= f) = .ok a ↔ x = .ok () ∧ f () = .ok a := by
  rw [bind_eq_ok_iff, exists_unit_iff]

@[simp]
theorem map_eq_ok_iff {f : α → β} {b : β} : f <$> x = .ok b ↔ ∃ a, x = .ok a ∧ f a = b := by
  cases x with
  | error | ok => simp [Functor.map, Except.map]

@[simp]
theorem map_ok (f : α → β) (a : α) : f <$> (.ok a : Except ε α) = .ok (f a) := rfl

@[simp]
theorem ok_bind (a : α) (f : α → Except ε β) : ((.ok a : Except ε α) >>= f) = f a := rfl

@[simp]
theorem error_bind (e : ε) (f : α → Except ε β) : ((.error e : Except ε α) >>= f) = .error e := rfl

@[simp]
theorem mapError_eq_ok_iff {δ : Type*} {f : ε → δ} {a : α} : x.mapError f = .ok a ↔ x = .ok a := by
  cases x with
  | error | ok => simp [Except.mapError]

/-- `ok_or`. -/
def okOr (value : Option α) (error : ε) : Except ε α :=
  match value with
  | some a => .ok a
  | none => .error error

theorem okOr_eq_ok_iff {v : Option α} {error : ε} {a : α} : okOr v error = .ok a ↔ v = some a := by
  cases v <;> simp [okOr]

theorem map_okOr (f : α → β) (v : Option α) (error : ε) : f <$> okOr v error = okOr (v.map f) error := by
  cases v <;> rfl

/-- Computations that look alike go on alike, if what follows depends on the look only. -/
theorem bind_eq_bind_of_view {y : Except ε α} (v : α → β) {f g : α → Except ε σ} (h : v <$> x = v <$> y)
    (hfg : ∀ a b, v a = v b → f a = g b) : (x >>= f) = (y >>= g) := by
  cases x with
  | error e =>
    cases y with
    | error e2 => cases h; rfl
    | ok b => cases h
  | ok a =>
    cases y with
    | error e => cases h
    | ok b => exact hfg a b (Except.ok.inj h)

/-- **A view that commutes with each step commutes with the loop.** -/
theorem foldlM_view {s : σ → ι → Except ε σ} {s2 : τ → ι → Except ε τ} (v : σ → τ)
    (h : ∀ state inp, s2 (v state) inp = v <$> s state inp) (state : σ) (ins : List ι) :
    ins.foldlM s2 (v state) = v <$> ins.foldlM s state := by
  induction ins generalizing state with
  | nil => rfl
  | cons inp ins ih =>
    rw [foldlM_cons, foldlM_cons, h]
    cases s state inp with
    | error e => rfl
    | ok next => exact ih next

/-- **An invariant kept by each step holds after the loop.** -/
theorem foldlM_of_invariant {I : σ → Prop}
    (h : ∀ s, ∀ inp ∈ ins, ∀ next, I s → st s inp = .ok next → I next) {last : σ}
    (hst : I s) (hr : ins.foldlM st s = .ok last) : I last := by
  induction ins generalizing s with
  | nil => cases hr; exact hst
  | cons inp ins ih =>
    rw [foldlM_cons, bind_eq_ok_iff] at hr
    obtain ⟨next, hn, hr⟩ := hr
    refine ih (fun s inp hm => h s inp (mem_cons_of_mem _ hm)) ?_ hr
    exact h s inp (mem_cons_self ..) next hst hn

/-- **A loop over changes of different things settles all of them**, when each change settles its own
thing and leaves the things that are settled, and the changes that are to come, as they are. -/
theorem foldlM_settles (su : ι → κ) (Settled : κ → σ → Prop) (Pending : ι → σ → Prop)
    (ho : ∀ s change next, Pending change s → st s change = .ok next → Settled (su change) next)
    (hf : ∀ s change next, Pending change s → st s change = .ok next →
      ∀ k ≠ su change, Settled k s → Settled k next)
    (hk : ∀ s change next, Pending change s → st s change = .ok next →
      ∀ other, su other ≠ su change → Pending other s → Pending other next)
    {c : List ι} (hnd : (c.map su).Nodup) {last : σ}
    (hpd : ∀ change ∈ c, Pending change s) (hs : ∀ k ∉ c.map su, Settled k s)
    (hr : c.foldlM st s = .ok last) (k : κ) : Settled k last := by
  induction c generalizing s with
  | nil =>
    cases hr
    exact hs k not_mem_nil
  | cons change c ih =>
    rw [foldlM_cons, bind_eq_ok_iff] at hr
    obtain ⟨next, hn, hr⟩ := hr
    rw [map_cons, nodup_cons] at hnd
    have hc := hpd change (mem_cons_self ..)
    refine ih hnd.2 (fun other hot => ?_) (fun j hj => ?_) hr
    · have hne : su other ≠ su change := fun heq => hnd.1 (heq ▸ mem_map_of_mem hot)
      exact hk s change next hc hn other hne (hpd other (mem_cons_of_mem _ hot))
    · by_cases heq : j = su change
      · exact heq ▸ ho s change next hc hn
      · refine hf s change next hc hn j heq (hs j ?_)
        rw [map_cons, mem_cons, not_or]
        exact ⟨heq, hj⟩

/-- **A loop succeeds with the image of a loop that it follows step by step.** -/
theorem foldlM_ok_of_step {s2 : τ → κ → Except ε τ} {v : σ → τ} {i2 : ι → κ}
    (h : ∀ s inp next, st s inp = .ok next → s2 (v s) (i2 inp) = .ok (v next))
    {l : σ} (hr : ins.foldlM st s = .ok l) :
    (ins.map i2).foldlM s2 (v s) = .ok (v l) := by
  induction ins generalizing s with
  | nil => cases hr; rfl
  | cons inp ins ih =>
    rw [foldlM_cons, bind_eq_ok_iff] at hr
    obtain ⟨next, hn, hr⟩ := hr
    rw [map_cons, foldlM_cons, h s inp next hn]
    exact ih hr

/-- A loop succeeds when each input is one that every state takes. -/
theorem exists_foldlM_eq_ok_iff {P : ι → Prop}
    (h : ∀ s input, (∃ next, st s input = .ok next) ↔ P input) (s : σ) (ins : List ι) :
    (∃ last, ins.foldlM st s = .ok last) ↔ ∀ input ∈ ins, P input := by
  induction ins generalizing s with
  | nil => exact ⟨fun _ => forall_mem_nil P, fun _ => ⟨s, rfl⟩⟩
  | cons input ins ih =>
    simp only [foldlM_cons, bind_eq_ok_iff, forall_mem_cons]
    constructor
    · rintro ⟨last, next, hn, hru⟩
      exact ⟨(h s input).mp ⟨next, hn⟩, (ih next).mp ⟨last, hru⟩⟩
    · rintro ⟨hi, hr⟩
      obtain ⟨next, hn⟩ := (h s input).mpr hi
      obtain ⟨last, hru⟩ := (ih next).mpr hr
      exact ⟨last, next, hn, hru⟩

/-- A loop of checks succeeds when each check does. -/
theorem forM_eq_ok_iff {f : ι → Except ε Unit} {as : List ι} : as.forM f = .ok () ↔ ∀ a ∈ as, f a = .ok () := by
  induction as with
  | nil => exact ⟨fun _ => forall_mem_nil _, fun _ => rfl⟩
  | cons a as ih =>
    show (f a >>= fun _ => as.forM f) = .ok () ↔ _
    rw [check_bind_eq_ok_iff, ih, forall_mem_cons]

/-- A loop that maps each element succeeds when each element does. -/
theorem mapM_eq_some_iff {f : α → Option β} {as : List α} {bs : List β} :
    as.mapM f = some bs ↔ List.Forall₂ (fun a b => f a = some b) as bs := by
  induction as generalizing bs with
  | nil =>
    rw [mapM_nil, forall₂_nil_left_iff]
    exact ⟨fun h => (Option.some.inj h).symm, fun h => h ▸ rfl⟩
  | cons a as ih =>
    rw [mapM_cons, forall₂_cons_left_iff]
    constructor
    · intro h
      obtain ⟨b, hb, h⟩ := Option.bind_eq_some_iff.mp h
      obtain ⟨rest, hr, h⟩ := Option.bind_eq_some_iff.mp h
      exact ⟨b, rest, hb, ih.mp hr, (Option.some.inj h).symm⟩
    · rintro ⟨b, rest, hb, hr, rfl⟩
      rw [hb, ih.mpr hr]
      rfl

/-- The same, when each element may fail with an error. -/
theorem mapM_eq_ok_iff {as : List α} {bs : List β} :
    as.mapM f = .ok bs ↔ List.Forall₂ (fun a b => f a = .ok b) as bs := by
  induction as generalizing bs with
  | nil =>
    rw [mapM_nil, forall₂_nil_left_iff]
    exact ⟨fun h => (Except.ok.inj h).symm, fun h => h ▸ rfl⟩
  | cons a as ih =>
    rw [mapM_cons, forall₂_cons_left_iff]
    constructor
    · intro h
      obtain ⟨b, hb, h⟩ := bind_eq_ok_iff.mp h
      obtain ⟨rest, hr, h⟩ := bind_eq_ok_iff.mp h
      exact ⟨b, rest, hb, ih.mp hr, (Except.ok.inj h).symm⟩
    · rintro ⟨b, rest, hb, hr, rfl⟩
      rw [hb, ih.mpr hr]
      rfl

end IronAuth.Lib.Fallible
