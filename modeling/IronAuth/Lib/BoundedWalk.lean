import Mathlib.Data.List.Chain
import Mathlib.Data.List.Nodup
import Mathlib.Data.List.Perm.Subperm
import Mathlib.Logic.Relation

/-!
# A walk with a hop bound

A deterministic loop that either passes on to another node or settles on a result,
and that gives up after a bounded number of hops. When the bound exceeds the number
of nodes that can be passed, the loop gives up only on a walk that really cycles.
-/

namespace IronAuth.Lib.BoundedWalk

open Relation

variable {α β : Type*}

/-- The loop: at most `n` hops. -/
def settle (next : α → α ⊕ β) : ℕ → α → Option β
  | 0, _ => none
  | n + 1, a =>
    match next a with
    | .inl b => settle next n b
    | .inr r => some r

/-- The walk passes from `a` to `b`. -/
def Passes (next : α → α ⊕ β) (a b : α) : Prop := next a = .inl b

variable {next : α → α ⊕ β} {a b c d : α}

theorem Passes.unique (hb : Passes next a b) (hc : Passes next a c) : b = c := by
  rw [Passes, hb, Sum.inl.injEq] at hc
  exact hc

theorem passes_rightUnique : Relator.RightUnique (Passes next) := fun _ _ _ => Passes.unique

/-- A settled node passes nowhere. -/
theorem eq_of_settled {r : β} (hr : next a = .inr r) (hrc : ReflTransGen (Passes next) a b) : a = b := by
  rcases ReflTransGen.cases_head hrc with heq | ⟨c, hac, -⟩
  · exact heq
  · rw [Passes, hr] at hac
    cases hac

/-- On a cycle, whatever is reached leads back. -/
theorem reflTransGen_of_cycle (hc : TransGen (Passes next) c c) (hr : ReflTransGen (Passes next) c d) :
    ReflTransGen (Passes next) d c := by
  induction hr with
  | refl => exact .refl
  | @tail b d _ hbd ih =>
    rcases ReflTransGen.cases_head ih with rfl | ⟨e, hbe, hb⟩
    · obtain ⟨e, hce, hb⟩ := TransGen.head'_iff.mp hc
      exact hbd.unique hce ▸ hb
    · exact hbd.unique hbe ▸ hb

/-- A walk into a cycle never settles. -/
theorem not_settles_of_cycle (hi : ReflTransGen (Passes next) a c) (hc : TransGen (Passes next) c c)
    (hr : ReflTransGen (Passes next) a d) (r : β) : next d ≠ .inr r := by
  intro hs
  have hdc : ReflTransGen (Passes next) d c := by
    rcases ReflTransGen.total_of_right_unique passes_rightUnique hi hr with hcd | hdc
    · exact reflTransGen_of_cycle hc hcd
    · exact hdc
  obtain ⟨e, hce, -⟩ := TransGen.head'_iff.mp hc
  rw [Passes, ← eq_of_settled hs hdc, hs] at hce
  cases hce

/-- What the loop settles on is reached. -/
theorem exists_of_settle {n : ℕ} {r : β} (h : settle next n a = some r) :
    ∃ c, ReflTransGen (Passes next) a c ∧ next c = .inr r := by
  induction n generalizing a with
  | zero => cases h
  | succ n ih =>
    unfold settle at h
    split at h
    · rename_i b hb
      obtain ⟨c, hc, hr⟩ := ih h
      exact ⟨c, .head hb hc, hr⟩
    · rename_i r2 hr
      exact ⟨a, .refl, hr.trans (congrArg Sum.inr (Option.some.inj h))⟩

/-- Nor does the loop, whatever its bound. -/
theorem settle_of_cycle (hi : ReflTransGen (Passes next) a c) (hc : TransGen (Passes next) c c) (n : ℕ) :
    settle next n a = none := by
  cases hs : settle next n a with
  | none => rfl
  | some r =>
    obtain ⟨d, hd, hr⟩ := exists_of_settle hs
    exact absurd hr (not_settles_of_cycle hi hc hd r)

/-- The walk passes on and on. -/
def Forever (next : α → α ⊕ β) (a : α) : Prop := ∃ visit : ℕ → α, visit 0 = a ∧ ∀ n, Passes next (visit n) (visit (n + 1))

theorem settle_of_forever (h : Forever next a) (n : ℕ) : settle next n a = none := by
  induction n generalizing a with
  | zero => rfl
  | succ n ih =>
    obtain ⟨visit, rfl, hv⟩ := h
    have hf : next (visit 0) = .inl (visit 1) := hv 0
    simp only [settle, hf]
    exact ih ⟨fun n => visit (n + 1), rfl, fun n => hv (n + 1)⟩

theorem forever_of_settle (h : ∀ n, settle next n a = none) : Forever next a := by
  let follow : α → α := fun b => (next b).elim id fun _ => b
  have hf : ∀ b, (∀ n, settle next n b = none) →
      Passes next b (follow b) ∧ ∀ n, settle next n (follow b) = none := by
    intro b hb
    cases hne : next b with
    | inl c => exact ⟨by simp [Passes, follow, hne], fun n => by simpa [settle, follow, hne] using hb (n + 1)⟩
    | inr r => simpa [settle, hne] using hb 1
  have ha : ∀ n m, settle next m (follow^[n] a) = none := by
    intro n
    induction n with
    | zero => exact h
    | succ n ih => exact Function.iterate_succ_apply' follow n a ▸ (hf _ ih).2
  refine ⟨fun n => follow^[n] a, rfl, fun n => ?_⟩
  simpa only [Function.iterate_succ_apply'] using (hf _ (ha n)).1

/-- A loop that gives up has made all its hops. -/
theorem exists_chain_of_settle {n : ℕ} (h : settle next n a = none) :
    ∃ l : List α, l.length = n ∧ (a :: l).IsChain (Passes next) := by
  induction n generalizing a with
  | zero => exact ⟨[], rfl, List.isChain_singleton _⟩
  | succ n ih =>
    unfold settle at h
    split at h
    · rename_i b hb
      obtain ⟨l, hl, hch⟩ := ih h
      exact ⟨b :: l, by simp [hl], List.isChain_cons_cons.mpr ⟨hb, hch⟩⟩
    · cases h

section Bound

variable {nodes : List α} {n : ℕ} (hnodes : ∀ {a b : α}, Passes next a b → b ∈ nodes) (hn : nodes.length < n)

include hnodes hn

/-- Past the bound some node is passed twice. -/
theorem exists_cycle_of_settle (h : settle next n a = none) :
    ∃ c, TransGen (Passes next) a c ∧ TransGen (Passes next) c c := by
  obtain ⟨l, hl, hch⟩ := exists_chain_of_settle h
  have ht : (a :: l).Pairwise (TransGen (Passes next)) :=
    (hch.imp fun _ _ hab => TransGen.single hab).pairwise
  obtain ⟨hf, hr⟩ := List.pairwise_cons.mp ht
  have hs : l ⊆ nodes := by
    intro b hb
    obtain ⟨c, -, hcb⟩ := TransGen.tail'_iff.mp (hf b hb)
    exact hnodes hcb
  have hd : ¬ l.Nodup := by
    intro hnd
    have hle := (List.subperm_of_subset hnd hs).length_le
    omega
  rw [List.nodup_iff_sublist] at hd
  push Not at hd
  obtain ⟨c, hc⟩ := hd
  exact ⟨c, hf c (hc.subset (List.mem_cons_self ..)), List.pairwise_iff_forall_sublist.mp hr hc⟩

/-- **The loop gives up exactly on a walk that cycles.** -/
theorem settle_eq_none_iff :
    settle next n a = none ↔ ∃ c, TransGen (Passes next) a c ∧ TransGen (Passes next) c c := by
  refine ⟨exists_cycle_of_settle hnodes hn, ?_⟩
  intro ⟨c, hi, hc⟩
  exact settle_of_cycle hi.to_reflTransGen hc n

/-- **The loop gives up exactly on a walk that goes on forever.** -/
theorem settle_eq_none_iff_forever : settle next n a = none ↔ Forever next a := by
  refine ⟨fun h => forever_of_settle ?_, fun h => settle_of_forever h n⟩
  obtain ⟨c, hi, hc⟩ := exists_cycle_of_settle hnodes hn h
  exact settle_of_cycle hi.to_reflTransGen hc

/-- **The loop settles on what the walk settles on.** -/
theorem settle_eq_some_iff {r : β} :
    settle next n a = some r ↔ ∃ c, ReflTransGen (Passes next) a c ∧ next c = .inr r := by
  refine ⟨exists_of_settle, ?_⟩
  intro ⟨c, hc, hr⟩
  cases hs : settle next n a with
  | none =>
    obtain ⟨d, hi, hcy⟩ := exists_cycle_of_settle hnodes hn hs
    exact absurd hr (not_settles_of_cycle hi.to_reflTransGen hcy hc r)
  | some r2 =>
    obtain ⟨d, hd, hr2⟩ := exists_of_settle hs
    have hcd : c = d := by
      rcases ReflTransGen.total_of_right_unique passes_rightUnique hc hd with hcd | hdc
      · exact eq_of_settled hr hcd
      · exact (eq_of_settled hr2 hdc).symm
    rw [← hcd, hr, Sum.inr.injEq] at hr2
    rw [hr2]

end Bound

end IronAuth.Lib.BoundedWalk
