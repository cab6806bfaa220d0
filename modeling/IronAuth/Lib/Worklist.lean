import Mathlib.Logic.Relation
import Mathlib.Data.List.Count

/-!
# Iterative graph walks

The walk every reachability question of a load-time check comes down to: a stack
of nodes still to look at, a set of nodes already reached, and a loop that pops a
node, skips it if it was reached before, and otherwise records it and pushes its
successors. The loop is given a fuel, and `walk_closed` says when the fuel is
enough: the number of edges leaving the nodes not yet reached, plus the length of
the stack.
-/

namespace IronAuth.Lib.Worklist

open Relation List

variable {α : Type*} [DecidableEq α]

/-- `b` is a successor of `a`. -/
def Step (next : α → List α) (a b : α) : Prop := b ∈ next a

/-- The walk: pop a node off the stack, and if it is new record it and push its
successors (the last successor is popped first). -/
def walk (next : α → List α) : ℕ → List α → List α → List α
  | 0, _, reached => reached
  | _ + 1, [], reached => reached
  | fuel + 1, node :: stack, reached =>
      if node ∈ reached then walk next fuel stack reached
      else walk next fuel ((next node).reverse ++ stack) (node :: reached)

/-- The walk with an early exit: `true` as soon as the target is popped. -/
def search (next : α → List α) (target : α) : ℕ → List α → List α → Bool
  | 0, _, _ => false
  | _ + 1, [], _ => false
  | fuel + 1, node :: stack, visited =>
      if node = target then true
      else if node ∈ visited then search next target fuel stack visited
      else search next target fuel ((next node).reverse ++ stack) (node :: visited)

/-- What is left to do: the nodes on the stack, and the edges leaving nodes that were
not reached. `sources` lists the source of each edge, with multiplicity. -/
def pending (sources stack reached : List α) : ℕ :=
  stack.length + (sources.filter (· ∉ reached)).length

theorem length_filter_notMem_cons (s : List α) {n : α} {rch : List α} (h : n ∉ rch) :
    (s.filter (· ∉ n :: rch)).length + s.count n
      = (s.filter (· ∉ rch)).length := by
  induction s with
  | nil => rfl
  | cons a as ih =>
    by_cases ha : a = n
    · subst ha
      simp [h] at ih ⊢
      omega
    · by_cases hr : a ∈ rch <;> simp [ha, hr] at ih ⊢ <;> omega

/-- A fresh node taken off the stack leaves less to do. -/
theorem pending_visit {next : α → List α} {s reached : List α} {n : α} (st : List α)
    (hc : (next n).length ≤ s.count n) (h : n ∉ reached) :
    pending s ((next n).reverse ++ st) (n :: reached) < pending s (n :: st) reached := by
  have hl := length_filter_notMem_cons s h
  simp only [pending, length_append, length_reverse, length_cons]
  omega

/-- Nothing reached yet: the stack, and every edge. -/
theorem pending_nil_le (s st : List α) : pending s st [] ≤ st.length + s.length :=
  Nat.add_le_add_left (length_filter_le ..) _

section Walk

variable {next : α → List α}

/-- The walk only adds nodes that some node of the stack leads to. -/
theorem walk_sound {x : α} : ∀ {f : ℕ} {s rch : List α},
    x ∈ walk next f s rch → x ∈ rch ∨ ∃ y ∈ s, ReflTransGen (Step next) y x := by
  intro f
  induction f with
  | zero => intro s rch h; exact Or.inl h
  | succ f ih =>
    intro s rch h
    cases s with
    | nil => exact Or.inl h
    | cons node s =>
      simp only [walk] at h
      split_ifs at h with hr
      · rcases ih h with h | ⟨y, hy, hyx⟩
        · exact Or.inl h
        · exact Or.inr ⟨y, mem_cons_of_mem _ hy, hyx⟩
      · rcases ih h with h | ⟨y, hy, hyx⟩
        · rcases mem_cons.mp h with rfl | h
          · exact Or.inr ⟨x, mem_cons_self .., .refl⟩
          · exact Or.inl h
        · rcases mem_append.mp hy with hy | hy
          · exact Or.inr ⟨node, mem_cons_self .., .head (mem_reverse.mp hy) hyx⟩
          · exact Or.inr ⟨y, mem_cons_of_mem _ hy, hyx⟩

/-- With fuel for all that is pending, the walk ends with everything on the stack
reached and with a set closed under successors. -/
theorem walk_closed {so : List α} (hc : ∀ n, (next n).length ≤ so.count n) :
    ∀ (f : ℕ) (s reached : List α), pending so s reached < f →
      (∀ n ∈ reached, ∀ m ∈ next n, m ∈ reached ∨ m ∈ s) →
      (∀ n ∈ s, n ∈ walk next f s reached) ∧ (∀ n ∈ reached, n ∈ walk next f s reached) ∧
        ∀ n ∈ walk next f s reached, ∀ m ∈ next n, m ∈ walk next f s reached := by
  intro f
  induction f with
  | zero => intro s reached h; omega
  | succ f ih =>
    intro s reached hf hi
    cases s with
    | nil =>
      refine ⟨by simp, fun n hn => hn, fun n hn m hm => ?_⟩
      rcases hi n hn m hm with h | h
      · exact h
      · exact absurd h (not_mem_nil)
    | cons no s =>
      by_cases hr : no ∈ reached
      · simp only [walk, if_pos hr]
        have hlt : pending so s reached < pending so (no :: s) reached := by simp [pending]
        obtain ⟨hs, hre, hcl⟩ := ih s reached (by omega) (by
          intro n hn m hm
          rcases hi n hn m hm with h | h
          · exact Or.inl h
          · rcases mem_cons.mp h with rfl | h
            · exact Or.inl hr
            · exact Or.inr h)
        refine ⟨fun n hn => ?_, hre, hcl⟩
        rcases mem_cons.mp hn with rfl | hn
        · exact hre _ hr
        · exact hs n hn
      · simp only [walk, if_neg hr]
        have hlt := pending_visit s (hc no) hr
        obtain ⟨hs, hre, hcl⟩ := ih ((next no).reverse ++ s) (no :: reached) (by omega) (by
          intro n hn m hm
          rcases mem_cons.mp hn with rfl | hn
          · exact Or.inr (mem_append_left _ (mem_reverse.mpr hm))
          · rcases hi n hn m hm with h | h
            · exact Or.inl (mem_cons_of_mem _ h)
            · rcases mem_cons.mp h with rfl | h
              · exact Or.inl (mem_cons_self ..)
              · exact Or.inr (mem_append_right _ h))
        refine ⟨fun n hn => ?_, fun n hn => hre n (mem_cons_of_mem _ hn), hcl⟩
        rcases mem_cons.mp hn with rfl | hn
        · exact hre _ (mem_cons_self ..)
        · exact hs n (mem_append_right _ hn)

/-- **The walk computes reachability**: started at `entry` with fuel for every edge, it
reaches exactly the nodes that `entry` leads to. -/
theorem mem_walk_iff {s : List α} (hc : ∀ n, (next n).length ≤ s.count n) {f : ℕ}
    (hf : s.length + 1 < f) (e x : α) :
    x ∈ walk next f [e] [] ↔ ReflTransGen (Step next) e x := by
  constructor
  · intro h
    rcases walk_sound h with h | ⟨y, hy, hyx⟩
    · exact absurd h (not_mem_nil)
    · rw [mem_singleton] at hy
      exact hy ▸ hyx
  · intro h
    have hpd := pending_nil_le s [e]
    rw [length_singleton] at hpd
    obtain ⟨hs, -, hcl⟩ := walk_closed hc f [e] [] (by omega) (by simp)
    induction h with
    | refl => exact hs e (mem_singleton_self _)
    | tail _ hst ih => exact hcl _ ih _ hst

theorem mem_walk_of_mem_reached {x : α} : ∀ {f : ℕ} {s reached : List α},
    x ∈ reached → x ∈ walk next f s reached := by
  intro f
  induction f with
  | zero => intro s reached h; exact h
  | succ f ih =>
    intro s reached h
    cases s with
    | nil => exact h
    | cons node s =>
      simp only [walk]
      split_ifs
      · exact ih h
      · exact ih (mem_cons_of_mem _ h)

/-- The early exit changes nothing: `search` answers whether the walk would reach the target. -/
theorem search_eq_true_iff_mem_walk {tgt : α} : ∀ {f : ℕ} {s vis : List α},
    tgt ∉ vis → (search next tgt f s vis = true ↔ tgt ∈ walk next f s vis) := by
  intro f
  induction f with
  | zero => intro s vis h; simp [search, walk, h]
  | succ f ih =>
    intro s vis h
    cases s with
    | nil => simp [search, walk, h]
    | cons node s =>
      by_cases ht : node = tgt
      · subst ht
        simp only [search, walk, if_true, if_neg h, true_iff]
        exact mem_walk_of_mem_reached (mem_cons_self ..)
      · by_cases hr : node ∈ vis
        · simp only [search, walk, if_neg ht, if_pos hr]
          exact ih h
        · simp only [search, walk, if_neg ht, if_neg hr]
          refine ih ?_
          simp only [mem_cons, not_or]
          exact ⟨Ne.symm ht, h⟩

/-- **The search is exact**: started at the successors of `source`, it finds the target
exactly when some nonempty path leads from `source` to it. -/
theorem search_eq_true_iff {s : List α} (hc : ∀ n, (next n).length ≤ s.count n) {f : ℕ}
    (src target : α) (hf : (next src).length + s.length < f) :
    search next target f (next src).reverse [] = true ↔ TransGen (Step next) src target := by
  rw [search_eq_true_iff_mem_walk (not_mem_nil)]
  constructor
  · intro h
    rcases walk_sound h with h | ⟨y, hy, hyx⟩
    · exact absurd h (not_mem_nil)
    · exact TransGen.head' (mem_reverse.mp hy) hyx
  · intro h
    obtain ⟨y, hy, hyx⟩ := TransGen.head'_iff.mp h
    have hpd := pending_nil_le s (next src).reverse
    rw [length_reverse] at hpd
    obtain ⟨hs, -, hcl⟩ := walk_closed hc f (next src).reverse [] (by omega) (by simp)
    clear h
    induction hyx with
    | refl => exact hs y (mem_reverse.mpr hy)
    | tail _ hst ih => exact hcl _ ih _ hst

end Walk

end IronAuth.Lib.Worklist
