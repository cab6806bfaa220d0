import Mathlib.Data.List.Basic
import Mathlib.Logic.Relation

/-!
# Depth-first expansion

A forest given by a function `children` on which a rank decreases, its nodes in
preorder, and the agenda loop that visits them: take the first node of the agenda
that has children and put its children in its place. The loop visits the nodes in
preorder (`covers_expand`), whatever is done at each of them.
-/

namespace IronAuth.Lib.Preorder

open Relation List

variable {α : Type*}

/-- The nodes below `a` in preorder, `a` first, down to a depth of `n`. -/
def preorder (children : α → List α) : ℕ → α → List α
  | 0, a => [a]
  | n + 1, a => a :: (children a).flatMap (preorder children n)

/-- `rank` decreases from a node to its children. -/
def Ranked (children : α → List α) (rank : α → ℕ) : Prop := ∀ a, ∀ b ∈ children a, rank b < rank a

/-- The whole subtree below `a` in preorder. -/
def subtree (children : α → List α) (rank : α → ℕ) (a : α) : List α := preorder children (rank a) a

section Subtree

variable {children : α → List α} {rank : α → ℕ} (h : Ranked children rank)

include h

theorem children_eq_nil_of_rank_eq_zero {a : α} (ha : rank a = 0) : children a = [] := by
  refine eq_nil_iff_forall_not_mem.mpr fun b hb => ?_
  have := h a b hb
  omega

/-- A depth past the rank changes nothing. -/
theorem preorder_congr : ∀ (n m : ℕ) (a : α), rank a ≤ n → rank a ≤ m →
    preorder children n a = preorder children m a := by
  intro n
  induction n with
  | zero =>
    intro m a hn hm
    have hni := children_eq_nil_of_rank_eq_zero h (Nat.le_zero.mp hn)
    cases m <;> simp [preorder, hni]
  | succ n ih =>
    intro m a hn hm
    cases m with
    | zero =>
      have hni := children_eq_nil_of_rank_eq_zero h (Nat.le_zero.mp hm)
      simp [preorder, hni]
    | succ m =>
      simp only [preorder, List.cons.injEq, true_and]
      refine flatMap_congr fun b hb => ih m b ?_ ?_
      · have := h a b hb
        omega
      · have := h a b hb
        omega

/-- The subtree of a node: the node, then the subtrees of its children in order. -/
theorem subtree_eq (a : α) : subtree children rank a = a :: (children a).flatMap (subtree children rank) := by
  have hs : subtree children rank a = preorder children (rank a + 1) a :=
    preorder_congr h _ _ a (Nat.le_refl _) (Nat.le_succ _)
  rw [hs, preorder]
  congr 1
  refine flatMap_congr fun b hb => ?_
  exact preorder_congr h _ _ b (Nat.le_of_lt (h a b hb)) (Nat.le_refl _)

theorem subtree_of_leaf {a : α} (ha : children a = []) : subtree children rank a = [a] := by
  rw [subtree_eq h, ha, flatMap_nil]

/-- The subtrees of leaves are the leaves. -/
theorem flatMap_subtree_of_leaves {leaves : List α} (hl : ∀ a ∈ leaves, children a = []) :
    leaves.flatMap (subtree children rank) = leaves :=
  (flatMap_congr fun a ha => subtree_of_leaf h (hl a ha)).trans (flatMap_singleton' leaves)

/-- The subtree of a node is what it leads to. -/
theorem mem_subtree {a b : α} :
    b ∈ subtree children rank a ↔ ReflTransGen (fun x y => y ∈ children x) a b := by
  constructor
  · intro hb
    induction hn : rank a using Nat.strongRecOn generalizing a with
    | ind n ih =>
      rw [subtree_eq h, mem_cons, mem_flatMap] at hb
      rcases hb with rfl | ⟨c, hc, hb⟩
      · exact .refl
      · exact .head hc (ih (rank c) (hn ▸ h a c hc) hb rfl)
  · intro hab
    induction hab using ReflTransGen.head_induction_on with
    | refl => rw [subtree_eq h]; exact mem_cons_self ..
    | head hc _ ih =>
      rw [subtree_eq h]
      exact mem_cons_of_mem _ (mem_flatMap.mpr ⟨_, hc, ih⟩)

/-! ### The agenda -/

/-- What was visited, followed by what the agenda stands for, is the whole order. -/
def Covers (children : α → List α) (rank : α → ℕ) (order visited agenda : List α) : Prop :=
  order = visited ++ agenda.flatMap (subtree children rank)

/-- One turn of the loop: past the leaves in front, a node is visited and its children take its place. -/
theorem covers_expand {o vis f r : List α} {c : α} (hf : ∀ a ∈ f, children a = [])
    (hc : Covers children rank o vis (f ++ c :: r)) :
    Covers children rank o (vis ++ f ++ [c]) (children c ++ r) := by
  rw [Covers, hc, flatMap_append, flatMap_cons, flatMap_subtree_of_leaves h hf, subtree_eq h c,
    flatMap_append]
  simp

end Subtree

end IronAuth.Lib.Preorder
