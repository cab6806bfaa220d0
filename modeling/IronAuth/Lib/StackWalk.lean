import Mathlib.Data.List.Basic

/-!
# Walking a tree with a stack

Pop a node, look at it, push its children: the loop by which a recursive search is written
without recursion. The children are pushed in order, so that the last one is visited first.
-/

namespace IronAuth.Lib.StackWalk

variable {α : Type*}

/-- The nodes in the order in which they are popped. The top of the stack comes first. -/
def walk (nested : α → List α) : ℕ → List α → List α
  | 0, _ => []
  | _ + 1, [] => []
  | fuel + 1, node :: pending => node :: walk nested fuel ((nested node).reverse ++ pending)

/-- **With fuel for each node, the walk visits what a recursive search would.** -/
theorem walk_eq_flatMap {n visit : α → List α} (hv : ∀ no, visit no = no :: (n no).reverse.flatMap visit)
    (f : ℕ) (p : List α) (h : (p.flatMap visit).length ≤ f) :
    walk n f p = p.flatMap visit := by
  induction f generalizing p with
  | zero => rw [walk, List.length_eq_zero_iff.mp (Nat.le_zero.mp h)]
  | succ f ih =>
    cases p with
    | nil => rfl
    | cons no p =>
      have hs : (no :: p).flatMap visit = no :: ((n no).reverse ++ p).flatMap visit := by
        rw [List.flatMap_cons, hv, List.flatMap_append, List.cons_append]
      rw [hs, List.length_cons] at h
      rw [walk, hs, ih _ (by omega)]

end IronAuth.Lib.StackWalk
