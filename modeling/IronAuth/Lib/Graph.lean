import Mathlib.Data.List.Chain
import Mathlib.Data.Set.Card
import Mathlib.Logic.Relation

/-!
# Walks in a graph

Walks along a relation, what must come before what on every walk, and where walks
can get caught.
-/

namespace IronAuth.Lib.Graph

open Relation

variable {α : Type*}

/-! ### Walks -/

/-- A walk along `R` that starts at `a`. -/
def WalkFrom (R : α → α → Prop) (a : α) (walk : List α) : Prop := walk.head? = some a ∧ walk.IsChain R

/-- Wherever the walk meets a node with `P`, it met one with `Q` strictly before. -/
def Precedes (Q P : α → Prop) (walk : List α) : Prop :=
  ∀ before x after, walk = before ++ x :: after → P x → ∃ y ∈ before, Q y

variable {R : α → α → Prop} {a b : α}

/-- A path is a walk that ends at its end. -/
theorem exists_walk_of_reflTransGen (h : ReflTransGen R a b) :
    ∃ before, WalkFrom R a (before ++ [b]) ∧ ∀ x ∈ before, ∃ y, R x y := by
  induction h with
  | refl => exact ⟨[], ⟨rfl, List.isChain_singleton _⟩, by simp⟩
  | @tail b c _ hbc ih =>
    obtain ⟨before, ⟨hh, hch⟩, ho⟩ := ih
    refine ⟨before ++ [b], ⟨?_, ?_⟩, ?_⟩
    · rw [List.head?_append, hh]
      rfl
    · refine List.isChain_append.mpr ⟨hch, List.isChain_singleton _, ?_⟩
      simpa using hbc
    · intro x hx
      rcases List.mem_append.mp hx with hx | hx
      · exact ho x hx
      · rw [List.mem_singleton.mp hx]
        exact ⟨c, hbc⟩

/-- A walk reaches each of its nodes. -/
theorem reflTransGen_of_walk {pre af : List α} (h : WalkFrom R a (pre ++ b :: af)) :
    ReflTransGen (fun x y => x ∈ pre ∧ R x y) a b := by
  obtain ⟨hh, hch⟩ := h
  induction pre generalizing a with
  | nil =>
    obtain rfl : b = a := by simpa using hh
    exact .refl
  | cons x pre ih =>
    obtain rfl : x = a := by simpa using hh
    obtain ⟨hx, hch⟩ := List.isChain_cons.mp hch
    obtain ⟨y, hy⟩ : ∃ y, (pre ++ b :: af).head? = some y := by
      cases pre <;> simp
    refine .head ⟨List.mem_cons_self .., hx y hy⟩ ?_
    exact ReflTransGen.mono (fun u v huv => ⟨List.mem_cons_of_mem _ huv.1, huv.2⟩) _ _ (ih hy hch)

/-- **What comes first on every walk**: a `Q` before each `P`, exactly when no `P` is reached by edges
whose sources lack `Q`. -/
theorem forall_walk_precedes_iff {Q P : α → Prop} :
    (∀ walk, WalkFrom R a walk → Precedes Q P walk) ↔
      ∀ b, P b → ¬ ReflTransGen (fun x y => ¬ Q x ∧ R x y) a b := by
  constructor
  · intro ha b hb hr
    obtain ⟨before, ⟨hh, hch⟩, ho⟩ := exists_walk_of_reflTransGen hr
    have hw : WalkFrom R a (before ++ [b]) := ⟨hh, hch.imp fun _ _ hxy => hxy.2⟩
    obtain ⟨y, hy, hQ⟩ := ha _ hw before b [] rfl hb
    obtain ⟨-, hno, -⟩ := ho y hy
    exact hno hQ
  · intro hn walk hw before x after hs hx
    by_contra hf
    push Not at hf
    apply hn x hx
    subst hs
    exact ReflTransGen.mono (fun u v huv => ⟨hf u huv.1, huv.2⟩) _ _ (reflTransGen_of_walk hw)

/-! ### Traps -/

/-- **A trap exists**: among finitely many reached nodes, one that reaches fewest is reached back from
everywhere it leads to. -/
theorem exists_trap (hf : {b | ReflTransGen R a b}.Finite) :
    ∃ t, ReflTransGen R a t ∧ ∀ u, ReflTransGen R t u → ReflTransGen R u t := by
  have hs : ∀ {t : α}, ReflTransGen R a t → {b | ReflTransGen R t b}.Finite := by
    intro t ht
    exact hf.subset fun b hb => ht.trans hb
  induction hn : {b | ReflTransGen R a b}.ncard using Nat.strongRecOn generalizing a with
  | ind n ih =>
    by_cases htr : ∀ u, ReflTransGen R a u → ReflTransGen R u a
    · exact ⟨a, .refl, htr⟩
    · push Not at htr
      obtain ⟨u, hu, hba⟩ := htr
      -- what `u` reaches is less, for it misses `a`
      have hlt : {b | ReflTransGen R u b}.ncard < {b | ReflTransGen R a b}.ncard := by
        refine Set.ncard_lt_ncard ⟨fun b hb => hu.trans hb, fun hle => hba ?_⟩ hf
        exact hle (show ReflTransGen R a a from .refl)
      obtain ⟨t, ht, htb⟩ := ih _ (hn ▸ hlt) (hs hu) (fun ht => hs (hu.trans ht)) rfl
      exact ⟨t, hu.trans ht, htb⟩

end IronAuth.Lib.Graph
