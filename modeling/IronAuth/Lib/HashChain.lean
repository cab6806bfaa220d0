import Mathlib.Logic.Function.Basic
import Mathlib.Data.List.Basic

/-!
# Hash chains

A block commits to a record and to the hash of the block before it. Where the link is injective, the
last hash of a chain determines every block of it (`Linked.determined`), although nothing constrains
what the first block follows.
-/

namespace IronAuth.Lib.HashChain

variable {H R : Type*}

structure Block (H R : Type*) where
  prev : H
  record : R
  hash : H

/-- Each block's hash is the link of its record to what it follows, and it follows the block before it; the first one
follows `expected`, where that is known. -/
def Linked (link : H → R → H) : Option H → List (Block H R) → Prop
  | _, [] => True
  | expected, b :: bs => (∀ p ∈ expected, b.prev = p) ∧ b.hash = link b.prev b.record ∧ Linked link (some b.hash) bs

variable {link : H → R → H} {expected : Option H} {bs cs : List (Block H R)}

/-- The last hash of a chain of known length determines the chain. -/
theorem Linked.determined (hl : Function.Injective2 link) {e' : Option H} (hb : Linked link expected bs)
    (hc : Linked link e' cs) (hle : bs.length = cs.length)
    (hla : bs.getLast?.map Block.hash = cs.getLast?.map Block.hash) : bs = cs := by
  induction bs generalizing cs expected e' with
  | nil => exact (List.length_eq_zero_iff.mp hle.symm).symm
  | cons b bs ih =>
    cases cs with
    | nil => simp at hle
    | cons c cs =>
      -- The rest agrees by induction, and what it follows is the hash of the first block.
      have hr : bs = cs ∧ b.hash = c.hash := by
        cases bs with
        | nil =>
          cases cs with
          | nil => exact ⟨rfl, by simpa using hla⟩
          | cons c' cs => simp at hle
        | cons b' bs =>
          cases cs with
          | nil => simp at hle
          | cons c' cs =>
            have heq : b' :: bs = c' :: cs := by
              refine ih hb.2.2 hc.2.2 (by simpa using hle) ?_
              simpa only [List.getLast?_cons_cons] using hla
            refine ⟨heq, ?_⟩
            rw [← hb.2.2.1 b.hash rfl, ← hc.2.2.1 c.hash rfl, (List.cons.inj heq).1]
      obtain ⟨rfl, hh⟩ := hr
      have heq := hh
      rw [hb.2.1, hc.2.1] at heq
      obtain ⟨hp, hre⟩ := hl heq
      cases b
      cases c
      simp_all

end IronAuth.Lib.HashChain
