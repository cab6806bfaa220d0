import Mathlib.Data.List.Nodup
import Mathlib.Data.List.Basic
import Mathlib.Data.List.Forall2

/-!
# Loops that collect errors

A load-time check is a loop over a list that pushes an error for each element it
refuses, with the element's index in the message. What matters about such a loop
is when it pushes nothing. Some of these loops also keep a set of keys seen so
far and refuse a key that is already there; `markRepeats` is that part of them.
-/

namespace IronAuth.Lib.Loops

open List

variable {α β κ : Type*}

variable {P : α → Prop} {key : α → Option κ} {as : List α} {R : α → β → Prop} {b : β}

/-- A loop over indexed elements pushes nothing exactly when each element passes. -/
theorem flatMap_zipIdx_eq_nil {f : α × ℕ → List β} (h : ∀ a i, f (a, i) = [] ↔ P a) (as : List α) :
    as.zipIdx.flatMap f = [] ↔ ∀ a ∈ as, P a := by
  rw [flatMap_eq_nil_iff]
  constructor
  · intro hal a ha
    obtain ⟨i, hi, rfl⟩ := getElem_of_mem ha
    exact (h _ i).mp (hal (as[i], i) (mem_zipIdx_iff_getElem?.mpr (List.getElem?_eq_getElem hi)))
  · rintro hal ⟨a, i⟩ hai
    exact (h a i).mpr (hal a (fst_mem_of_mem_zipIdx hai))

variable [DecidableEq κ]

/-- Mark each element whose key an earlier element (or `seen`) already has. An element
without a key is never marked. -/
def markRepeats (key : α → Option κ) : List κ → List α → List (α × Bool)
  | _, [] => []
  | seen, a :: as =>
      match key a with
      | none => (a, false) :: markRepeats key seen as
      | some k => (a, decide (k ∈ seen)) :: markRepeats key (k :: seen) as

/-- Nothing is marked exactly when the keys are distinct and new. -/
theorem forall_mem_markRepeats (as : List α) (seen : List κ) :
    (∀ x ∈ markRepeats key seen as, P x.1 ∧ x.2 = false) ↔
      (∀ a ∈ as, P a) ∧ (as.filterMap key).Nodup ∧ ∀ k ∈ as.filterMap key, k ∉ seen := by
  induction as generalizing seen with
  | nil => simp [markRepeats]
  | cons a as ih =>
    cases hk : key a with
    | none =>
      simp only [markRepeats, hk, forall_mem_cons, ih, filterMap_cons_none hk]
      tauto
    | some k =>
      simp only [markRepeats, hk, forall_mem_cons, ih, filterMap_cons_some hk, nodup_cons,
        decide_eq_false_iff_not]
      simp only [mem_cons, not_or]
      constructor
      · rintro ⟨⟨hp, hks⟩, hps, hnd, hn⟩
        exact ⟨⟨hp, hps⟩, ⟨fun hme => (hn k hme).1 rfl, hnd⟩, hks, fun m hm => (hn m hm).2⟩
      · rintro ⟨⟨hp, hps⟩, ⟨hk', hnd⟩, hks, hn⟩
        refine ⟨⟨hp, hks⟩, hps, hnd, fun m hm => ⟨?_, hn m hm⟩⟩
        rintro rfl
        exact hk' hm

/-- A marking loop over indexed elements pushes nothing exactly when each element passes
and the keys are distinct. -/
theorem flatMap_zipIdx_markRepeats_eq_nil {f : (α × Bool) × ℕ → List β}
    (h : ∀ a r i, f ((a, r), i) = [] ↔ P a ∧ r = false) (as : List α) :
    (markRepeats key [] as).zipIdx.flatMap f = [] ↔ (∀ a ∈ as, P a) ∧ (as.filterMap key).Nodup := by
  rw [flatMap_zipIdx_eq_nil (P := fun x => P x.1 ∧ x.2 = false) (fun x i => h x.1 x.2 i), forall_mem_markRepeats]
  simp

/-! ### Splitting a list at the element a loop finds -/

omit [DecidableEq κ] in
theorem exists_split_of_findIdx? {p : α → Bool} {i : ℕ} (h : as.findIdx? p = some i) :
    ∃ before a after, as = before ++ a :: after ∧ before.length = i ∧ p a = true ∧ ∀ x ∈ before, p x = false := by
  induction as generalizing i with
  | nil => cases h
  | cons a as ih =>
    rw [List.findIdx?_cons] at h
    cases ha : p a with
    | true =>
      rw [if_pos ha] at h
      cases h
      exact ⟨[], a, as, rfl, rfl, ha, by simp⟩
    | false =>
      rw [if_neg (by simp [ha]), Option.map_eq_some_iff] at h
      obtain ⟨j, hj, rfl⟩ := h
      obtain ⟨before, b, after, rfl, hl, hb, hbe⟩ := ih hj
      refine ⟨a :: before, b, after, rfl, by simp [hl], hb, ?_⟩
      exact forall_mem_cons.mpr ⟨ha, hbe⟩

omit [DecidableEq κ] in
/-- A list related pointwise to one that is split is split the same way. -/
theorem exists_split_of_forall₂ {pre after : List β}
    (h : List.Forall₂ R as (pre ++ b :: after)) :
    ∃ b2 a af2, as = b2 ++ a :: af2 ∧ List.Forall₂ R b2 pre ∧ R a b ∧
      List.Forall₂ R af2 after := by
  induction pre generalizing as with
  | nil =>
    obtain ⟨a, af2, hab, ha, rfl⟩ := forall₂_cons_right_iff.mp h
    exact ⟨[], a, af2, rfl, .nil, hab, ha⟩
  | cons x pre ih =>
    obtain ⟨a, rest, hax, hr, rfl⟩ := forall₂_cons_right_iff.mp h
    obtain ⟨b2, a2, af2, rfl, hb, hab, ha⟩ := ih hr
    exact ⟨a :: b2, a2, af2, rfl, .cons hax hb, hab, ha⟩

omit [DecidableEq κ] in
theorem exists_of_forall₂_left {bs : List β} (h : List.Forall₂ R as bs) {a : α}
    (ha : a ∈ as) : ∃ b ∈ bs, R a b := by
  induction h with
  | nil => cases ha
  | cons hab _ ih =>
    rcases mem_cons.mp ha with rfl | ha
    · exact ⟨_, mem_cons_self .., hab⟩
    · obtain ⟨b, hb, hr⟩ := ih ha
      exact ⟨b, mem_cons_of_mem _ hb, hr⟩

omit [DecidableEq κ] in
theorem exists_of_forall₂_right {bs : List β} (h : List.Forall₂ R as bs)
    (hb : b ∈ bs) : ∃ a ∈ as, R a b :=
  exists_of_forall₂_left h.flip hb

/-! ### Collecting -/

omit [DecidableEq κ] in
/-- What a loop collects, when each turn adds what its element gives. -/
theorem mem_foldl_iff {S : Type*} [Membership β S] {f : S → α → S} (hf : ∀ out a b, b ∈ f out a ↔ b ∈ out ∨ R a b)
    (as : List α) (out : S) (b : β) : b ∈ as.foldl f out ↔ b ∈ out ∨ ∃ a ∈ as, R a b := by
  induction as generalizing out with
  | nil => simp
  | cons a as ih => rw [foldl_cons, ih, hf, exists_mem_cons_iff, or_assoc]

/-! ### Association lists -/

omit [DecidableEq κ] in
/-- With distinct keys, a lookup finds exactly the entries. -/
theorem lookup_eq_some_iff_mem [BEq κ] [LawfulBEq κ] {entries : List (κ × β)} (h : (entries.map Prod.fst).Nodup) {k : κ} :
    entries.lookup k = some b ↔ (k, b) ∈ entries := by
  induction entries with
  | nil => simp
  | cons entry entries ih =>
    obtain ⟨k2, b2⟩ := entry
    rw [map_cons, nodup_cons] at h
    by_cases hk : k = k2
    · subst hk
      have hm : (k, b) ∉ entries := fun hm => h.1 (mem_map.mpr ⟨_, hm, rfl⟩)
      simp [hm, eq_comm]
    · have hb : (k == k2) = false := by simpa using hk
      simp [lookup_cons, hb, hk, ih h.2]

end IronAuth.Lib.Loops
