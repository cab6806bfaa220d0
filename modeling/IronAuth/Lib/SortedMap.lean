import IronAuth.Lib.Loops
import Mathlib.Data.List.Destutter
import Mathlib.Data.List.Sort

/-!
# Maps as lists in the order of their keys

A map is the list of its entries in the order of their keys, each key once. An entry is found by
`List.lookup`. What a lookup finds after an insertion, and what an insertion leaves of the entries
with other keys, does not depend on the order.

## What is proved

* `lookup_insert`: an insertion changes the entry with its key and no other.
* `Ordered.insert`: an insertion keeps the order.
* `filter_insert`: an insertion is not seen by a filter that leaves its key out.
* `lookup_extend`, `filter_extend`: the same for many insertions.
* `mem_unionKeys_iff`, `nodup_unionKeys`: the keys of two maps, each once.
* `lookup_filter`: a filter that keeps a key keeps what is found under it.
-/

namespace IronAuth.Lib.SortedMap

open List

variable {κ ν : Type*} [LinearOrder κ]

/-- The keys are in order, each once. -/
def Ordered (entries : List (κ × ν)) : Prop := (entries.map Prod.fst).Pairwise (· < ·)

/-- The entries with this one in its place, instead of one with the same key. -/
def insert (key : κ) (value : ν) : List (κ × ν) → List (κ × ν)
  | [] => [(key, value)]
  | entry :: entries =>
    if key < entry.1 then (key, value) :: entry :: entries
    else if entry.1 < key then entry :: insert key value entries
    else (key, value) :: entries

variable {key : κ} {value : ν} {entry : κ × ν} {entries : List (κ × ν)}

theorem insert_cons_of_lt (h : key < entry.1) : insert key value (entry :: entries) = (key, value) :: entry :: entries :=
  if_pos h

theorem insert_cons_of_gt (h : entry.1 < key) : insert key value (entry :: entries) = entry :: insert key value entries := by
  rw [insert, if_neg h.not_gt, if_pos h]

theorem insert_cons_of_eq (h : key = entry.1) : insert key value (entry :: entries) = (key, value) :: entries := by
  rw [insert, if_neg h.not_lt, if_neg h.not_gt]

theorem mem_insert_of_mem {o : κ × ν} (h : o ∈ insert key value entries) :
    o = (key, value) ∨ o ∈ entries := by
  induction entries with
  | nil => exact .inl (mem_singleton.mp h)
  | cons entry entries ih =>
    rcases lt_trichotomy key entry.1 with hlt | heq | hgt
    · rw [insert_cons_of_lt hlt] at h
      exact mem_cons.mp h
    · rw [insert_cons_of_eq heq] at h
      exact (mem_cons.mp h).imp_right (mem_cons_of_mem _)
    · rw [insert_cons_of_gt hgt] at h
      rcases mem_cons.mp h with rfl | h
      · exact .inr (mem_cons_self ..)
      · exact (ih h).imp_right (mem_cons_of_mem _)

theorem lookup_cons_eq [BEq κ] [LawfulBEq κ] (key : κ) (entry : κ × ν) (entries : List (κ × ν)) :
    (entry :: entries).lookup key = if key = entry.1 then some entry.2 else entries.lookup key := by
  obtain ⟨k, v⟩ := entry
  by_cases h : key = k
  · simp [h]
  · have hb : (key == k) = false := beq_eq_false_iff_ne.mpr h
    simp [lookup_cons, hb, h]

/-- **An insertion changes the entry with its key and no other.** -/
theorem lookup_insert [BEq κ] [LawfulBEq κ] (key other : κ) (value : ν) (entries : List (κ × ν)) :
    (insert key value entries).lookup other = if other = key then some value else entries.lookup other := by
  induction entries with
  | nil => exact lookup_cons_eq other (key, value) []
  | cons entry entries ih =>
    rcases lt_trichotomy key entry.1 with hlt | heq | hgt
    · rw [insert_cons_of_lt hlt, lookup_cons_eq]
    · rw [insert_cons_of_eq heq, lookup_cons_eq, lookup_cons_eq, heq]
      split_ifs <;> rfl
    · rw [insert_cons_of_gt hgt, lookup_cons_eq, lookup_cons_eq, ih]
      split_ifs with he hk
      · exact absurd (hk ▸ he) hgt.ne'
      · rfl
      · rfl
      · rfl

/-- **An insertion keeps the order.** -/
theorem Ordered.insert (h : Ordered entries) (key : κ) (value : ν) : Ordered (SortedMap.insert key value entries) := by
  induction entries with
  | nil => exact pairwise_singleton _ _
  | cons entry entries ih =>
    rw [Ordered, map_cons, pairwise_cons] at h
    obtain ⟨hf, hr⟩ := h
    rcases lt_trichotomy key entry.1 with hlt | heq | hgt
    · rw [insert_cons_of_lt hlt]
      refine pairwise_cons.mpr ⟨?_, pairwise_cons.mpr ⟨hf, hr⟩⟩
      intro other ho
      rcases mem_cons.mp ho with rfl | ho
      · exact hlt
      · exact hlt.trans (hf other ho)
    · rw [insert_cons_of_eq heq]
      exact pairwise_cons.mpr ⟨fun other ho => heq ▸ hf other ho, hr⟩
    · rw [insert_cons_of_gt hgt]
      refine pairwise_cons.mpr ⟨?_, ih hr⟩
      rintro _ ho
      obtain ⟨other, hm, rfl⟩ := mem_map.mp ho
      rcases mem_insert_of_mem hm with rfl | hm
      · exact hgt
      · exact hf other.1 (mem_map_of_mem hm)

variable {o a : List (κ × ν)} {p : κ → Bool}

/-- **An insertion is not seen by a filter that leaves its key out.** -/
theorem filter_insert (h : p key = false) (value : ν) (entries : List (κ × ν)) :
    (insert key value entries).filter (fun entry => p entry.1) = entries.filter fun entry => p entry.1 := by
  induction entries with
  | nil => simp [insert, h]
  | cons entry entries ih =>
    rcases lt_trichotomy key entry.1 with hlt | heq | hgt
    · rw [insert_cons_of_lt hlt, filter_cons_of_neg (by simp [h])]
    · rw [insert_cons_of_eq heq, filter_cons_of_neg (by simp [h]), filter_cons_of_neg (by simp [← heq, h])]
    · rw [insert_cons_of_gt hgt, filter_cons, filter_cons, ih]

/-- A filter that keeps a key keeps what is found under it. -/
theorem lookup_filter [BEq κ] [LawfulBEq κ] {key : κ} (h : p key = true) (entries : List (κ × ν)) :
    (entries.filter fun entry => p entry.1).lookup key = entries.lookup key := by
  induction entries with
  | nil => rfl
  | cons entry entries ih =>
    rw [lookup_cons_eq]
    by_cases hk : key = entry.1
    · rw [filter_cons_of_pos (by rw [← hk, h]), lookup_cons_eq, if_pos hk, if_pos hk]
    · rw [if_neg hk, ← ih, filter_cons]
      split_ifs
      · rw [lookup_cons_eq, if_neg hk]
      · rfl

/-- The keys are distinct. -/
theorem Ordered.nodup (h : Ordered entries) : (entries.map Prod.fst).Nodup := List.Pairwise.imp ne_of_lt h

/-! ### Insertion of many entries -/

/-- The entries with others put in, one after another. -/
def extend (entries added : List (κ × ν)) : List (κ × ν) :=
  added.foldl (fun entries entry => insert entry.1 entry.2 entries) entries

theorem Ordered.extend (h : Ordered entries) (a : List (κ × ν)) : Ordered (SortedMap.extend entries a) := by
  induction a generalizing entries with
  | nil => exact h
  | cons entry a ih => exact ih (h.insert entry.1 entry.2)

/-- Under a key that was added stands what was added, under any other what stood there. -/
theorem lookup_extend [BEq κ] [LawfulBEq κ] (h : (a.map Prod.fst).Nodup)
    (entries : List (κ × ν)) (key : κ) :
    (extend entries a).lookup key = (a.lookup key).or (entries.lookup key) := by
  induction a generalizing entries with
  | nil => rfl
  | cons entry a ih =>
    rw [map_cons, nodup_cons] at h
    rw [extend, foldl_cons, ← extend, ih h.2, lookup_insert, lookup_cons_eq]
    by_cases hk : key = entry.1
    · have hn : a.lookup key = none := by
        rw [lookup_eq_none_iff]
        intro other hm
        rw [bne_iff_ne, hk]
        exact fun heq => h.1 (heq ▸ mem_map_of_mem hm)
      rw [hn, if_pos hk, if_pos hk]
      rfl
    · rw [if_neg hk, if_neg hk]

/-- Additions are not seen by a filter that leaves their keys out. -/
theorem filter_extend (h : ∀ entry ∈ a, p entry.1 = false)
    (entries : List (κ × ν)) :
    (extend entries a).filter (fun entry => p entry.1) = entries.filter fun entry => p entry.1 := by
  induction a generalizing entries with
  | nil => rfl
  | cons entry a ih =>
    rw [extend, foldl_cons, ← extend, ih fun other hm => h other (mem_cons_of_mem _ hm)]
    exact filter_insert (h entry (mem_cons_self ..)) entry.2 entries

/-- The map of a list of entries, of which the last with a key counts. -/
def collect (entries : List (κ × ν)) : List (κ × ν) := extend [] entries

theorem ordered_collect (entries : List (κ × ν)) : Ordered (collect entries) := by
  have hn : Ordered ([] : List (κ × ν)) := List.Pairwise.nil
  exact hn.extend entries

/-- An entry whose key comes after all others goes to the end. -/
theorem insert_of_forall_lt (h : ∀ other ∈ entries, other.1 < key) : insert key value entries = entries ++ [(key, value)] := by
  induction entries with
  | nil => rfl
  | cons entry entries ih =>
    obtain ⟨he, hen⟩ := forall_mem_cons.mp h
    rw [insert_cons_of_gt he, ih hen, cons_append]

/-- Entries that are in order already stay as they are. -/
theorem extend_of_ordered {added : List (κ × ν)} (h : Ordered (entries ++ added)) : extend entries added = entries ++ added := by
  induction added generalizing entries with
  | nil => rw [append_nil]; rfl
  | cons entry added ih =>
    have hlt : ∀ other ∈ entries, other.1 < entry.1 := by
      intro other ho
      rw [Ordered, map_append, pairwise_append] at h
      exact h.2.2 _ (mem_map_of_mem ho) _ (by simp)
    have hn : entries ++ entry :: added = (entries ++ [entry]) ++ added := by simp
    rw [hn] at h ⊢
    rw [← ih h, extend, extend, foldl_cons, insert_of_forall_lt hlt]

omit [LinearOrder κ] in
/-- The keys are those under which something is found. -/
theorem mem_keys_iff [BEq κ] [LawfulBEq κ] {entries : List (κ × ν)} {key : κ} :
    key ∈ entries.map Prod.fst ↔ entries.lookup key ≠ none := by
  rw [Ne, lookup_eq_none_iff]
  push Not
  constructor
  · intro hm
    obtain ⟨entry, he, rfl⟩ := mem_map.mp hm
    exact ⟨entry, he, by simp⟩
  · rintro ⟨entry, he, hk⟩
    rw [ne_eq, Bool.not_eq_true, bne_eq_false_iff_eq] at hk
    exact hk ▸ mem_map_of_mem he

/-- The entries are what is found under the keys. -/
theorem Ordered.lookup_eq_some_iff [BEq κ] [LawfulBEq κ] {entries : List (κ × ν)} (h : Ordered entries) {key : κ} {value : ν} :
    entries.lookup key = some value ↔ (key, value) ∈ entries := Loops.lookup_eq_some_iff_mem h.nodup

/-! ### The keys of two maps -/

theorem mem_destutter'_ne {a b : κ} {keys : List κ} : b ∈ keys.destutter' (· ≠ ·) a ↔ b = a ∨ b ∈ keys := by
  induction keys generalizing a with
  | nil => simp
  | cons c keys ih =>
    by_cases hc : a ≠ c
    · rw [List.destutter'_cons_pos _ hc, mem_cons, ih, mem_cons]
    · rw [List.destutter'_cons_neg _ hc, ih, mem_cons, not_not.mp hc, or_self_left]

/-- The keys of two maps in order, each once. -/
def unionKeys (entries others : List (κ × ν)) : List κ :=
  ((entries.map Prod.fst ++ others.map Prod.fst).insertionSort (· ≤ ·)).destutter (· ≠ ·)

theorem mem_unionKeys_iff [BEq κ] [LawfulBEq κ] {entries : List (κ × ν)} {key : κ} :
    key ∈ unionKeys entries o ↔ entries.lookup key ≠ none ∨ o.lookup key ≠ none := by
  rw [← mem_keys_iff, ← mem_keys_iff, ← mem_append, unionKeys]
  rw [← mem_insertionSort (· ≤ ·) (l := entries.map Prod.fst ++ o.map Prod.fst)]
  cases (entries.map Prod.fst ++ o.map Prod.fst).insertionSort (· ≤ ·) with
  | nil => rfl
  | cons first rest => rw [destutter_cons', mem_destutter'_ne, mem_cons]

theorem nodup_unionKeys (entries o : List (κ × ν)) : (unionKeys entries o).Nodup := by
  have hs := pairwise_insertionSort (· ≤ ·) (entries.map Prod.fst ++ o.map Prod.fst)
  have hle : (unionKeys entries o).Pairwise (· ≤ ·) := hs.sublist (destutter_sublist ..)
  have hne : (unionKeys entries o).IsChain (· ≠ ·) := isChain_destutter ..
  -- in order, it is enough that neighbours differ
  have hlt : (unionKeys entries o).IsChain (· < ·) := by
    rw [isChain_iff_getElem] at hne ⊢
    intro i hi
    exact lt_of_le_of_ne (pairwise_iff_getElem.mp hle i (i + 1) (by omega) hi (by omega)) (hne i hi)
  exact (isChain_iff_pairwise.mp hlt).imp ne_of_lt

end IronAuth.Lib.SortedMap
