import Mathlib.Data.List.AList
import Mathlib.Data.List.Perm.Basic
import Mathlib.Data.List.Sort
import Mathlib.Data.List.TakeWhile

/-!
# Keyed stores

What a keyed store of values needs besides Mathlib's `AList`: its size, dropping the
entries that fail a test, revising every entry, and evicting the heaviest entries.

A store is iterated in an order it does not promise. An `IterOrder` is such an order; the
results below hold for every one.

## What is proved

* `lookup_retain`, `lookup_revise`, `lookup_evict`: each operation, entry by entry.
* `notMem_heaviest`: an entry that enough others outweigh is not among the heaviest.
* `exists_order_mem_heaviest`: any other is, in some order of the iteration.
-/

namespace IronAuth.Lib.Store

open List

variable {κ ν : Type*}

/-- How many entries a store has. -/
def size (store : AList fun _ : κ => ν) : ℕ := store.keys.length

/-- The entries that pass a test. -/
def retain (keep : κ → ν → Bool) (store : AList fun _ : κ => ν) : AList fun _ : κ => ν :=
  ⟨store.entries.filter fun entry => keep entry.1 entry.2, store.nodupKeys.sublist filter_sublist⟩

variable (f : κ → ν → Option ν)

/-- An entry with its value revised, or dropped. -/
def reviseEntry (entry : Sigma fun _ : κ => ν) : Option (Sigma fun _ : κ => ν) :=
  (f entry.1 entry.2).map fun value => ⟨entry.1, value⟩

theorem keys_filterMap_reviseEntry (e : List (Sigma fun _ : κ => ν)) :
    ((e.filterMap (reviseEntry f)).keys).Sublist e.keys := by
  induction e with
  | nil => exact List.Sublist.slnil
  | cons entry e ih =>
    rw [filterMap_cons, reviseEntry]
    cases f entry.1 entry.2 with
    | none => exact ih.cons _
    | some value => exact ih.cons_cons _

/-- Every entry revised, or dropped. -/
def revise (store : AList fun _ : κ => ν) : AList fun _ : κ => ν :=
  ⟨store.entries.filterMap (reviseEntry f), (keys_filterMap_reviseEntry f store.entries).nodup store.nodupKeys⟩

/-- An order a store may be iterated in. -/
structure IterOrder (α : Type*) where
  arrange : List α → List α
  perm : ∀ entries, (arrange entries).Perm entries

/-- The order the entries are stored in. -/
def IterOrder.stored (α : Type*) : IterOrder α := ⟨id, fun _ => List.Perm.refl _⟩

variable {K : Type*} [LinearOrder K]

/-- The entries with their weights, the heaviest first; equal ones in the order of the iteration. -/
def heaviest (order : IterOrder (κ × K)) (weight : ν → K) (store : AList fun _ : κ => ν) : List (κ × K) :=
  (order.arrange (store.entries.map fun entry => (entry.1, weight entry.2))).insertionSort fun a b => b.2 ≤ a.2

theorem perm_heaviest (o : IterOrder (κ × K)) (w : ν → K) (s : AList fun _ : κ => ν) :
    (heaviest o w s).Perm (s.entries.map fun entry => (entry.1, w entry.2)) :=
  (perm_insertionSort _ _).trans (o.perm _)

theorem keys_heaviest (o : IterOrder (κ × K)) (w : ν → K) (s : AList fun _ : κ => ν) :
    ((heaviest o w s).map Prod.fst).Perm s.keys := by
  have hp := (perm_heaviest o w s).map Prod.fst
  rw [map_map] at hp
  exact hp

/-! ### Lookups and sizes -/

variable [DecidableEq κ]

theorem size_insert (s : AList fun _ : κ => ν) (key : κ) (v : ν) :
    size (s.insert key v) = size s + if key ∈ s then 0 else 1 := by
  unfold size
  rw [AList.keys_insert, length_cons]
  split
  · rename_i hm
    have hp := length_pos_of_mem (AList.mem_keys.mp hm)
    rw [length_erase_of_mem (AList.mem_keys.mp hm)]
    omega
  · rename_i hm
    rw [erase_of_not_mem (mt AList.mem_keys.mpr hm)]

theorem lookup_retain (k : κ → ν → Bool) (s : AList fun _ : κ => ν) (key : κ) :
    (retain k s).lookup key = (s.lookup key).filter (k key) := by
  ext value
  rw [← Option.mem_def, AList.mem_lookup_iff, retain, mem_filter, ← AList.mem_lookup_iff,
    Option.filter_eq_some_iff]
  exact Iff.rfl

theorem lookup_revise (s : AList fun _ : κ => ν) (key : κ) :
    (revise f s).lookup key = (s.lookup key).bind (f key) := by
  ext value
  rw [← Option.mem_def, AList.mem_lookup_iff, revise, mem_filterMap, Option.bind_eq_some_iff]
  constructor
  · rintro ⟨⟨key', old⟩, hm, heq⟩
    obtain ⟨new, hn, hp⟩ := Option.map_eq_some_iff.mp heq
    cases hp
    exact ⟨old, AList.mem_lookup_iff.mpr hm, hn⟩
  · rintro ⟨old, ho, hn⟩
    refine ⟨⟨key, old⟩, AList.mem_lookup_iff.mp ho, ?_⟩
    rw [reviseEntry, hn]
    rfl

/-! ### Evicting -/

/-- A store without some keys. -/
def evict (keys : List κ) (store : AList fun _ : κ => ν) : AList fun _ : κ => ν :=
  keys.foldl (fun store key => store.erase key) store

theorem lookup_evict (ke : List κ) (s : AList fun _ : κ => ν) (key : κ) :
    (evict ke s).lookup key = if key ∈ ke then none else s.lookup key := by
  unfold evict
  induction ke generalizing s with
  | nil => simp
  | cons k ke ih =>
    rw [foldl_cons, ih]
    by_cases hk : key = k
    · subst hk
      simp
    · simp [hk, AList.lookup_erase_ne hk]

/-! ### Loops whose turns keep to their own keys -/

section turns

variable {ι : Type*} {turn : (AList fun _ : κ => ν) → ι → AList fun _ : κ => ν} {key : ι → κ} {is : List ι}
  (hfr : ∀ s i k, k ≠ key i → (turn s i).lookup k = s.lookup k)

include hfr

theorem lookup_foldl_of_notMem (s : AList fun _ : κ => ν) {k : κ} (h : k ∉ is.map key) :
    (is.foldl turn s).lookup k = s.lookup k := by
  induction is generalizing s with
  | nil => rfl
  | cons i is ih =>
    rw [map_cons, mem_cons, not_or] at h
    exact (ih _ h.2).trans (hfr s i k h.1)

/-- What the loop leaves under a key is what the turn with that key put there. -/
theorem lookup_foldl_of_mem (s : AList fun _ : κ => ν) (hnd : (is.map key).Nodup) {i : ι} (hi : i ∈ is) :
    ∃ s', s'.lookup (key i) = s.lookup (key i) ∧ (is.foldl turn s).lookup (key i) = (turn s' i).lookup (key i) := by
  induction is generalizing s with
  | nil => cases hi
  | cons first is ih =>
    obtain ⟨hf, hnd⟩ := nodup_cons.mp hnd
    rcases mem_cons.mp hi with rfl | hi
    · exact ⟨s, rfl, lookup_foldl_of_notMem hfr _ hf⟩
    · obtain ⟨s', hs, hl⟩ := ih (turn s first) hnd hi
      exact ⟨s', hs.trans (hfr s first _ fun heq => hf (heq ▸ mem_map_of_mem hi)), hl⟩

end turns

variable {s : AList fun _ : κ => ν} {key : κ}

theorem size_erase (h : key ∈ s) : size (s.erase key) = size s - 1 := by
  unfold size
  rw [AList.keys_erase, length_erase_of_mem (AList.mem_keys.mp h)]

theorem size_evict {ke : List κ} (hnd : ke.Nodup) (hm : ∀ key ∈ ke, key ∈ s) :
    size (evict ke s) = size s - ke.length := by
  unfold evict
  induction ke generalizing s with
  | nil => simp
  | cons k ke ih =>
    obtain ⟨hk, hnd⟩ := nodup_cons.mp hnd
    have hr : ∀ key ∈ ke, key ∈ s.erase k := fun key hke =>
      AList.mem_erase.mpr ⟨fun heq => hk (heq ▸ hke), hm key (mem_cons_of_mem _ hke)⟩
    rw [foldl_cons, ih hnd hr, size_erase (hm k mem_cons_self), length_cons]
    omega

/-- An entry that at least `n` entries outweigh is not among the `n` heaviest. -/
theorem notMem_heaviest (o : IterOrder (κ × K)) {we : ν → K} {value : ν}
    {n : ℕ} (hv : s.lookup key = some value)
    (hn : n ≤ s.entries.countP fun entry => decide (we value < we entry.2)) :
    key ∉ ((heaviest o we s).take n).map Prod.fst := by
  intro hm
  obtain ⟨⟨k, w⟩, ht, rfl⟩ := mem_map.mp hm
  have hp := perm_heaviest o we s
  -- the entry found under the key is the one stored under it
  have hw : w = we value := by
    obtain ⟨⟨k', v'⟩, he, heq⟩ := mem_map.mp (hp.mem_iff.mp (mem_of_mem_take ht))
    cases heq
    exact congrArg we (Option.some.inj ((AList.mem_lookup_iff.mpr he).symm.trans hv))
  -- what outweighs it stands before it
  have hs : (heaviest o we s).Pairwise fun a b => b.2 ≤ a.2 := pairwise_insertionSort _ _
  obtain ⟨before, after, hsp⟩ := append_of_mem ht
  have hc : (heaviest o we s).countP (fun entry => decide (w < entry.2)) < n := by
    have hf : heaviest o we s = before ++ (k, w) :: (after ++ (heaviest o we s).drop n) := by
      rw [← cons_append, ← append_assoc, ← hsp, take_append_drop]
    have hl : before.length < n := by
      have hle := congrArg List.length hsp
      have htk := length_take_le n (heaviest o we s)
      rw [length_append, length_cons] at hle
      omega
    rw [hf] at hs ⊢
    have hta := (pairwise_append.mp hs).2.1
    have hno : ((k, w) :: (after ++ (heaviest o we s).drop n)).countP (fun entry => decide (w < entry.2)) = 0 := by
      rw [countP_eq_zero]
      intro entry he
      rcases mem_cons.mp he with rfl | he
      · simp
      · simpa using (pairwise_cons.mp hta).1 entry he
    rw [countP_append, hno, Nat.add_zero]
    exact (countP_le_length).trans_lt hl
  rw [hp.countP_eq, countP_map, hw] at hc
  exact absurd hn (not_le.mpr hc)

/-- The order that comes to one entry first. -/
def IterOrder.first {α : Type*} [DecidableEq α] (x : α) : IterOrder α where
  arrange entries := if x ∈ entries then x :: entries.erase x else entries
  perm entries := by
    split
    · rename_i hmem
      exact (perm_cons_erase hmem).symm
    · exact List.Perm.refl _

/-- An entry that fewer than `n` entries outweigh is among the `n` heaviest, if ties are broken for it. -/
theorem exists_order_mem_heaviest (w : ν → K) {v : ν} {n : ℕ}
    (hv : s.lookup key = some v)
    (hn : (s.entries.countP fun entry => decide (w v < w entry.2)) < n) :
    ∃ order, key ∈ ((heaviest order w s).take n).map Prod.fst := by
  let he : κ × K → Bool := fun entry => decide (w v < entry.2)
  have hme : (key, w v) ∈ s.entries.map fun entry => (entry.1, w entry.2) :=
    mem_map.mpr ⟨⟨key, v⟩, AList.mem_lookup_iff.mp hv, rfl⟩
  obtain ⟨others, ho⟩ : ∃ others, (IterOrder.first (key, w v)).arrange _ = (key, w v) :: others := ⟨_, if_pos hme⟩
  -- the entry is inserted after those that outweigh it, and before its equals
  have hs : heaviest (.first (key, w v)) w s =
      (others.insertionSort fun a b => b.2 ≤ a.2).takeWhile he ++
        (key, w v) :: (others.insertionSort fun a b => b.2 ≤ a.2).dropWhile he := by
    rw [heaviest, ho, insertionSort_cons, orderedInsert_eq_take_drop]
    simp only [not_le]
    rfl
  have hb : ((others.insertionSort fun a b => b.2 ≤ a.2).takeWhile he).length < n := by
    have ha : ((others.insertionSort fun a b => b.2 ≤ a.2).takeWhile he).countP he =
        ((others.insertionSort fun a b => b.2 ≤ a.2).takeWhile he).length :=
      countP_eq_length.mpr fun entry hen => mem_takeWhile_imp hen
    have hp : ((key, w v) :: others).Perm (s.entries.map fun entry => (entry.1, w entry.2)) :=
      ho ▸ IterOrder.perm _ _
    rw [← ha]
    calc ((others.insertionSort fun a b => b.2 ≤ a.2).takeWhile he).countP he
        ≤ (others.insertionSort fun a b => b.2 ≤ a.2).countP he := (takeWhile_sublist _).countP_le
      _ = others.countP he := (perm_insertionSort _ _).countP_eq _
      _ ≤ ((key, w v) :: others).countP he := (sublist_cons_self _ _).countP_le
      _ = (s.entries.map fun entry => (entry.1, w entry.2)).countP he := hp.countP_eq _
      _ = s.entries.countP fun entry => decide (w v < w entry.2) := countP_map
      _ < n := hn
  refine ⟨.first (key, w v), mem_map.mpr ⟨(key, w v), ?_, rfl⟩⟩
  rw [hs, take_append, mem_append]
  right
  obtain ⟨m, hm⟩ := Nat.exists_eq_add_of_lt hb
  rw [show n - ((others.insertionSort fun a b => b.2 ≤ a.2).takeWhile he).length = m + 1 by omega,
    take_succ_cons]
  exact mem_cons_self

end IronAuth.Lib.Store
