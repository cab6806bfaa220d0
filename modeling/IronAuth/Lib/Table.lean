import IronAuth.Lib.Cursor
import IronAuth.Lib.SortedMap

/-!
# Tables with a unique key

A table is a list of rows in no particular order, with a key that no two rows share. A read sorts the
rows by their keys. What the statements on a table do is said by what is found under each key.

## What is proved

* `find_insert`, `find_modify`, `find_replace`, `find_delete`, `find_upsert`: each statement, key by key.
* `eq_of_findKey`: two lists in order that have the same rows under each key are equal.
* `eq_of_nodup_filterMap`: rows with the same entry in a partial unique index are one row.
-/

namespace IronAuth.Lib

open List

section rows

variable {α κ β : Type*} [DecidableEq κ]

/-- The row with a key. -/
def findKey (key : α → κ) (k : κ) (rows : List α) : Option α := rows.find? fun row => key row = k

variable {key : α → κ} {k : κ} {rows : List α} {row : α}

theorem findKey_cons (row : α) (rows : List α) :
    findKey key k (row :: rows) = if key row = k then some row else findKey key k rows := by
  by_cases h : key row = k
  · rw [findKey, List.find?_cons_of_pos (by simpa using h), if_pos h]
  · rw [findKey, List.find?_cons_of_neg (by simpa using h), if_neg h]
    rfl

theorem key_of_findKey (h : findKey key k rows = some row) : key row = k := by
  simpa using List.find?_some h

theorem mem_of_findKey (h : findKey key k rows = some row) : row ∈ rows := mem_of_find?_eq_some h

theorem findKey_eq_none_iff : findKey key k rows = none ↔ ∀ row ∈ rows, key row ≠ k := by
  simp [findKey]

/-- With unique keys, the row that is found is the one with the key. -/
theorem findKey_eq_some_iff (h : (rows.map key).Nodup) : findKey key k rows = some row ↔ row ∈ rows ∧ key row = k := by
  refine ⟨fun hf => ⟨mem_of_findKey hf, key_of_findKey hf⟩, ?_⟩
  rintro ⟨hm, rfl⟩
  cases hf : findKey key (key row) rows with
  | none => exact absurd rfl (findKey_eq_none_iff.mp hf row hm)
  | some other =>
    rw [inj_on_of_nodup_map h (mem_of_findKey hf) hm (key_of_findKey hf)]

variable {γ : Type*} {n : κ → γ}

/-- A row is found under its key by any name of it. -/
theorem findKey_comp [DecidableEq γ] (h : Function.Injective n) (k : κ) (rows : List α) :
    findKey (n ∘ key) (n k) rows = findKey key k rows := by
  simp [findKey, h.eq_iff]

/-- A row is found in a list of images under the key of what it is the image of. -/
theorem findKey_map {key' : γ → κ} {f : α → γ} (h : ∀ row, key' (f row) = key row) (k : κ) (rows : List α) :
    findKey key' k (rows.map f) = (findKey key k rows).map f := by
  have hp : ∀ row, decide (key' (f row) = k) = decide (key row = k) := fun row => by rw [h row]
  simp [findKey, List.find?_map, Function.comp_def, hp]

/-- What changes under one key changes under one name of it. -/
theorem findKey_named [DecidableEq γ] (hn : Function.Injective n) {rows r' : List α}
    {k0 : κ} {v : Option α} (h : ∀ k, findKey key k r' = if k = k0 then v else findKey key k rows) (g : γ) :
    findKey (n ∘ key) g r' = if g = n k0 then v else findKey (n ∘ key) g rows := by
  by_cases hg : ∃ k, n k = g
  · obtain ⟨k, rfl⟩ := hg
    rw [findKey_comp hn, findKey_comp hn, h]
    simp [hn.eq_iff]
  · have hno : ∀ list : List α, findKey (n ∘ key) g list = none := fun list =>
      findKey_eq_none_iff.mpr fun row _ heq => hg ⟨key row, heq⟩
    rw [hno, hno, if_neg fun heq => hg ⟨k0, heq.symm⟩]

/-- What a map that was collected from the rows has under a key. -/
theorem lookup_collect_map [LinearOrder κ] [BEq κ] [LawfulBEq κ] (h : (rows.map key).Nodup) (value : α → β) (k : κ) :
    (SortedMap.collect (rows.map fun row => (key row, value row))).lookup k = (findKey key k rows).map value := by
  have hnd : ((rows.map fun row => (key row, value row)).map Prod.fst).Nodup := by
    rw [map_map]
    exact h
  rw [SortedMap.collect, SortedMap.lookup_extend hnd, lookup_nil, Option.or_none]
  clear h hnd
  induction rows with
  | nil => rfl
  | cons row rows ih =>
    rw [map_cons, SortedMap.lookup_cons_eq, findKey_cons, ih]
    by_cases hk : key row = k
    · rw [if_pos hk, if_pos hk.symm]
      rfl
    · rw [if_neg hk, if_neg (Ne.symm hk)]

end rows

/-- Rows with a unique key. -/
structure Table (α : Type*) {κ : Type*} (key : α → κ) where
  rows : List α
  unique : (rows.map key).Nodup

namespace Table

variable {α κ : Type*} {key : α → κ}

/-- The table with other rows of the same keys. -/
def modify (t : Table α key) (f : α → α) (h : ∀ row, key (f row) = key row) : Table α key where
  rows := t.rows.map f
  unique := by
    rw [map_map, show key ∘ f = key from funext h]
    exact t.unique

/-- The table with a row in the place of the one with its key, if there is one. -/
def replace [DecidableEq κ] (t : Table α key) (row : α) : Table α key :=
  t.modify (fun other => if key other = key row then row else other) fun other => by
    split_ifs with h
    · exact h.symm
    · rfl

/-- The table without the rows that satisfy a condition. -/
def delete (t : Table α key) (p : α → Bool) : Table α key where
  rows := t.rows.filter fun row => !p row
  unique := (filter_sublist.map key).nodup t.unique

variable [DecidableEq κ]

def find (t : Table α key) (k : κ) : Option α := findKey key k t.rows

/-- The table with one more row, unless its key is taken. -/
def insert (t : Table α key) (row : α) : Option (Table α key) :=
  if h : key row ∈ t.rows.map key then none
  else some ⟨row :: t.rows, nodup_cons.mpr ⟨h, t.unique⟩⟩

/-- The table with a row, instead of the one with its key. -/
def upsert (t : Table α key) (row : α) : Table α key where
  rows := row :: (t.delete fun other => key other = key row).rows
  unique := by
    refine nodup_cons.mpr ⟨fun hmem => ?_, Table.unique _⟩
    obtain ⟨other, hother, hkey⟩ := mem_map.mp hmem
    simpa [hkey] using (mem_filter.mp hother).2

variable {t : Table α key}

variable {row : α} {t' : Table α key}

theorem find_eq_some_iff {k : κ} : t.find k = some row ↔ row ∈ t.rows ∧ key row = k :=
  findKey_eq_some_iff t.unique

theorem key_of_find {k : κ} (h : t.find k = some row) : key row = k := key_of_findKey h

theorem rows_insert (h : t.insert row = some t') : t'.rows = row :: t.rows := by
  rw [insert] at h
  split at h
  · cases h
  · cases h
    rfl

theorem find_insert (h : t.insert row = some t') (k : κ) :
    t'.find k = if key row = k then some row else t.find k := by
  rw [find, rows_insert h]
  exact findKey_cons row t.rows

theorem find_modify (t : Table α key) (f : α → α) (h : ∀ row, key (f row) = key row) (k : κ) :
    (t.modify f h).find k = (t.find k).map f := by
  exact findKey_map h k t.rows

theorem find_ite_modify (c : Prop) [Decidable c] (t : Table α key) (f : α → α) (h : ∀ row, key (f row) = key row) (k : κ) :
    (if c then t.modify f h else t).find k = (t.find k).map fun row => if c then f row else row := by
  split_ifs
  · exact t.find_modify f h k
  · simp

theorem find_replace (t : Table α key) (row : α) (k : κ) :
    (t.replace row).find k = if key row = k then (t.find k).map (fun _ => row) else t.find k := by
  rw [replace, find_modify]
  cases hf : t.find k with
  | none => simp
  | some other =>
    have hke : key other = k := key_of_findKey hf
    by_cases hk : key row = k
    · simp [hke, hk]
    · simp [hke, hk, Ne.symm hk]

theorem find_delete (t : Table α key) (p : α → Bool) (k : κ) : (t.delete p).find k = (t.find k).filter fun row => !p row := by
  ext row
  rw [find_eq_some_iff, Option.filter_eq_some_iff, find_eq_some_iff]
  simp only [delete, mem_filter]
  tauto

/-- Deleting the row with a key. -/
theorem find_delete_key (t : Table α key) (k0 k : κ) :
    (t.delete fun row => key row = k0).find k = if k = k0 then none else t.find k := by
  rw [find_delete]
  cases hf : t.find k with
  | none => simp
  | some row => by_cases hk : k = k0 <;> simp [key_of_find hf, hk]

theorem find_upsert (t : Table α key) (row : α) (k : κ) :
    (t.upsert row).find k = if key row = k then some row else t.find k := by
  rw [find, upsert, findKey_cons]
  by_cases hk : key row = k
  · rw [if_pos hk, if_pos hk]
  · rw [if_neg hk, if_neg hk]
    have hf := t.find_delete (fun other => key other = key row) k
    rw [find] at hf
    rw [hf, find]
    cases ho : findKey key k t.rows with
    | none => rfl
    | some other =>
      refine Option.filter_some_pos ?_
      simpa [key_of_findKey ho] using Ne.symm hk

end Table

/-! ### Reads in the order of a key -/

section order

variable {α κ ι : Type*} [DecidableEq κ] [LinearOrder ι] {key : α → κ} {order : α → ι} {rows others : List α}

/-- The rows in the order of a key. -/
def sortBy (order : α → ι) (rows : List α) : List α := rows.insertionSort fun a b => order a ≤ order b

theorem perm_sortBy (order : α → ι) (rows : List α) : (sortBy order rows).Perm rows := perm_insertionSort ..

theorem mem_sortBy {row : α} : row ∈ sortBy order rows ↔ row ∈ rows := (perm_sortBy order rows).mem_iff

/-- Rows with different keys are in strict order. -/
theorem pairwise_sortBy (h : (rows.map order).Nodup) : ((sortBy order rows).map order).Pairwise (· < ·) := by
  have hne : ((sortBy order rows).map order).Nodup := ((perm_sortBy order rows).map order).nodup_iff.mpr h
  rw [nodup_iff_pairwise_ne, pairwise_map] at hne
  rw [pairwise_map]
  exact ((insertionSort_key_pairwise order rows).and hne).imp fun h => lt_of_le_of_ne h.1 h.2

theorem findKey_eq_of_perm (hp : rows.Perm others) (h : (rows.map key).Nodup) (k : κ) :
    findKey key k rows = findKey key k others := by
  ext row
  rw [findKey_eq_some_iff h, findKey_eq_some_iff ((hp.map key).nodup_iff.mp h), hp.mem_iff]

/-- **Two lists in order that have the same rows under each key are equal.** -/
theorem eq_of_findKey (hr : (rows.map order).Pairwise (· < ·)) (ho : (others.map order).Pairwise (· < ·))
    (hk : (rows.map key).Nodup) (hk' : (others.map key).Nodup)
    (h : ∀ k, findKey key k rows = findKey key k others) : rows = others := by
  have hm : ∀ row, row ∈ rows ↔ row ∈ others := by
    intro row
    have hi : row ∈ rows ∧ key row = key row ↔ row ∈ others ∧ key row = key row := by
      rw [← findKey_eq_some_iff hk, ← findKey_eq_some_iff hk', h]
    simpa using hi
  have hp : rows.Perm others :=
    (perm_ext_iff_of_nodup (List.Nodup.of_map key hk) (List.Nodup.of_map key hk')).mpr hm
  have ha : ∀ a b, a ∈ rows → b ∈ others → order a < order b → order b < order a → a = b := by
    intro a b _ _ hab hba
    exact absurd hba hab.not_gt
  exact List.Perm.eq_of_pairwise ha (pairwise_map.mp hr) (pairwise_map.mp ho) hp

theorem sortBy_congr (hr : (rows.map order).Nodup) (ho : (others.map order).Nodup) (hk : (rows.map key).Nodup)
    (hk' : (others.map key).Nodup) (h : ∀ k, findKey key k rows = findKey key k others) :
    sortBy order rows = sortBy order others := by
  have hp := (perm_sortBy order rows).symm
  have hp' := (perm_sortBy order others).symm
  refine eq_of_findKey (pairwise_sortBy hr) (pairwise_sortBy ho) ((hp.map key).nodup_iff.mp hk)
    ((hp'.map key).nodup_iff.mp hk') fun k => ?_
  rw [← findKey_eq_of_perm hp hk, ← findKey_eq_of_perm hp' hk', h]

end order

/-! ### Partial unique indexes -/

/-- Rows with the same entry in a partial unique index are one row. -/
theorem eq_of_nodup_filterMap {α κ : Type*} {i : α → Option κ} {rows : List α} (h : (rows.filterMap i).Nodup)
    {a b : α} (ha : a ∈ rows) (hb : b ∈ rows) {k : κ} (hak : i a = some k) (hbk : i b = some k) : a = b := by
  by_contra hne
  rw [Nodup, pairwise_filterMap] at h
  have hs : Std.Symm fun a b => ∀ k, i a = some k → ∀ l, i b = some l → k ≠ l :=
    ⟨fun _ _ h k hk l hl => (h l hl k hk).symm⟩
  exact h.forall ha hb hne k hak k hbk rfl

end IronAuth.Lib
