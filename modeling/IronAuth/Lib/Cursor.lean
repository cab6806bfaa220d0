import Mathlib.Data.List.Count
import Mathlib.Data.List.Sort
import Mathlib.Order.Defs.LinearOrder

/-!
# Cursors over a table that grows

A reader takes the first rows after its cursor (`ORDER BY key LIMIT n`), does something with them, and
moves the cursor to the last of them. Rows may come in at any key in the meantime: what stands at or
before the cursor stays done as long as none comes in there.
-/

namespace IronAuth.Lib

open List

variable {α K : Type*} [LinearOrder K] {key : α → K} {n : ℕ} {l rows rows2 batch : List α} {x y : α} {c : K}
  {done done2 : α → Prop}

/-- The first rows in the order of their keys. -/
def page (key : α → K) (n : ℕ) (l : List α) : List α := (l.insertionSort fun a b => key a ≤ key b).take n

theorem mem_of_mem_page (h : x ∈ page key n l) : x ∈ l := (mem_insertionSort _).mp (mem_of_mem_take h)

theorem insertionSort_key_pairwise (key : α → K) (l : List α) :
    (l.insertionSort fun a b => key a ≤ key b).Pairwise fun a b => key a ≤ key b := by
  exact pairwise_insertionSort _ l

/-- What stands before a row of the page is in the page. -/
theorem mem_page_of_lt (hx : x ∈ l) (hy : y ∈ page key n l) (hlt : key x < key y) : x ∈ page key n l := by
  have hs := insertionSort_key_pairwise key l
  have hm : x ∈ l.insertionSort fun a b => key a ≤ key b := (mem_insertionSort _).mpr hx
  rw [← take_append_drop n (l.insertionSort _)] at hs hm
  rcases mem_append.mp hm with ht | hd
  · exact ht
  · exact absurd ((pairwise_append.mp hs).2.2 y hy x hd) (not_le.mpr hlt)

/-- Fewer than `n` rows stand before a row of the page. -/
theorem countP_lt_of_mem_page (hy : y ∈ page key n l) : l.countP (fun z => decide (key z < key y)) < n := by
  have hs := insertionSort_key_pairwise key l
  rw [← take_append_drop n (l.insertionSort _), pairwise_append] at hs
  have hd : ((l.insertionSort fun a b => key a ≤ key b).drop n).countP (fun z => decide (key z < key y)) = 0 := by
    rw [countP_eq_zero]
    exact fun z hz => by simpa using hs.2.2 y hy z hz
  rw [← (perm_insertionSort (fun a b => key a ≤ key b) l).countP_eq,
    ← take_append_drop n (l.insertionSort _), countP_append, hd, Nat.add_zero]
  exact (countP_lt_length_iff.mpr ⟨y, hy, by simp⟩).trans_le (length_take_le ..)

/-- Every row at or before the cursor is done. -/
def Covered (key : α → K) (rows : List α) (done : α → Prop) (c : K) : Prop := ∀ x ∈ rows, key x ≤ c → done x

/-- What stands at or before a row of the batch is in the batch, or done. -/
def Reads (key : α → K) (rows : List α) (done : α → Prop) (batch : List α) : Prop :=
  ∀ x ∈ rows, ∀ y ∈ batch, key x ≤ key y → x ∈ batch ∨ done x

/-- Rows that come in after the cursor change nothing. -/
theorem Covered.grow (h : Covered key rows done c) (hd : ∀ x, done x → done2 x) (hg : ∀ x ∈ rows2, x ∈ rows ∨ c < key x) :
    Covered key rows2 done2 c := by
  intro x hx hle
  rcases hg x hx with hr | hlt
  · exact hd x (h x hr hle)
  · exact absurd hle (not_le.mpr hlt)

theorem Reads.grow (h : Reads key rows done batch) (hd : ∀ x, done x → done2 x)
    (hg : ∀ x ∈ rows2, x ∈ rows ∨ ∀ y ∈ batch, key y < key x) : Reads key rows2 done2 batch := by
  intro x hx y hy hle
  rcases hg x hx with hr | hlt
  · exact (h x hr y hy hle).imp_right (hd x)
  · exact absurd hle (not_le.mpr (hlt y hy))

/-- A batch has every row after the cursor, or `n` rows that stand before any that it lacks. -/
def Fills (key : α → K) (n : ℕ) (rows : List α) (c : K) (batch : List α) : Prop :=
  ∀ x ∈ rows, c < key x → x ∈ batch ∨ batch.length = n ∧ ∀ z ∈ batch, key z < key x

theorem fills_page (hi : ∀ x ∈ rows, ∀ y ∈ rows, key x = key y → x = y) :
    Fills key n rows c (page key n (rows.filter fun x => c < key x)) := by
  intro x hx hc
  by_cases hp : x ∈ page key n (rows.filter fun x => c < key x)
  · exact .inl hp
  have hxf : x ∈ rows.filter fun x => c < key x := mem_filter.mpr ⟨hx, decide_eq_true hc⟩
  refine .inr ⟨?_, fun z hz => ?_⟩
  · have hs := (mem_insertionSort fun a b => key a ≤ key b).mpr hxf
    rw [← take_append_drop n (List.insertionSort _ _)] at hs
    have hd := length_pos_of_mem ((mem_append.mp hs).resolve_left hp)
    rw [length_drop] at hd
    exact length_take_of_le (by omega)
  · rcases lt_trichotomy (key z) (key x) with hlt | heq | hgt
    · exact hlt
    · rw [hi z (mem_filter.mp (mem_of_mem_page hz)).1 x hx heq] at hz
      exact absurd hz hp
    · exact absurd (mem_page_of_lt hxf hz hgt) hp

theorem Fills.grow (h : Fills key n rows c batch) (hg : ∀ x ∈ rows2, x ∈ rows) : Fills key n rows2 c batch :=
  fun x hx => h x (hg x hx)

/-- A page of the rows after the cursor. -/
theorem Covered.reads_page (h : Covered key rows done c) (hi : ∀ x ∈ rows, ∀ y ∈ rows, key x = key y → x = y) :
    Reads key rows done (page key n (rows.filter fun x => c < key x)) := by
  intro x hx y hy hle
  rcases le_or_gt (key x) c with hxc | hcx
  · exact .inr (h x hx hxc)
  · exact .inl ((fills_page hi x hx hcx).resolve_right fun hz => absurd hle (not_le.mpr (hz.2 y hy)))

/-- Two pages after one cursor, merged and cut to the length of one: fewer than `n` rows stand before a row of
the merge, so a full page that lacks an earlier one has not reached it. -/
theorem Covered.reads_merge {l2 batch2 : List α} (h : Covered key rows done c) (hs : ∀ x ∈ rows, x ∈ l ∨ x ∈ l2)
    (h1 : Fills key n l c batch) (h2 : Fills key n l2 c batch2)
    (hi : ∀ x ∈ rows, ∀ y ∈ batch ++ batch2, key x = key y → x = y) :
    Reads key rows done (page key n (batch ++ batch2)) := by
  intro x hx y hy hle
  rcases le_or_gt (key x) c with hxc | hcx
  · exact .inr (h x hx hxc)
  have hcount := countP_lt_of_mem_page hy
  rw [countP_append] at hcount
  have hfull : ∀ b : List α, (b.length = n ∧ ∀ z ∈ b, key z < key x) → n ≤ b.countP fun z => decide (key z < key y) := by
    rintro b ⟨rfl, hz⟩
    exact (countP_eq_length.mpr fun z hzb => decide_eq_true ((hz z hzb).trans_le hle)).ge
  have hmem : x ∈ batch ++ batch2 := by
    rw [mem_append]
    rcases hs x hx with hl | hl
    · exact .inl ((h1 x hl hcx).resolve_right fun hz => by have := hfull batch hz; omega)
    · exact .inr ((h2 x hl hcx).resolve_right fun hz => by have := hfull batch2 hz; omega)
  rcases hle.lt_or_eq with hlt | heq
  · exact .inl (mem_page_of_lt hmem hy hlt)
  · rw [hi x hx y (mem_of_mem_page hy) heq]
    exact .inl hy

/-- Once the batch is done, the cursor may move to any row of it. -/
theorem Reads.covered (h : Reads key rows done batch) (hd : ∀ x, done x → done2 x) (hb : ∀ x ∈ batch, done2 x)
    (hy : y ∈ batch) : Covered key rows done2 (key y) :=
  fun x hx hle => (h x hx y hy hle).elim (hb x) (hd x)

end IronAuth.Lib
