import Mathlib.Data.List.TakeWhile

/-!
# Reading back what was written

A text is often a word followed by a delimiter that the word cannot contain. Then the
word can be read back: two such texts are equal only if their words are. A delimiter of two
characters will do as well, if the two differ. And where each letter is written as a code
word, and no code word begins another, the letters are read back from the text.
-/

namespace IronAuth.Lib.Scan

open List Option

variable {α : Type*} {p : α → Bool} {word word2 rest rest2 : List α}

/-- The text does not go on with a character of a word. -/
def Delimited (p : α → Bool) (rest : List α) : Prop := ∀ a ∈ rest.head?, p a = false

theorem delimited_cons {a : α} (h : p a = false) (rest : List α) : Delimited p (a :: rest) := by
  intro b hb
  rw [List.head?_cons, mem_some_iff] at hb
  exact hb ▸ h

/-- The word that a text begins with. -/
theorem takeWhile_append (hw : ∀ a ∈ word, p a = true) (hr : Delimited p rest) :
    (word ++ rest).takeWhile p = word := by
  rw [takeWhile_append_of_pos hw]
  cases rest with
  | nil => simp
  | cons a rest =>
    rw [takeWhile_cons, hr a rfl]
    simp

/-- **A word and what follows it are read back.** -/
theorem append_inj_of_scan (hw : ∀ a ∈ word, p a = true) (hw2 : ∀ a ∈ word2, p a = true)
    (hr : Delimited p rest) (hr2 : Delimited p rest2) (h : word ++ rest = word2 ++ rest2) :
    word = word2 ∧ rest = rest2 := by
  have hwo : word = word2 := by
    rw [← takeWhile_append hw hr, h, takeWhile_append hw2 hr2]
  refine ⟨hwo, ?_⟩
  rw [hwo] at h
  exact append_cancel_left h

/-- **A word that does not contain `ab` is read back before `ab`.** -/
theorem append_inj_of_marker {a b : α} (hab : a ≠ b) (hwo : ¬ [a, b] <:+: word) (hw2 : ¬ [a, b] <:+: word2)
    (h : word ++ a :: b :: rest = word2 ++ a :: b :: rest2) : word = word2 ∧ rest = rest2 := by
  -- the longer word would contain the marker that ends the shorter one
  have hl : ∀ {w m r r2 : List α}, ¬ [a, b] <:+: w ++ m → a :: b :: r = m ++ a :: b :: r2 → m = [] := by
    intro w m r r2 hw hm
    rcases m with _ | ⟨c, _ | ⟨d, m⟩⟩
    · rfl
    · simp only [cons_append, nil_append, List.cons.injEq] at hm
      exact absurd hm.2.1.symm hab
    · simp only [cons_append, List.cons.injEq] at hm
      obtain ⟨rfl, rfl, -⟩ := hm
      exact absurd ⟨w, m, by simp⟩ hw
  rcases append_eq_append_iff.mp h with ⟨m, rfl, hm⟩ | ⟨m, rfl, hm⟩
  · obtain rfl := hl hw2 hm
    simpa using hm
  · obtain rfl := hl hwo hm
    simpa using hm.symm

/-- A marker lies on one side of a character that it does not have. -/
theorem marker_infix_append_cons {a b c : α} (ha : c ≠ a) (hb : c ≠ b) (h : [a, b] <:+: word ++ c :: rest) :
    [a, b] <:+: word ∨ [a, b] <:+: rest := by
  obtain ⟨before, after, h⟩ := h
  rw [append_assoc] at h
  rcases append_eq_append_iff.mp h with ⟨more, rfl, hm⟩ | ⟨more, rfl, hm⟩
  · rcases more with _ | ⟨d, _ | ⟨e, more⟩⟩
    · simp only [cons_append, nil_append, List.cons.injEq] at hm
      exact absurd hm.1.symm ha
    · simp only [cons_append, nil_append, List.cons.injEq] at hm
      exact absurd hm.2.1.symm hb
    · simp only [cons_append, nil_append, List.cons.injEq] at hm
      obtain ⟨rfl, rfl, -⟩ := hm
      exact .inl ⟨before, more, by simp⟩
  · cases more with
    | nil =>
      simp only [cons_append, nil_append, List.cons.injEq] at hm
      exact absurd hm.1 ha
    | cons d more =>
      simp only [cons_append, nil_append, List.cons.injEq] at hm
      exact .inr ⟨more, after, by simp [hm.2]⟩

/-! ### Codes -/

/-- No code word is empty, and none begins another. -/
structure PrefixFree {β : Type*} (code : α → List β) : Prop where
  ne_nil : ∀ a, code a ≠ []
  eq_of_begins : ∀ a b, code a <+: code b → a = b

/-- **Letters are read back from their code words.** -/
theorem PrefixFree.flatMap_injective {β : Type*} {code : α → List β} (h : PrefixFree code) :
    Function.Injective fun word : List α => word.flatMap code := by
  intro word word2 heq
  induction word generalizing word2 with
  | nil =>
    cases word2 with
    | nil => rfl
    | cons b word2 =>
      exact absurd (append_eq_nil_iff.mp heq.symm).1 (h.ne_nil b)
  | cons a word ih =>
    cases word2 with
    | nil =>
      exact absurd (append_eq_nil_iff.mp heq).1 (h.ne_nil a)
    | cons b word2 =>
      have hab : a = b := by
        rcases append_eq_append_iff.mp heq with ⟨more, hm, -⟩ | ⟨more, hm, -⟩
        · exact h.eq_of_begins a b ⟨more, hm.symm⟩
        · exact (h.eq_of_begins b a ⟨more, hm.symm⟩).symm
      subst hab
      rw [ih (append_cancel_left heq)]

/-- A code that writes most letters as themselves and the others, the mark among them, as words that begin with
the mark. -/
theorem prefixFree_of_escapes {co : α → List α} (m : α) (e : List (α × List α))
    (hco : ∀ a, (a, co a) ∈ e ∨ a ≠ m ∧ co a = [a]) (hm : ∀ entry ∈ e, entry.2.head? = some m)
    (hf : ∀ entry ∈ e, ∀ e2 ∈ e, entry.2 <+: e2.2 → entry.1 = e2.1) : PrefixFree co where
  ne_nil a := by
    obtain hme | ⟨-, hs⟩ := hco a
    · intro hn
      have hh := hm _ hme
      rw [hn] at hh
      cases hh
    · simp [hs]
  eq_of_begins a b h := by
    have hh : ∀ {c}, (co a).head? = some c → (co b).head? = some c := by
      intro c hc
      obtain ⟨more, hmo⟩ := h
      rw [← hmo, List.head?_append, hc, some_or]
    -- A word of one letter and one that begins with the mark do not begin each other.
    obtain ha | ⟨ha, hse⟩ := hco a <;> obtain hb | ⟨hb, hsl⟩ := hco b
    · exact hf _ ha _ hb h
    · have hma := hh (hm _ ha)
      rw [hsl] at hma
      exact absurd (some.inj hma) hb
    · have hl : (co b).head? = some a := hh (by rw [hse]; rfl)
      exact absurd (some.inj (hl.symm.trans (hm _ hb))) ha
    · rw [hse, hsl] at hh
      exact (some.inj (hh rfl)).symm

end IronAuth.Lib.Scan
