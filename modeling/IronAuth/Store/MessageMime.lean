import IronAuth.Lib.Text

/-!
# Multipart bodies

A message has a text and an HTML part, framed by delimiter lines that a boundary is the middle of. What the parts
hold is user data, so a boundary that stands anywhere in them is refused. A reader cuts the body at the lines that
are a delimiter, whatever their neighbours are; a line of a part lies inside that part, since neither end of a
CRLF can be taken for the other, and so it is no delimiter.
-/

namespace IronAuth.Store.MessageMime

open List

/-- `MimeError`, as far as bodies are concerned. -/
inductive MimeError
  | invalidBoundary
  | boundaryCollidesWithContent
  deriving DecidableEq

/-- `CRLF`. -/
def crlf : Text := ['\r', '\n']

/-- `boundary_is_well_formed`. -/
def boundaryIsWellFormed (boundary : Text) : Bool :=
  boundary ≠ [] && boundary.len ≤ 70 && boundary.getLast? ≠ some ' ' &&
    boundary.all fun c => c.isAlphanum || c ∈ "'()+_,-./:=? ".toList

/-- `--boundary`. -/
def delimiter (boundary : Text) : Text := '-' :: '-' :: boundary

/-- `--boundary--`. -/
def closeDelimiter (boundary : Text) : Text := delimiter boundary ++ ['-', '-']

/-- A part after its delimiter line. -/
def framed (contentType content : Text) : Text :=
  contentType ++ (crlf ++ ("Content-Transfer-Encoding: 8bit".toList ++ (crlf ++ (crlf ++ content))))

/-- `multipart_alternative`. -/
def multipartAlternative (text html boundary : Text) : Except MimeError Text :=
  if boundaryIsWellFormed boundary = false then .error .invalidBoundary
  else if boundary <:+: text ∨ boundary <:+: html then .error .boundaryCollidesWithContent
  else
    .ok (delimiter boundary ++ (crlf ++ (framed "Content-Type: text/plain; charset=utf-8".toList text ++ (crlf ++
      (delimiter boundary ++ (crlf ++ (framed "Content-Type: text/html; charset=utf-8".toList html ++ (crlf ++
        (closeDelimiter boundary ++ (crlf ++ []))))))))))

/-! ### Reading a body -/

/-- The lines between CRLFs. -/
def lines : Text → List Text
  | [] => [[]]
  | '\r' :: '\n' :: rest => [] :: lines rest
  | c :: rest => (lines rest).modifyHead (c :: ·)

/-- The preamble, the parts and the epilogue between the delimiter lines, all in lines. -/
def splitBody (boundary body : Text) : Option (List Text × List (List Text) × List Text) :=
  match (lines body).splitOnP (· = closeDelimiter boundary) with
  | [before, epilogue] =>
    match before.splitOnP (· = delimiter boundary) with
    | preamble :: parts => some (preamble, parts, epilogue)
    | [] => none
  | _ => none

/-- What follows the blank line after the headers of a part. -/
def contents (part : List Text) : Text := crlf.intercalate (part.dropWhile (· ≠ [])).tail

variable {text html boundary body t a : Text}

theorem lines_ne_nil (t : Text) : lines t ≠ [] := by
  fun_induction lines t with
  | case1 | case2 => simp
  | case3 c rest _ ih =>
    obtain ⟨first, more, h⟩ := exists_cons_of_ne_nil ih
    simp [h]

theorem lines_append (a b : Text) : lines (a ++ (crlf ++ b)) = lines a ++ lines b := by
  fun_induction lines a with
  | case1 => simp [crlf, lines]
  | case2 rest ih => simp [lines, ih]
  | case3 c rest hn ih =>
    obtain ⟨first, more, h⟩ := exists_cons_of_ne_nil (lines_ne_nil rest)
    rw [cons_append, lines, ih, h]
    · rfl
    · intro tail hc heq
      cases rest with
      | nil => simp [crlf] at heq
      | cons d rest =>
        cases heq
        exact hn rest hc rfl

theorem lines_of_not_mem (h : '\r' ∉ t) : lines t = [t] := by
  fun_induction lines t with
  | case1 => rfl
  | case2 => simp at h
  | case3 c rest _ ih =>
    rw [ih fun hm => h (mem_cons_of_mem _ hm)]
    rfl

theorem intercalate_lines (t : Text) : crlf.intercalate (lines t) = t := by
  fun_induction lines t with
  | case1 => rfl
  | case2 rest ih =>
    obtain ⟨first, more, h⟩ := exists_cons_of_ne_nil (lines_ne_nil rest)
    rw [h] at ih ⊢
    simp [intercalate, crlf] at ih ⊢
    exact ih
  | case3 c rest _ ih =>
    obtain ⟨first, more, h⟩ := exists_cons_of_ne_nil (lines_ne_nil rest)
    rw [h] at ih ⊢
    cases more with
    | nil => simpa using ih
    | cons => simpa using ih

/-- A line of a text lies in it. -/
theorem isInfix_of_mem_lines {line : Text} (h : line ∈ lines t) : line <:+: t := by
  have hi : ∀ l : List Text, line ∈ l → line ∈ l.intersperse crlf := by
    intro l hl
    induction l with
    | nil => cases hl
    | cons first more ih => cases more <;> grind [intersperse]
  rw [← intercalate_lines t]
  exact infix_of_mem_flatten (hi _ h)

/-- A part has two header lines, a blank line and the lines of what it holds. -/
theorem exists_part {contentType : Text} (hn : '\r' ∉ contentType) (hc : contentType.head? = some 'C') (t : Text) :
    contents (lines (framed contentType t)) = t ∧
      ∀ line ∈ lines (framed contentType t), line.head? = some '-' → line ∈ lines t := by
  have hl : lines (framed contentType t) =
      contentType :: "Content-Transfer-Encoding: 8bit".toList :: [] :: lines t := by
    rw [framed, lines_append, lines_append, ← nil_append (crlf ++ t), lines_append, lines_of_not_mem hn]
    rfl
  have hne : contentType ≠ [] := by
    rintro rfl
    cases hc
  rw [hl]
  constructor
  · simp [contents, hne, intercalate_lines]
  · intro line hm hd
    obtain rfl | rfl | rfl | hm : _ ∨ _ ∨ _ ∨ _ := by simpa only [mem_cons] using hm
    · cases hc.symm.trans hd
    · cases hd
    · cases hd
    · exact hm

theorem multipart_alternative_two_parts (hok : multipartAlternative text html boundary = .ok body) :
    ∃ plain rich, splitBody boundary body = some ([], [plain, rich], lines []) ∧
      contents plain = text ∧ contents rich = html := by
  unfold multipartAlternative at hok
  split_ifs at hok with hw hc
  obtain ⟨ht, hh⟩ := not_or.mp hc
  have hcr : '\r' ∉ boundary := by
    simp only [boundaryIsWellFormed, Bool.not_eq_false, Bool.and_eq_true, all_eq_true] at hw
    exact fun hm => absurd (hw.2 _ hm) (by decide)
  obtain ⟨hpc, hpd⟩ := @exists_part "Content-Type: text/plain; charset=utf-8".toList (by decide) rfl text
  obtain ⟨hrc, hrd⟩ := @exists_part "Content-Type: text/html; charset=utf-8".toList (by decide) rfl html
  have hd : lines (delimiter boundary) = [delimiter boundary] := lines_of_not_mem (by simp [delimiter, hcr])
  have hcl : lines (closeDelimiter boundary) = [closeDelimiter boundary] :=
    lines_of_not_mem (by simp [closeDelimiter, delimiter, hcr])
  have hl := congrArg lines (Except.ok.inj hok)
  simp only [lines_append, hd, hcl] at hl
  generalize lines (framed _ text) = plain at hpc hpd hl
  generalize lines (framed _ html) = rich at hrc hrd hl
  refine ⟨plain, rich, ?_, hpc, hrc⟩
  -- a line of a part that begins as a delimiter would be a line of what is framed
  have hno : ∀ line, delimiter boundary <+: line → line ∉ plain ∧ line ∉ rich := by
    rintro _ ⟨tail, rfl⟩
    have hb : boundary <:+: delimiter boundary ++ tail := ⟨['-', '-'], tail, by simp [delimiter]⟩
    exact ⟨fun hm => ht (hb.trans (isInfix_of_mem_lines (hpd _ hm rfl))),
      fun hm => hh (hb.trans (isInfix_of_mem_lines (hrd _ hm rfl)))⟩
  have hdn := hno (delimiter boundary) (prefix_refl _)
  have hcn := hno (closeDelimiter boundary) (prefix_append _ _)
  have hne : closeDelimiter boundary ≠ delimiter boundary := by simp [closeDelimiter]
  have hcut : ∀ {sep : Text} {before : List Text} (after : List Text), sep ∉ before →
      (before ++ sep :: after).splitOnP (fun line => decide (line = sep)) =
        before :: after.splitOnP fun line => decide (line = sep) := by
    intro sep before after hn
    refine splitOnP_append_cons_of_forall_mem (fun line hm => ?_) sep (by simp) after
    exact decide_eq_false (ne_of_mem_of_not_mem hm hn)
  have hwhole : ∀ {sep : Text} {part : List Text}, sep ∉ part →
      part.splitOnP (fun line => decide (line = sep)) = [part] := by
    intro sep part hn
    exact splitOnP_eq_singleton fun line hm => decide_eq_false (ne_of_mem_of_not_mem hm hn)
  have hbefore : closeDelimiter boundary ∉ [] ++ delimiter boundary :: (plain ++ delimiter boundary :: rich) := by
    simp [hne, hcn.1, hcn.2]
  have hlast : closeDelimiter boundary ∉ lines [] := by simp [closeDelimiter, delimiter, lines]
  have hlines : lines body =
      ([] ++ delimiter boundary :: (plain ++ delimiter boundary :: rich)) ++ closeDelimiter boundary :: lines [] := by
    simp [← hl]
  rw [splitBody, hlines, hcut _ hbefore, hwhole hlast]
  dsimp only
  rw [hcut _ not_mem_nil, hcut _ hdn.1, hwhole hdn.2]

theorem greeting_two_parts : ∃ body, multipartAlternative "hi".toList "<p>".toList "b".toList = .ok body ∧
    ∃ plain rich, splitBody "b".toList body = some ([], [plain, rich], lines []) ∧
      contents plain = "hi".toList ∧ contents rich = "<p>".toList :=
  ⟨_, rfl, multipart_alternative_two_parts rfl⟩

end IronAuth.Store.MessageMime
