import IronAuth.Lib.Scan
import IronAuth.Lib.Table
import IronAuth.Saml.Reading

/-!
# Reading the canonical form back

The canonical form determines what can be read of an element, as long as no element has the
prefix `xml`. The canonical form is first written as `Content`: the text before each child,
the names, and the attributes in the order in which they are written, declarations included.
`Content` is read back from its text because of the escapes and because a name has no
delimiter in it. What an element means is then read off its `Content`: a prefix means what
the declarations written around it say.

A tree is well formed if its names pass `check_name`, no element repeats an attribute, and no
processing instruction contains `?>`. The first is a rule of the reader; the tokenizer sees
to the others.
-/

namespace IronAuth.Saml

open Lib.Fallible Lib.Scan List

/-! ### Escapes -/

/-- The characters that a text escapes, and those that a value does. -/
def textEscapes : List (Char × Text) :=
  [('&', "&amp;".toList), ('<', "&lt;".toList), ('>', "&gt;".toList), ('\r', "&#xD;".toList)]

def attributeEscapes : List (Char × Text) :=
  [('&', "&amp;".toList), ('<', "&lt;".toList), ('"', "&quot;".toList), ('\t', "&#x9;".toList), ('\n', "&#xA;".toList),
    ('\r', "&#xD;".toList)]

theorem prefixFree_escapeText : PrefixFree escapeText := by
  refine prefixFree_of_escapes '&' textEscapes ?_ (by decide) (by decide)
  intro c
  unfold escapeText
  split_ifs <;> simp_all [textEscapes]

theorem prefixFree_escapeAttribute : PrefixFree escapeAttribute := by
  refine prefixFree_of_escapes '&' attributeEscapes ?_ (by decide) (by decide)
  intro c
  unfold escapeAttribute
  split_ifs <;> simp_all [attributeEscapes]

variable {t rest2 n : Text} {c : Content} {re : List RichNode} {r i : Scope}
   {a attributes o : List RichAttribute}

/-- No escape of a text has the character that begins a tag. -/
theorem ne_lt_of_mem_writeText {c : Char} (h : c ∈ writeText t) : c ≠ '<' := by
  rintro rfl
  obtain ⟨d, -, hd⟩ := List.mem_flatMap.mp h
  unfold escapeText at hd
  split_ifs at hd with ha hlt hgt hcr
  iterate 4 exact absurd hd (by decide)
  exact hlt (List.mem_singleton.mp hd).symm

/-- No escape of a value has the character that ends it. -/
theorem ne_quote_of_mem_writeAttributeValue {v : Text} {c : Char} (h : c ∈ writeAttributeValue v) : c ≠ '"' := by
  rintro rfl
  obtain ⟨d, -, hd⟩ := mem_flatMap.mp h
  unfold escapeAttribute at hd
  split_ifs at hd with ha hlt hq ht hlf hcr
  iterate 6 exact absurd hd (by decide)
  exact hq (mem_singleton.mp hd).symm

/-- What follows a text in the canonical form: nothing, or a tag. -/
def Tagged (rest : Text) : Prop := ∀ c ∈ rest.head?, c = '<'

/-- A text is read back before a tag. -/
theorem writeText_append_inj {t2 re : Text} (hre : Tagged re) (hr2 : Tagged rest2)
    (h : writeText t ++ re = writeText t2 ++ rest2) : t = t2 ∧ re = rest2 := by
  have hd : ∀ {r : Text}, Tagged r → Delimited (fun c => c ≠ '<') r := by
    intro r hr c hc
    simp [hr c hc]
  obtain ⟨ht, he⟩ := append_inj_of_scan (p := fun c => decide (c ≠ '<'))
    (fun c hc => by simpa using ne_lt_of_mem_writeText hc) (fun c hc => by simpa using ne_lt_of_mem_writeText hc)
    (hd hre) (hd hr2) h
  exact ⟨prefixFree_escapeText.flatMap_injective ht, he⟩

/-- A value is read back before its closing quote. -/
theorem writeAttributeValue_append_inj {value value2 rest : Text}
    (h : writeAttributeValue value ++ '"' :: rest = writeAttributeValue value2 ++ '"' :: rest2) :
    value = value2 ∧ rest = rest2 := by
  obtain ⟨hv, hr⟩ := append_inj_of_scan (p := fun c => decide (c ≠ '"'))
    (fun c hc => by simpa using ne_quote_of_mem_writeAttributeValue hc)
    (fun c hc => by simpa using ne_quote_of_mem_writeAttributeValue hc)
    (delimited_cons (by simp) _) (delimited_cons (by simp) _) h
  refine ⟨prefixFree_escapeAttribute.flatMap_injective hv, ?_⟩
  simpa using hr

/-! ### Names -/

/-- The characters that follow a name, or begin a tag that is not an element's. -/
def isDelimiter (c : Char) : Bool := c = ' ' || c = '>' || c = '=' || c = '/' || c = '?'

/-- A name in the output: not empty, with no delimiter in it. -/
structure Plain (name : Text) : Prop where
  ne_nil : name ≠ []
  notDelimiter : ∀ c ∈ name, isDelimiter c = false

/-- A name is read back before a delimiter. -/
theorem Plain.append_inj {n2 r : Text} (hn : Plain n) (hn2 : Plain n2) {c c2 : Char}
    (hc : isDelimiter c) (hc2 : isDelimiter c2) (h : n ++ c :: r = n2 ++ c2 :: rest2) :
    n = n2 ∧ c :: r = c2 :: rest2 :=
  append_inj_of_scan (p := fun c => !isDelimiter c) (fun c hc => by simpa using hn.notDelimiter c hc)
    (fun c hc => by simpa using hn2.notDelimiter c hc) (delimited_cons (by simpa using hc) _)
    (delimited_cons (by simpa using hc2) _) h

section names

variable {tables : CharTables} {name : Text}

theorem notDelimiter_of_isName {c : Char} (h : isNameStart tables c ∨ isNameChar tables c) : isDelimiter c = false := by
  by_contra hd
  simp only [isDelimiter, Bool.not_eq_false, Bool.or_eq_true, decide_eq_true_eq] at hd
  rcases hd with (((rfl | rfl) | rfl) | rfl) | rfl <;> simp [isNameStart, isNameChar, isAscii] at h

theorem plain_of_checkName (h : checkName tables name = .ok ()) : Plain name := by
  rw [checkName, check_bind_eq_ok_iff, check_bind_eq_ok_iff] at h
  obtain ⟨-, -, h⟩ := h
  cases name with
  | nil => simp [checkCharacters] at h
  | cons first ch =>
    obtain ⟨hf, hch⟩ : isNameStart tables first ∧ ∀ c ∈ ch, isNameChar tables c := by simpa [checkCharacters] using h
    refine ⟨by simp, ?_⟩
    intro c hc
    rcases List.mem_cons.mp hc with rfl | hc
    · exact notDelimiter_of_isName (.inl hf)
    · exact notDelimiter_of_isName (.inr (hch c hc))

end names

/-! ### Content -/

/-- The canonical form of a list of nodes: what is written before, in and after each child. -/
inductive Content where
  | done (lead : Text)
  | element (lead name : Text) (pairs : List RichAttribute) (inner rest : Content)
  | instruction (lead content : Text) (rest : Content)

namespace Content

/-- The text of the canonical form. -/
def render : Content → Text
  | .done lead => writeText lead
  | .element lead name pairs inner rest =>
    writeText lead ++ '<' :: (name ++ (pairs.flatMap writeAttribute ++ '>' ::
      (inner.render ++ '<' :: '/' :: (name ++ '>' :: rest.render))))
  | .instruction lead content rest => writeText lead ++ '<' :: '?' :: (content ++ '?' :: '>' :: rest.render)

/-- Put a text before the content. -/
def addText (text : Text) : Content → Content
  | .done lead => .done (text ++ lead)
  | .element lead name pairs inner rest => .element (text ++ lead) name pairs inner rest
  | .instruction lead content rest => .instruction (text ++ lead) content rest

theorem render_addText (t : Text) (c : Content) : (c.addText t).render = writeText t ++ c.render := by
  cases c <;> simp [addText, render, writeText]

/-- Names can be told from what follows them, and instructions from their end. -/
def Wf : Content → Prop
  | .done _ => True
  | .element _ name pairs inner rest => Plain name ∧ (∀ entry ∈ pairs, Plain entry.name) ∧ inner.Wf ∧ rest.Wf
  | .instruction _ content rest => ¬ ['?', '>'] <:+: content ∧ rest.Wf

/-! ### Reading back -/

/-- What follows the content of an element: nothing, or an end tag. -/
def Closes (rest : Text) : Prop := rest = [] ∨ ∃ more, rest = '<' :: '/' :: more

theorem Closes.tagged {rest : Text} (h : Closes rest) : Tagged rest := by
  rcases h with rfl | ⟨more, rfl⟩
  · exact fun c hc => by cases hc
  · exact fun c hc => (Option.some.inj hc).symm

theorem tagged_cons (r : Text) : Tagged ('<' :: r) := fun _ hc => (Option.some.inj hc).symm

variable {r : Text}

/-- The attributes of a tag are read back. -/
theorem pairs_inj {p p2 : List RichAttribute} {rest2 : Text} (h : ∀ entry ∈ p, Plain entry.name)
    (h2 : ∀ entry ∈ p2, Plain entry.name)
    (heq : p.flatMap writeAttribute ++ '>' :: r = p2.flatMap writeAttribute ++ '>' :: rest2) :
    p = p2 ∧ r = rest2 := by
  induction p generalizing p2 with
  | nil =>
    cases p2 with
    | nil => simpa using heq
    | cons entry p2 => simp [writeAttribute] at heq
  | cons entry p ih =>
    cases p2 with
    | nil => simp [writeAttribute] at heq
    | cons en2 p2 =>
      rw [List.forall_mem_cons] at h h2
      simp only [List.flatMap_cons, writeAttribute, List.cons_append, List.append_assoc, List.nil_append,
        List.cons.injEq, true_and] at heq
      obtain ⟨hn, heq⟩ := h.1.append_inj h2.1 rfl rfl heq
      simp only [List.cons.injEq, true_and] at heq
      obtain ⟨hv, heq⟩ := writeAttributeValue_append_inj heq
      obtain ⟨hp, hr⟩ := ih h.2 h2.2 heq
      refine ⟨?_, hr⟩
      rw [hp, List.cons.injEq]
      exact ⟨RichAttribute.ext hn hv, rfl⟩

/-- A name in a tag is followed by a delimiter. -/
theorem pairs_delimited (p : List RichAttribute) (r : Text) :
    ∃ c more, isDelimiter c ∧ p.flatMap writeAttribute ++ '>' :: r = c :: more := by
  cases p with
  | nil => exact ⟨'>', r, rfl, rfl⟩
  | cons entry p => exact ⟨' ', _, rfl, by simp [writeAttribute]; rfl⟩

/-- The text before the first child. -/
def lead : Content → Text
  | .done lead | .element lead _ _ _ _ | .instruction lead _ _ => lead

/-- What is written from the first child on. -/
def tags : Content → Text
  | .done _ => []
  | .element _ name pairs inner rest =>
    '<' :: (name ++ (pairs.flatMap writeAttribute ++ '>' :: (inner.render ++ '<' :: '/' :: (name ++ '>' :: rest.render))))
  | .instruction _ content rest => '<' :: '?' :: (content ++ '?' :: '>' :: rest.render)

theorem lead_inj {co co2 : Content} {rest2 : Text} (hr : Closes r) (hr2 : Closes rest2)
    (h : co.render ++ r = co2.render ++ rest2) : co.lead = co2.lead ∧ co.tags ++ r = co2.tags ++ rest2 := by
  have hco : ∀ (c : Content) {r}, Closes r → c.render ++ r = writeText c.lead ++ (c.tags ++ r) ∧ Tagged (c.tags ++ r) := by
    intro c r hr
    cases c with
    | done => exact ⟨rfl, hr.tagged⟩
    | element | instruction => exact ⟨by simp [render, lead, tags], tagged_cons _⟩
  rw [(hco co hr).1, (hco co2 hr2).1] at h
  exact writeText_append_inj (hco co hr).2 (hco co2 hr2).2 h

/-- The tag of an element is told from other tags by its second character. -/
theorem second_element {l n : Text} {p : List RichAttribute} {i a : Content} (h : Plain n) :
    ∃ c, ((element l n p i a).tags ++ r)[1]? = some c ∧ isDelimiter c = false := by
  obtain ⟨first, ch, rfl⟩ := List.exists_cons_of_ne_nil h.ne_nil
  exact ⟨first, rfl, h.notDelimiter first (List.mem_cons_self ..)⟩

theorem Closes.second (h : Closes r) : r[1]? = none ∨ r[1]? = some '/' := by
  rcases h with rfl | ⟨more, rfl⟩ <;> simp

/-- **Content is read back from its canonical form.** -/
theorem render_inj {co co2 : Content} {rest2 : Text} (h : co.Wf) (h2 : co2.Wf)
    (hr : Closes r) (hr2 : Closes rest2) (heq : co.render ++ r = co2.render ++ rest2) :
    co = co2 ∧ r = rest2 := by
  induction co generalizing co2 r rest2 with
  | done l =>
    obtain ⟨rfl, ht⟩ := lead_inj hr hr2 heq
    cases co2 with
    | done l2 => exact ⟨rfl, ht⟩
    | element l2 n2 p2 i2 a2 =>
      obtain ⟨c, hc, hd⟩ := second_element h2.1
      rw [← ht] at hc
      rcases hr.second with hs | hs <;> cases hs.symm.trans hc
      cases hd
    | instruction l2 t2 a2 => rcases hr.second with hs | hs <;> cases hs.symm.trans (congrArg (·[1]?) ht)
  | element l name p inn after i ia =>
    obtain ⟨rfl, ht⟩ := lead_inj hr hr2 heq
    cases co2 with
    | done l2 =>
      obtain ⟨c, hc, hd⟩ := second_element h.1
      rw [ht] at hc
      rcases hr2.second with hs | hs <;> cases hs.symm.trans hc
      cases hd
    | element l2 n2 p2 i2 a2 =>
      simp only [tags, List.append_assoc, List.cons_append, List.cons.injEq, true_and] at ht
      -- the name, then the attributes, then the children, then the end tag, then the siblings
      obtain ⟨c, more, hc, hm⟩ := pairs_delimited p
        (inn.render ++ '<' :: '/' :: (name ++ '>' :: (after.render ++ r)))
      obtain ⟨c2, m2, hc2, hm2⟩ := pairs_delimited p2
        (i2.render ++ '<' :: '/' :: (n2 ++ '>' :: (a2.render ++ rest2)))
      obtain ⟨hn, hp⟩ := h.1.append_inj h2.1 hc hc2 (by rw [← hm, ← hm2]; exact ht)
      rw [← hm, ← hm2] at hp
      obtain ⟨rfl, hi⟩ := pairs_inj h.2.1 h2.2.1 hp
      obtain ⟨rfl, ha⟩ := i h.2.2.1 h2.2.2.1 (.inr ⟨_, rfl⟩) (.inr ⟨_, rfl⟩) hi
      subst hn
      simp only [List.cons.injEq, true_and, List.append_cancel_left_eq] at ha
      obtain ⟨rfl, rfl⟩ := ia h.2.2.2 h2.2.2.2 hr hr2 ha
      exact ⟨rfl, rfl⟩
    | instruction l2 t2 a2 =>
      obtain ⟨c, hc, hd⟩ := second_element h.1
      rw [ht] at hc
      cases hc
      cases hd
  | instruction l text after ih =>
    obtain ⟨rfl, ht⟩ := lead_inj hr hr2 heq
    cases co2 with
    | done l2 => rcases hr2.second with hs | hs <;> cases hs.symm.trans (congrArg (·[1]?) ht.symm)
    | element l2 n2 p2 i2 a2 =>
      obtain ⟨c, hc, hd⟩ := second_element h2.1
      rw [← ht] at hc
      cases hc
      cases hd
    | instruction l2 t2 a2 =>
      simp only [tags, List.append_assoc, List.cons_append, List.cons.injEq, true_and] at ht
      obtain ⟨rfl, ha⟩ := append_inj_of_marker (by decide) h.1 h2.1 ht
      obtain ⟨rfl, rfl⟩ := ih h.2 h2.2 hr hr2 ha
      exact ⟨rfl, rfl⟩

end Content

/-! ### The content of nodes -/

/-- A declaration as an attribute. -/
def Binding.asAttribute (binding : Binding) : RichAttribute where
  name := if binding.nsPrefix = [] then "xmlns".toList else "xmlns:".toList ++ binding.nsPrefix
  value := binding.uri

theorem writeAttribute_asAttribute (binding : Binding) : writeAttribute binding.asAttribute = writeBinding binding := by
  unfold writeAttribute writeBinding Binding.asAttribute
  split_ifs <;> simp

mutual

/-- What a node puts before the content of its later siblings. -/
def contentNode (inScope rendered : Scope) : RichNode → Option (Content → Content)
  | .element name attributes children => do
    let (declared, ordinary) := splitAttributes attributes
    let scope := inScope.bindAll declared
    let emitted ← emittedFor scope rendered (usedPrefixes name ordinary)
    let ordered ← orderedFor scope ordinary
    let inner ← contentNodes scope (rendered.bindAll emitted) children
    return .element [] name (emitted.map Binding.asAttribute ++ ordered) inner
  | .text content => some (Content.addText content)
  | .processingInstruction content => some (.instruction [] (instructionText content))

/-- The content of a list of nodes. -/
def contentNodes (inScope rendered : Scope) : List RichNode → Option Content
  | [] => some (.done [])
  | node :: rest => do
    let first ← contentNode inScope rendered node
    let others ← contentNodes inScope rendered rest
    return first others

end

/-- The canonical form is the text of the content. -/
theorem writeNodes_eq_render (i r : Scope) (n : List RichNode) :
    writeNodes i r n = (contentNodes i r n).map Content.render := by
  induction n using RichNode.forest_induction generalizing i r with
  | nil => rfl
  | element name attributes children rest hch hr =>
    simp only [writeNodes, contentNodes, writeNode, contentNode, hch, hr]
    cases emittedFor (i.bindAll (splitAttributes attributes).1) r
        (usedPrefixes name (splitAttributes attributes).2) with
    | none => rfl
    | some em =>
      cases orderedFor (i.bindAll (splitAttributes attributes).1) (splitAttributes attributes).2 with
      | none => rfl
      | some ordered =>
        simp only [Option.bind_eq_bind, Option.bind_some]
        cases contentNodes (i.bindAll (splitAttributes attributes).1) (r.bindAll em) children with
        | none => rfl
        | some inn =>
          cases contentNodes i r rest with
          | none => rfl
          | some others =>
            simp [Content.render, writeText, List.flatMap_map, writeAttribute_asAttribute]
  | text c rest hr =>
    simp only [writeNodes, contentNodes, writeNode, contentNode, hr]
    cases contentNodes i r rest with
    | none => rfl
    | some others => simp [Content.render_addText]
  | processingInstruction c rest hr =>
    simp only [writeNodes, contentNodes, writeNode, contentNode, hr]
    cases contentNodes i r rest with
    | none => rfl
    | some others => simp [Content.render, writeProcessingInstruction, writeText]

/-- What it takes for an element to have content. -/
theorem contentNodes_element_eq_some {k : List RichNode}
    (h : contentNodes i r (.element n a k :: re) = some c) :
    ∃ em ordered inn after,
      emittedFor (scopeWithin a i) r (usedPrefixes n (splitAttributes a).2) =
          some em ∧
        orderedFor (scopeWithin a i) (splitAttributes a).2 = some ordered ∧
        contentNodes (scopeWithin a i) (r.bindAll em) k = some inn ∧
        contentNodes i r re = some after ∧
        c = .element [] n (em.map Binding.asAttribute ++ ordered) inn after := by
  simp only [contentNodes, contentNode, Option.bind_eq_bind, Option.bind_eq_some_iff] at h
  obtain ⟨first, ⟨em, hem, ordered, ho, inn, hi, hf⟩, after, ha, hc⟩ := h
  cases hf
  cases hc
  exact ⟨em, ordered, inn, after, hem, ho, hi, ha, rfl⟩

theorem contentNodes_leaf_eq_some {node : RichNode} {first : Content → Content} (hf : contentNode i r node = some first)
    (h : contentNodes i r (node :: re) = some c) : ∃ after, contentNodes i r re = some after ∧ c = first after := by
  simp only [contentNodes, hf, Option.bind_eq_bind, Option.bind_some, Option.bind_eq_some_iff] at h
  obtain ⟨after, ha, hc⟩ := h
  exact ⟨after, ha, (Option.some.inj hc).symm⟩

/-! ### Well-formed trees -/

/-- The names pass `check_name`, no element repeats an attribute, and no processing
instruction contains its end. -/
inductive WellFormed (tables : CharTables) : List RichNode → Prop where
  | nil : WellFormed tables []
  | element {name : Text} {attributes : List RichAttribute} {children rest : List RichNode}
      (hname : checkName tables name = .ok ()) (hattributes : ∀ entry ∈ attributes, checkName tables entry.name = .ok ())
      (hnodup : (attributes.map RichAttribute.name).Nodup) (hchildren : WellFormed tables children)
      (hrest : WellFormed tables rest) : WellFormed tables (.element name attributes children :: rest)
  | text {content : Text} {rest : List RichNode} (hrest : WellFormed tables rest) : WellFormed tables (.text content :: rest)
  | processingInstruction {content : Text} {rest : List RichNode} (hcontent : ¬ ['?', '>'] <:+: content)
      (hrest : WellFormed tables rest) : WellFormed tables (.processingInstruction content :: rest)

theorem splitOnce_eq {p : Char → Bool} {pa : Text × Text} (h : Text.splitOnce p t = some pa) :
    ∃ c, p c ∧ t = pa.1 ++ c :: pa.2 := by
  induction t generalizing pa with
  | nil => cases h
  | cons c rest ih =>
    unfold Text.splitOnce at h
    split_ifs at h with hc
    · cases h
      exact ⟨c, hc, rfl⟩
    · obtain ⟨p2, hps2, rfl⟩ := Option.map_eq_some_iff.mp h
      obtain ⟨d, hd, hr⟩ := ih hps2
      exact ⟨d, hd, by rw [hr]; rfl⟩

/-- The canonical text of an instruction does not contain its end. -/
theorem not_infix_instructionText {content : Text} (h : ¬ ['?', '>'] <:+: content) :
    ¬ ['?', '>'] <:+: instructionText content := by
  unfold instructionText
  cases hs : Text.splitOnce isAsciiWhitespace content with
  | none => exact h
  | some parts =>
    obtain ⟨c, -, hc⟩ := splitOnce_eq hs
    have ht : ¬ ['?', '>'] <:+: parts.1 := by
      intro hin
      exact h (hin.trans (hc ▸ List.infix_append' [] parts.1 (c :: parts.2)))
    have hr : ¬ ['?', '>'] <:+: parts.2.dropWhile isAsciiWhitespace := by
      intro hin
      refine h (hin.trans ((List.dropWhile_suffix _).isInfix.trans ?_))
      rw [hc]
      exact ⟨parts.1 ++ [c], [], by simp⟩
    show ¬ ['?', '>'] <:+: if parts.2.dropWhile isAsciiWhitespace = [] then parts.1
      else parts.1 ++ ' ' :: parts.2.dropWhile isAsciiWhitespace
    split_ifs with he
    · exact ht
    · intro hin
      rcases marker_infix_append_cons (by decide) (by decide) hin with hin | hin
      · exact ht hin
      · exact hr hin

theorem notDelimiter_of_prefixOf {t : CharTables} {p : Text} (hn : checkName t n = .ok ())
    (hp : prefixOf n = some p) : ∀ c ∈ p, isDelimiter c = false := by
  intro c hc
  obtain ⟨parts, hps, rfl⟩ := Option.map_eq_some_iff.mp hp
  obtain ⟨d, -, hs⟩ := splitOnce_eq hps
  apply (plain_of_checkName hn).notDelimiter
  rw [hs]
  exact List.mem_append_left _ hc

/-- A declaration that is written has a name that can be told from what follows it. -/
theorem plain_asAttribute {bnd : Binding} (h : ∀ c ∈ bnd.nsPrefix, isDelimiter c = false) :
    Plain bnd.asAttribute.name := by
  have hd : ∀ c ∈ "xmlns".toList, isDelimiter c = false := by simp [isDelimiter]
  have hco : ∀ c ∈ "xmlns:".toList, isDelimiter c = false := by simp [isDelimiter]
  unfold Binding.asAttribute
  split_ifs with he
  · exact ⟨by simp, hd⟩
  · refine ⟨by simp, ?_⟩
    intro c hc
    rcases List.mem_append.mp hc with hc | hc
    · exact hco c hc
    · exact h c hc

theorem perm_orderedFor {s : Scope}
    (h : orderedFor s attributes = some o) : o.Perm attributes := by
  obtain ⟨keyed, hk, rfl⟩ := Option.map_eq_some_iff.mp h
  refine ((List.perm_insertionSort _ keyed).map _).trans ?_
  have ha := mapM_eq_some_iff.mp hk
  clear hk h
  induction ha with
  | nil => exact .refl _
  | cons he _ ih =>
    obtain ⟨uri, -, rfl⟩ := Option.map_eq_some_iff.mp he
    exact ih.cons _

theorem wf_contentNodes {t : CharTables} {n : List RichNode}
    (hns : WellFormed t n) (h : contentNodes i r n = some c) : c.Wf := by
  induction hns generalizing i r c with
  | nil =>
    cases h
    trivial
  | @element name _ _ _ hn ha hnd _ _ ic ir =>
    obtain ⟨em, ordered, inn, after, hem, ho, hi, haf, rfl⟩ := contentNodes_element_eq_some h
    have hor : ∀ entry ∈ (splitAttributes _).2, checkName t entry.name = .ok () :=
      fun entry he => ha entry (List.mem_of_mem_filter he)
    refine ⟨plain_of_checkName hn, ?_, ic hi, ir haf⟩
    intro entry he
    rcases List.mem_append.mp he with he | he
    · obtain ⟨bnd, hb, rfl⟩ := List.mem_map.mp he
      obtain ⟨p, hp, b, hbn, hm⟩ := (mem_emittedFor_iff hem).mp hb
      apply plain_asAttribute
      rw [find_nsPrefix (mem_rendering hbn hm)]
      rcases mem_usedPrefixes_iff.mp hp with rfl | ⟨entry, he, hp⟩
      · cases hq : prefixOf name with
        | none => simp
        | some q => exact notDelimiter_of_prefixOf hn hq
      · exact notDelimiter_of_prefixOf (hor entry he) hp
    · exact plain_of_checkName (hor entry ((perm_orderedFor ho).subset he))
  | text _ ih =>
    obtain ⟨after, haf, rfl⟩ := contentNodes_leaf_eq_some rfl h
    have hwf := ih haf
    cases after <;> exact hwf
  | processingInstruction hc _ ih =>
    obtain ⟨after, haf, rfl⟩ := contentNodes_leaf_eq_some rfl h
    exact ⟨not_infix_instructionText hc, ih haf⟩

/-! ### The meaning of content -/

namespace Content

/-- The text in it, that of its elements included. -/
def text : Content → Text
  | .done lead => lead
  | .element lead _ _ inner rest => lead ++ inner.text ++ rest.text
  | .instruction lead _ rest => lead ++ rest.text

/-- The views of its elements, with the declarations that were written around it. -/
def views (rendered : Scope) : Content → List View
  | .done _ => []
  | .element _ name pairs inner rest =>
    .mk name (resolve name (scopeWithin pairs rendered))
        (fun key => if isDeclarationName key then none else attributeNamed pairs key) inner.text
        (inner.views (scopeWithin pairs rendered)) ::
      rest.views rendered
  | .instruction _ _ rest => rest.views rendered

end Content

theorem declaration?_asAttribute (binding : Binding) : declaration? binding.asAttribute = some binding := by
  obtain ⟨p, uri⟩ := binding
  unfold declaration? Binding.asAttribute
  cases p with
  | nil => rfl
  | cons c p => simp [Text.stripPrefix]

/-- The attributes that declare are those with the names that no accessor answers for. -/
theorem isSome_declaration? (en : RichAttribute) : (declaration? en).isSome = isDeclarationName en.name := by
  unfold declaration? isDeclarationName
  by_cases h : en.name = "xmlns".toList
  · rw [if_pos h, decide_eq_true (.inl h)]
    rfl
  · rw [if_neg h, Option.isSome_map]
    simp only [h, false_or, Bool.decide_eq_true]

theorem scopeWithin_pairs {emitted : List Binding}
    (h : o.Perm (splitAttributes a).2) :
    scopeWithin (emitted.map Binding.asAttribute ++ o) r = r.bindAll emitted := by
  have ho : o.filterMap declaration? = [] := by
    rw [filterMap_eq_nil_iff]
    intro entry he
    simpa using of_mem_filter (h.subset he)
  have hem : (emitted.map Binding.asAttribute).filterMap declaration? = emitted := by
    rw [filterMap_map]
    exact (filterMap_congr fun bnd _ => declaration?_asAttribute bnd).trans filterMap_some
  rw [scopeWithin, filterMap_append, ho, hem, append_nil]

theorem attributeNamed_eq_some_iff (h : (attributes.map RichAttribute.name).Nodup)
    {key v : Text} : attributeNamed attributes key = some v ↔ ⟨key, v⟩ ∈ attributes := by
  have hf : attributeNamed attributes key = (Lib.findKey RichAttribute.name key attributes).map RichAttribute.value := rfl
  simp only [hf, Option.map_eq_some_iff, Lib.findKey_eq_some_iff h]
  constructor
  · rintro ⟨entry, ⟨hm, rfl⟩, rfl⟩
    exact hm
  · exact fun hm => ⟨_, ⟨hm, rfl⟩, rfl⟩

/-- The order of the attributes and the declarations among them make no difference to the
value of an ordinary attribute. -/
theorem attributeNamed_pairs {em : List Binding}
    (hp : o.Perm (splitAttributes a).2) (hnd : (a.map RichAttribute.name).Nodup) {key : Text}
    (hk : isDeclarationName key = false) :
    attributeNamed (em.map Binding.asAttribute ++ o) key = attributeNamed a key := by
  have hs : attributeNamed (em.map Binding.asAttribute ++ o) key = attributeNamed o key := by
    have hn : (em.map Binding.asAttribute).find? (fun entry => entry.name = key) = none := by
      rw [List.find?_eq_none]
      intro entry he
      obtain ⟨bnd, -, rfl⟩ := mem_map.mp he
      have hd := isSome_declaration? bnd.asAttribute
      rw [declaration?_asAttribute] at hd
      simp only [decide_eq_true_eq]
      rintro rfl
      rw [hk] at hd
      cases hd
    rw [attributeNamed, List.find?_append, hn]
    rfl
  have hor : ((splitAttributes a).2.map RichAttribute.name).Nodup :=
    (filter_sublist.map _).nodup hnd
  have ho : (o.map RichAttribute.name).Nodup := (hp.map _).nodup_iff.mpr hor
  rw [hs]
  apply Option.ext
  intro value
  rw [attributeNamed_eq_some_iff ho, attributeNamed_eq_some_iff hnd, hp.mem_iff, splitAttributes,
    mem_filter]
  refine and_iff_left_of_imp fun _ => ?_
  have hd := isSome_declaration? ⟨key, value⟩
  simpa [hk] using hd

/-- No name of an element has the prefix `xml`. -/
def Content.XmlFree : Content → Prop
  | .done _ => True
  | .element _ name _ inner rest => prefixOf name ≠ some xmlPrefix ∧ inner.XmlFree ∧ rest.XmlFree
  | .instruction _ _ rest => rest.XmlFree

/-- The names of the elements are in the content. -/
theorem xmlFree_contentNodes {iS : Scope} {n : List RichNode}
    (h : contentNodes iS r n = some c) :
    c.XmlFree ↔ ∀ e ∈ visitNodes iS n, prefixOf e.element.name ≠ some xmlPrefix := by
  induction n using RichNode.forest_induction generalizing iS r c with
  | nil =>
    cases h
    simp [Content.XmlFree, visitNodes]
  | element name attributes children rest ih i =>
    obtain ⟨em, ordered, inn, after, -, -, hi, ha, rfl⟩ := contentNodes_element_eq_some h
    rw [visitNodes, RichNode.visit, forall_mem_append, forall_mem_cons, Content.XmlFree, ih hi,
      i ha]
    tauto
  | text text rest i =>
    obtain ⟨after, ha, rfl⟩ := contentNodes_leaf_eq_some rfl h
    have had : (after.addText text).XmlFree ↔ after.XmlFree := by cases after <;> rfl
    rw [visitNodes, RichNode.visit, append_nil, had, i ha]
  | processingInstruction text rest i =>
    obtain ⟨after, ha, rfl⟩ := contentNodes_leaf_eq_some rfl h
    rw [visitNodes, RichNode.visit, append_nil, Content.XmlFree, i ha]

/-- **Content has the text and the views of the nodes that it was made from**, unless a name
has the prefix `xml`. -/
theorem views_contentNodes {t : CharTables} {rendered : Scope} {nodes : List RichNode}
    (hno : WellFormed t nodes)
    (hx : ∀ e ∈ visitNodes i nodes, prefixOf e.element.name ≠ some xmlPrefix)
    (hr : i.Renders rendered) (h : contentNodes i rendered nodes = some c) :
    c.text = textContents nodes ∧ c.views rendered = viewNodes i nodes := by
  induction hno generalizing i rendered c with
  | nil =>
    cases h
    exact ⟨rfl, rfl⟩
  | @element name attributes children rest hn ha hnd _ _ ic ir =>
    obtain ⟨em, ordered, inn, after, hem, ho, hi, haf, rfl⟩ := contentNodes_element_eq_some h
    have hp := perm_orderedFor ho
    rw [visitNodes, RichNode.visit, forall_mem_append, forall_mem_cons] at hx
    obtain ⟨hxm, hm, hxmn⟩ := hx
    have hsc : Scope.Renders (scopeWithin attributes i) rendered :=
      ⟨hr.distinct, fun p hp => isSome_find_bindAll _ (hr.inScope p hp)⟩
    obtain ⟨ht, hv⟩ := ic hxmn (hsc.bindAll_emitted hem) hi
    obtain ⟨hre, hrs⟩ := ir hxm hr haf
    refine ⟨?_, ?_⟩
    · rw [Content.text, ht, hre]
      rfl
    · -- the prefix of the name means in the output what it means in scope
      have hns : resolve name (rendered.bindAll em) = resolve name (scopeWithin attributes i) := by
        refine namespace_rendered hsc hem (mem_usedPrefixes_iff.mpr (.inl rfl)) ?_
        intro heq
        cases hbd : prefixOf name with
        | none => simp [hbd, xmlPrefix] at heq
        | some p => exact hm (by simpa [hbd] using heq)
      have hat : (fun key => if isDeclarationName key then none
            else attributeNamed (em.map Binding.asAttribute ++ ordered) key) =
          fun key => if isDeclarationName key then none else attributeNamed attributes key := by
        funext key
        cases hk : isDeclarationName key with
        | true => rfl
        | false => exact attributeNamed_pairs hp hnd hk
      rw [Content.views, scopeWithin_pairs hp, hv, ht, hrs, hns, hat]
      rfl
  | text _ ih =>
    obtain ⟨after, haf, rfl⟩ := contentNodes_leaf_eq_some rfl h
    rw [visitNodes, RichNode.visit, append_nil] at hx
    obtain ⟨ht, hv⟩ := ih hx hr haf
    refine ⟨?_, ?_⟩
    · have ha : ∀ a, (after.addText a).text = a ++ after.text := by cases after <;> simp [Content.addText, Content.text]
      rw [ha, ht]
      rfl
    · refine Eq.trans ?_ hv
      cases after <;> rfl
  | processingInstruction _ _ ih =>
    obtain ⟨after, haf, rfl⟩ := contentNodes_leaf_eq_some rfl h
    rw [visitNodes, RichNode.visit, append_nil] at hx
    obtain ⟨ht, hv⟩ := ih hx hr haf
    refine ⟨?_, ?_⟩
    · rw [Content.text, ht]
      rfl
    · rw [Content.views, hv]
      rfl

/-! ### Elements with one canonical form -/

namespace Scoped

/-- The canonical form of an element with the declarations around it. -/
def canonical (e : Scoped) : Option ByteArray := canonicalize e.element e.inherited

/-- No element below has the prefix `xml`. -/
def XmlFree (e : Scoped) : Prop := ∀ below ∈ e.visit, prefixOf below.element.name ≠ some xmlPrefix

/-- The tree below is well formed. -/
def WellFormed (tables : CharTables) (e : Scoped) : Prop := Saml.WellFormed tables [e.element.node]

variable {e e2 : Scoped} {form : ByteArray}

theorem canonical_eq (e : Scoped) : e.canonical = (writeNodes e.inherited [] [e.element.node]).map octets := by
  rw [canonical, canonicalize, writeNodes, writeNodes]
  cases writeNode e.inherited [] e.element.node <;> simp

theorem exists_content (h : e.canonical = some form) :
    ∃ c, contentNodes e.inherited [] [e.element.node] = some c ∧ octets c.render = form := by
  rw [canonical_eq, writeNodes_eq_render, Option.map_map, Option.map_eq_some_iff] at h
  exact h

/-- **Elements with one canonical form have one view**, if no name has the prefix `xml`. -/
theorem view_eq_of_canonical {t t2 : CharTables} (h : e.WellFormed t) (h2 : e2.WellFormed t2)
    (hx : e.XmlFree) (hf : e.canonical = some form) (hf2 : e2.canonical = some form) : e.view = e2.view := by
  obtain ⟨c, hc, ho⟩ := exists_content hf
  obtain ⟨c2, hc2, ho2⟩ := exists_content hf2
  have hr : c.render ++ [] = c2.render ++ [] := by
    rw [append_nil, append_nil]
    exact octets_injective (ho.trans ho2.symm)
  obtain ⟨rfl, -⟩ := Content.render_inj (wf_contentNodes h hc) (wf_contentNodes h2 hc2) (.inl rfl) (.inl rfl)
    hr
  have hx2 : e2.XmlFree := (xmlFree_contentNodes hc2).mp ((xmlFree_contentNodes hc).mpr hx)
  have he : ∀ scope : Scope, scope.Renders [] := fun scope => ⟨nodup_nil, fun p hp => by cases hp⟩
  have hv := (views_contentNodes h hx (he _) hc).2
  have hv2 := (views_contentNodes h2 hx2 (he _) hc2).2
  have hon : viewNodes e.inherited [e.element.node] = [e.view] := rfl
  have hon2 : viewNodes e2.inherited [e2.element.node] = [e2.view] := rfl
  rw [hv, hon, hon2] at hv2
  exact head_eq_of_cons_eq hv2

end Scoped

end IronAuth.Saml
