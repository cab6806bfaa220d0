import IronAuth.Lib.Table
import IronAuth.Saml.Readers

/-!
# Exclusive canonicalization

What a signature is over: the element and its descendants written out again under fixed
rules. Two sets are carried down the tree. A prefix resolves against the declarations in
scope, those of the ancestors outside the signed element included; a declaration is written
where a name uses its prefix and no ancestor in the output has written it.

The only failure is a prefix that nothing in scope binds, and it has no data, so that a
canonical form is an `Option`.

## What is proved

* `find_bindAll_of_mem`, `find_bindAll_of_forall_ne`: what a prefix means after declarations.
* `find_rendered`: a prefix that an element uses means in the output what it means in scope,
  unless it is `xml`.
-/

namespace IronAuth.Saml

open Lib.Fallible Lib.Loops List

/-! ### Names -/

/-- `XML_PREFIX`. -/
def xmlPrefix : Text := "xml".toList

/-- `XML_NAMESPACE`. -/
def xmlNamespace : Text := "http://www.w3.org/XML/1998/namespace".toList

/-- `prefix_of`. -/
def prefixOf (name : Text) : Option Text := (Text.splitOnce (· == ':') name).map Prod.fst

/-- `local_name`. -/
def localName (name : Text) : Text := ((Text.splitOnce (· == ':') name).map Prod.snd).getD name

/-! ### Declarations -/

/-- `Binding`: a prefix, empty for the default namespace, and a URI, empty for an
undeclaration. -/
structure Binding where
  nsPrefix : Text
  uri : Text
  deriving DecidableEq

/-- Declarations, each overriding the earlier ones of its prefix. -/
abbrev Scope := List Binding

variable (scope : Scope)

/-- The declaration in scope for a prefix. -/
def Scope.find (p : Text) : Option Binding := scope.find? fun binding => binding.nsPrefix = p

/-- Drop the declaration of the same prefix, and push the new one. -/
def Scope.bind (binding : Binding) : Scope :=
  scope.filter (fun existing => existing.nsPrefix ≠ binding.nsPrefix) ++ [binding]

/-- Push several declarations in order. -/
def Scope.bindAll (declared : List Binding) : Scope := declared.foldl Scope.bind scope

/-- The declaration that an attribute is, if it is one. -/
def declaration? (entry : RichAttribute) : Option Binding :=
  if entry.name = "xmlns".toList then some ⟨[], entry.value⟩
  else (Text.stripPrefix "xmlns:".toList entry.name).map fun p => ⟨p, entry.value⟩

/-- `split_attributes`: the declarations, and the ordinary attributes. -/
def splitAttributes (attributes : List RichAttribute) : List Binding × List RichAttribute :=
  (attributes.filterMap declaration?, attributes.filter fun entry => (declaration? entry).isNone)

/-! ### Escapes -/

/-- One character of `write_text`. -/
def escapeText (c : Char) : Text :=
  if c = '&' then "&amp;".toList
  else if c = '<' then "&lt;".toList
  else if c = '>' then "&gt;".toList
  else if c = '\r' then "&#xD;".toList
  else [c]

/-- `write_text`. -/
def writeText (text : Text) : Text := text.flatMap escapeText

/-- One character of `write_attribute_value`. -/
def escapeAttribute (c : Char) : Text :=
  if c = '&' then "&amp;".toList
  else if c = '<' then "&lt;".toList
  else if c = '"' then "&quot;".toList
  else if c = '\t' then "&#x9;".toList
  else if c = '\n' then "&#xA;".toList
  else if c = '\r' then "&#xD;".toList
  else [c]

/-- `write_attribute_value`. -/
def writeAttributeValue (value : Text) : Text := value.flatMap escapeAttribute

/-- `char::is_ascii_whitespace`. -/
def isAsciiWhitespace (c : Char) : Bool := c = ' ' || c = '\t' || c = '\n' || c = '\x0c' || c = '\r'

/-- What `write_processing_instruction` writes between the delimiters. -/
def instructionText (content : Text) : Text :=
  match Text.splitOnce isAsciiWhitespace content with
  | some (target, rest) =>
    let rest := rest.dropWhile isAsciiWhitespace
    if rest = [] then target else target ++ ' ' :: rest
  | none => content

/-- `write_processing_instruction`. -/
def writeProcessingInstruction (content : Text) : Text := '<' :: '?' :: instructionText content ++ ['?', '>']

/-! ### Elements -/

/-- The prefixes that a tag uses visibly: the element's own, and those of its attributes. -/
def usedPrefixes (name : Text) (attributes : List RichAttribute) : List Text :=
  attributes.foldl
    (fun used entry =>
      match prefixOf entry.name with
      | some p => if p ∈ used then used else used ++ [p]
      | none => used)
    [(prefixOf name).getD []]

/-- The declaration to write for a used prefix: none, or one, or the prefix is unbound. -/
def rendering (rendered : Scope) (p : Text) : Option (List Binding) :=
  if p = xmlPrefix then some []
  else
    match scope.find p with
    | some binding =>
      -- an empty default declaration is written only to undeclare one
      if binding.nsPrefix = [] ∧ binding.uri = [] ∧ ∀ default ∈ rendered.find [], default.uri = [] then some []
      else if binding ∈ rendered then some []
      else some [binding]
    | none => if p = [] then some [] else none

/-- The declarations that a tag writes, in the order of their prefixes. -/
def emittedFor (rendered : Scope) (used : List Text) : Option (List Binding) :=
  (used.mapM (rendering scope rendered)).map fun emitted =>
    emitted.flatten.insertionSort fun left right => left.nsPrefix ≤ right.nsPrefix

/-- The namespace by which an attribute is sorted. -/
def attributeUri (entry : RichAttribute) : Option Text :=
  match prefixOf entry.name with
  | none => some []
  | some p => if p = xmlPrefix then some xmlNamespace else (scope.find p).map Binding.uri

/-- The ordinary attributes in the order of namespace and local name. -/
def orderedFor (attributes : List RichAttribute) : Option (List RichAttribute) :=
  (attributes.mapM fun entry => (attributeUri scope entry).map fun uri => (uri, localName entry.name, entry)).map
    fun keyed =>
      (keyed.insertionSort fun left right =>
        left.1 < right.1 ∨ left.1 = right.1 ∧ left.2.1 ≤ right.2.1).map fun key => key.2.2

/-- An attribute in the output. -/
def writeAttribute (entry : RichAttribute) : Text :=
  ' ' :: entry.name ++ '=' :: '"' :: writeAttributeValue entry.value ++ ['"']

/-- A declaration in the output. -/
def writeBinding (binding : Binding) : Text :=
  if binding.nsPrefix = [] then ' ' :: "xmlns=\"".toList ++ writeAttributeValue binding.uri ++ ['"']
  else ' ' :: "xmlns:".toList ++ binding.nsPrefix ++ "=\"".toList ++ writeAttributeValue binding.uri ++ ['"']

mutual

/-- `write_element`, and the other kinds of node. -/
def writeNode (inScope rendered : Scope) : RichNode → Option Text
  | .element name attributes children => do
    let (declared, ordinary) := splitAttributes attributes
    let scope := inScope.bindAll declared
    let emitted ← emittedFor scope rendered (usedPrefixes name ordinary)
    let ordered ← orderedFor scope ordinary
    let inner ← writeNodes scope (rendered.bindAll emitted) children
    return '<' :: name ++ emitted.flatMap writeBinding ++ ordered.flatMap writeAttribute ++ '>' :: inner ++
      '<' :: '/' :: name ++ ['>']
  | .text content => some (writeText content)
  | .processingInstruction content => some (writeProcessingInstruction content)

/-- The children of an element, one after another. -/
def writeNodes (inScope rendered : Scope) : List RichNode → Option Text
  | [] => some []
  | node :: rest => do
    let first ← writeNode inScope rendered node
    let others ← writeNodes inScope rendered rest
    return first ++ others

end

/-- The UTF-8 of a text. -/
def octets (text : Text) : ByteArray := (String.ofList text).toByteArray

/-- `canonicalize`. -/
def canonicalize (element : RichElement) (inherited : Scope) : Option ByteArray :=
  (writeNode inherited [] element.node).map octets

theorem octets_injective : Function.Injective octets := by
  intro text text2 h
  have hs : String.ofList text = String.ofList text2 := String.toByteArray_inj.mp h
  simpa using congrArg String.toList hs

/-! ### What a prefix means -/

section scopes

variable {scope : Scope} {binding : Binding} {p : Text}

theorem find_nsPrefix (h : scope.find p = some binding) : binding.nsPrefix = p := by
  simpa using List.find?_some h

theorem find_bind_self (scope : Scope) (binding : Binding) : (scope.bind binding).find binding.nsPrefix = some binding := by
  have hn : (scope.filter fun old => old.nsPrefix ≠ binding.nsPrefix).find?
      (fun old => old.nsPrefix = binding.nsPrefix) = none := by
    rw [List.find?_eq_none]
    intro old hm
    simpa using of_mem_filter hm
  unfold Scope.bind Scope.find
  rw [List.find?_append, hn]
  simp

theorem find_bind_of_ne (h : binding.nsPrefix ≠ p) : (scope.bind binding).find p = scope.find p := by
  unfold Scope.bind Scope.find
  rw [List.find?_append, List.find?_filter, List.find?_cons_of_neg (by simpa using h), List.find?_nil, Option.or_none]
  congr 1
  funext existing
  by_cases hp : existing.nsPrefix = p
  · simp [hp, Ne.symm h]
  · simp [hp]

variable {d : List Binding}

/-- A prefix that the new declarations do not bind keeps its meaning. -/
theorem find_bindAll_of_forall_ne (h : ∀ b ∈ d, b.nsPrefix ≠ p) :
    (scope.bindAll d).find p = scope.find p := by
  induction d generalizing scope with
  | nil => rfl
  | cons first rest ih =>
    rw [forall_mem_cons] at h
    exact (ih h.2).trans (find_bind_of_ne h.1)

/-- A prefix that the new declarations bind, all of them alike, gets its meaning from them. -/
theorem find_bindAll_of_mem (hm : binding ∈ d)
    (h : ∀ b ∈ d, b.nsPrefix = binding.nsPrefix → b = binding) :
    (scope.bindAll d).find binding.nsPrefix = some binding := by
  induction d generalizing scope with
  | nil => cases hm
  | cons first rest ih =>
    rw [forall_mem_cons] at h
    by_cases hr : binding ∈ rest
    · exact ih hr h.2
    · -- nothing after the first declaration binds the prefix again
      have hf : binding = first := (mem_cons.mp hm).resolve_right hr
      subst hf
      have hne : ∀ b ∈ rest, b.nsPrefix ≠ binding.nsPrefix := fun b hb heq => hr (h.2 b hb heq ▸ hb)
      exact (find_bindAll_of_forall_ne hne).trans (find_bind_self scope binding)

/-- What is bound stays bound. -/
theorem isSome_find_bindAll (d : List Binding) (h : (scope.find p).isSome) :
    ((scope.bindAll d).find p).isSome := by
  induction d generalizing scope with
  | nil => exact h
  | cons first rest ih =>
    apply ih
    by_cases hp : first.nsPrefix = p
    · rw [← hp, find_bind_self]
      rfl
    · rw [find_bind_of_ne hp]
      exact h

/-- Each prefix is declared once. -/
def Scope.Distinct (scope : Scope) : Prop := (scope.map Binding.nsPrefix).Nodup

theorem Scope.Distinct.bind (h : scope.Distinct) (binding : Binding) : (scope.bind binding).Distinct := by
  unfold Scope.Distinct Scope.bind
  rw [map_append, nodup_append]
  refine ⟨(filter_sublist.map _).nodup h, by simp, ?_⟩
  intro q hq q2 hq2 heq
  obtain ⟨old, he, rfl⟩ := mem_map.mp hq
  rw [map_singleton, mem_singleton] at hq2
  have hne : old.nsPrefix ≠ binding.nsPrefix := by simpa using of_mem_filter he
  exact hne (heq.trans hq2)

theorem Scope.Distinct.bindAll (h : scope.Distinct) (d : List Binding) : (scope.bindAll d).Distinct := by
  induction d generalizing scope with
  | nil => exact h
  | cons first rest ih => exact ih (h.bind first)

end scopes

/-! ### What is used -/

/-- The prefixes in use are those of the element and of its attributes. -/
theorem mem_usedPrefixes_iff {n : Text} {a : List RichAttribute} {p : Text} :
    p ∈ usedPrefixes n a ↔
      p = (prefixOf n).getD [] ∨ ∃ entry ∈ a, prefixOf entry.name = some p := by
  rw [usedPrefixes, ← mem_singleton]
  refine Lib.Loops.mem_foldl_iff (S := List Text) (R := fun entry p => prefixOf entry.name = some p) (fun used entry p => ?_) a _ p
  cases prefixOf entry.name with
  | none => simp
  | some q => by_cases hq : q ∈ used <;> grind

/-! ### What is written -/

section rendering

variable {scope rendered : Scope} {used : List Text} {emitted : List Binding} {p : Text}

variable {binding : Binding}

theorem mem_rendering {b : List Binding} (h : rendering scope rendered p = some b)
    (hm : binding ∈ b) : scope.find p = some binding := by
  unfold rendering at h
  by_cases hx : p = xmlPrefix
  · rw [if_pos hx] at h
    cases h; cases hm
  cases hf : scope.find p with
  | none =>
    simp only [hf] at h
    split_ifs at h
    cases h; cases hm
  | some found =>
    simp only [hf] at h
    split_ifs at h <;> cases h
    · cases hm
    · cases hm
    · rw [mem_singleton.mp hm]

section

variable (h : emittedFor scope rendered used = some emitted)

include h

theorem mem_emittedFor_iff :
    binding ∈ emitted ↔ ∃ p ∈ used, ∃ bindings, rendering scope rendered p = some bindings ∧ binding ∈ bindings := by
  simp only [emittedFor, Option.map_eq_some_iff] at h
  obtain ⟨bindings, hb, rfl⟩ := h
  have ha := mapM_eq_some_iff.mp hb
  rw [mem_insertionSort, mem_flatten]
  constructor
  · rintro ⟨one, ho, hm⟩
    obtain ⟨p, hp, hr⟩ := exists_of_forall₂_right ha ho
    exact ⟨p, hp, one, hr, hm⟩
  · rintro ⟨p, hp, one, hr, hm⟩
    obtain ⟨one2, ho2, hr2⟩ := exists_of_forall₂_left ha hp
    cases hr.symm.trans hr2
    exact ⟨one, ho2, hm⟩

theorem isSome_rendering (hp : p ∈ used) :
    ∃ bindings, rendering scope rendered p = some bindings := by
  simp only [emittedFor, Option.map_eq_some_iff] at h
  obtain ⟨bindings, hb, rfl⟩ := h
  obtain ⟨one, -, hr⟩ := exists_of_forall₂_left (mapM_eq_some_iff.mp hb) hp
  exact ⟨one, hr⟩

/-- What was written for an element binds prefixes as they are bound in scope. -/
theorem find_of_mem_emittedFor
    (hm : binding ∈ emitted) : scope.find binding.nsPrefix = some binding := by
  obtain ⟨q, -, b, hb, hm⟩ := (mem_emittedFor_iff h).mp hm
  have hf := mem_rendering hb hm
  rw [find_nsPrefix hf]
  exact hf

end

/-- The namespace that a declaration gives: an empty URI gives none. -/
def Scope.namespace (scope : Scope) (p : Text) : Option Text :=
  ((scope.find p).map Binding.uri).filter fun uri => uri ≠ []

/-- The output so far declares each prefix once, and only prefixes that are in scope. -/
structure Scope.Renders (scope rendered : Scope) : Prop where
  distinct : rendered.Distinct
  inScope : ∀ p, (rendered.find p).isSome → (scope.find p).isSome

theorem Scope.Renders.bindAll_emitted (h : scope.Renders rendered) (hem : emittedFor scope rendered used = some emitted) :
    scope.Renders (rendered.bindAll emitted) := by
  refine ⟨h.distinct.bindAll emitted, fun p hp => ?_⟩
  by_cases hbd : ∃ b ∈ emitted, b.nsPrefix = p
  · obtain ⟨b, hb, rfl⟩ := hbd
    rw [find_of_mem_emittedFor hem hb]
    rfl
  · simp only [not_exists, not_and] at hbd
    rw [find_bindAll_of_forall_ne hbd] at hp
    exact h.inScope p hp

/-- **A prefix that an element uses means in the output what it means in scope**, unless it is
`xml`, for which nothing is ever written. -/
theorem namespace_rendered (h : scope.Renders rendered) (hem : emittedFor scope rendered used = some emitted)
    (hp : p ∈ used) (hx : p ≠ xmlPrefix) : Scope.namespace (rendered.bindAll emitted) p = scope.namespace p := by
  obtain ⟨bi, hr⟩ := isSome_rendering hem hp
  -- every declaration written for this prefix is the one in scope
  have hw : ∀ b ∈ emitted, b.nsPrefix = p → scope.find p = some b := by
    rintro b hb rfl
    exact find_of_mem_emittedFor hem hb
  have hu := hr
  unfold rendering at hu
  rw [if_neg hx] at hu
  cases hf : scope.find p with
  | none =>
    -- an unprefixed name with no default namespace: the output cannot have one either
    have hn : rendered.find p = none := by
      cases hrn : rendered.find p with
      | none => rfl
      | some b =>
        have hs := h.inScope p (by rw [hrn]; rfl)
        rw [hf] at hs
        cases hs
    have hne : ∀ b ∈ emitted, b.nsPrefix ≠ p := by
      intro b hb heq
      have hbd := hw b hb heq
      rw [hf] at hbd
      cases hbd
    unfold Scope.namespace
    rw [find_bindAll_of_forall_ne hne, hn, hf]
  | some binding =>
    have hfd := find_nsPrefix hf
    simp only [hf] at hu
    by_cases hm : binding ∈ emitted
    · have hl : (rendered.bindAll emitted).find binding.nsPrefix = some binding := by
        apply find_bindAll_of_mem hm
        intro b hb heq
        have hbd := hw b hb (heq.trans hfd)
        rw [hf] at hbd
        exact (Option.some.inj hbd).symm
      unfold Scope.namespace
      rw [← hfd, hl, hfd, hf]
    · have hne : ∀ b ∈ emitted, b.nsPrefix ≠ p := by
        intro b hb heq
        have hbd := hw b hb heq
        rw [hf] at hbd
        cases hbd
        exact hm hb
      unfold Scope.namespace
      rw [find_bindAll_of_forall_ne hne, hf]
      split_ifs at hu with he hrn
      · -- an empty default declaration that has nothing to undeclare
        obtain ⟨hp0, hur, hd⟩ := he
        rw [← hfd, hp0]
        cases hrn : rendered.find [] with
        | none => simp [hur, Option.filter]
        | some default => simp [hur, hd default hrn, Option.filter]
      · rw [← hfd]
        congr 2
        exact (Lib.findKey_eq_some_iff h.distinct).mpr ⟨hrn, rfl⟩
      · exact absurd ((mem_emittedFor_iff hem).mpr ⟨p, hp, bi, hr, by
          rw [← Option.some.inj hu]; exact mem_singleton.mpr rfl⟩) hm

end rendering

end IronAuth.Saml
