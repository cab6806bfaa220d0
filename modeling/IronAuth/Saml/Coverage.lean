import IronAuth.Saml.Conditions
import IronAuth.Saml.Produced

/-!
# What a signature covers

A signature is over the canonical form of an element. It covers what a consumer reads only if
elements with one canonical form are read alike.

That is true but for one prefix. The canonicalizer writes no declaration for `xml`, which is
bound by definition. The resolver does not know this: it looks `xml` up among the declarations
in scope like any other prefix, and a document may declare it. So an element with the prefix
`xml` has its namespace outside the signature, and the same octets are read in two ways.

To see that nothing else goes wrong in this case, every document is recast: each of its tags
declares `xml` anew, with a URI that no element of the document is in. The canonical forms
stay as they are, and each element with the prefix `xml` is found under the new URI.
-/

namespace IronAuth.Saml

open Lib.Fallible List

/-! ### Recasting -/

/-- The attribute that declares the prefix `xml`. -/
def xmlDeclaration : Text := "xmlns:xml".toList

variable (uri : Text)

/-- Declare `xml` anew. -/
def recastAttributes (attributes : List RichAttribute) : List RichAttribute :=
  ⟨xmlDeclaration, uri⟩ :: attributes.filter fun entry => entry.name ≠ xmlDeclaration

mutual

/-- Declare `xml` anew on each element of a node. -/
def RichNode.recast (uri : Text) : RichNode → RichNode
  | .element name attributes children => .element name (recastAttributes uri attributes) (recastNodes uri children)
  | .text content => .text content
  | .processingInstruction content => .processingInstruction content

/-- Declare `xml` anew on each element of a list of nodes. -/
def recastNodes (uri : Text) : List RichNode → List RichNode
  | [] => []
  | node :: rest => node.recast uri :: recastNodes uri rest

end

/-- Declare `xml` anew on each element of an element. -/
def RichElement.recast (element : RichElement) : RichElement :=
  ⟨element.name, recastAttributes uri element.attributes, recastNodes uri element.children⟩

@[simp]
theorem recastNodes_append (f back : List RichNode) :
    recastNodes uri (f ++ back) = recastNodes uri f ++ recastNodes uri back := by
  induction f with
  | nil => rfl
  | cons node f ih => simp [recastNodes, ih]

/-- Not an attribute that declares the prefix `xml`. -/
def otherAttribute : Option (Text × Text) → Bool
  | some pair => pair.1 ≠ xmlDeclaration
  | none => true

/-- Declare `xml` anew in a tag. -/
def StartTag.recast (tag : StartTag) : StartTag where
  name := tag.name
  attributes := some (xmlDeclaration, uri) :: tag.attributes.filter otherAttribute

/-- Declare `xml` anew in each tag of a document. -/
def Event.recast : Event → Event
  | .start tag => .start (tag.recast uri)
  | .empty tag => .empty (tag.recast uri)
  | event => event

/-- Room for one more attribute. -/
def Limits.roomier (limits : Limits) : Limits :=
  { limits with maxAttributes := limits.maxAttributes + 1, maxNameBytes := max limits.maxNameBytes (Text.len xmlDeclaration) }

/-- A URI of letters only, one of each length. -/
def letters (n : ℕ) : Text := List.replicate n 'a'

/-- The name of a namespace that stands in a tag as it is. -/
structure Verbatim (uri : Text) : Prop where
  ne_nil : uri ≠ []
  check : checkAttributeValue uri = .ok ()
  decode : decodeAttribute uri = .ok uri

theorem verbatim_letters (n : ℕ) : Verbatim (letters (n + 1)) := by
  have hr : ∀ n, checkReferences none (letters n) = .ok () := fun n => by
    induction n with
    | zero => rfl
    | succ n ih => exact ih
  have hd : ∀ n, decodeReferences none (letters n) = .ok (letters n) := fun n => by
    induction n with
    | zero => rfl
    | succ n ih =>
      show decodeReferences none ('a' :: letters n) = _
      rw [decodeReferences, if_neg (by decide), ih]
      rfl
  refine ⟨cons_ne_nil _ _, checkAttributeValue_eq_ok_iff.mpr ⟨?_, ?_, hr _⟩, hd _⟩
  · intro h
    exact absurd (eq_of_mem_replicate h) (by decide)
  · rw [checkLiteralCharacters, refuseIf_eq_ok_iff, any_eq_true]
    rintro ⟨c, hc, hf⟩
    rw [eq_of_mem_replicate hc] at hf
    exact absurd hf (by decide)

/-! ### Recast documents are accepted -/

section reader

variable {tables : CharTables} {limits : Limits} {uri}

theorem richAttributes_recast {k out : List RichAttribute} (k2 : List RichAttribute)
    {a : List (Option (Text × Text))} (h : richAttributes tables limits k a = .ok out)
    (hk : k2.length ≤ k.length + 1) :
    ∃ new, out = k ++ new ∧ richAttributes tables limits.roomier k2 (a.filter otherAttribute) =
      .ok (k2 ++ new.filter fun entry => entry.name ≠ xmlDeclaration) := by
  induction a generalizing k k2 with
  | nil =>
    cases h
    exact ⟨[], by simp, by simp [richAttributes]⟩
  | cons entry rest ih =>
    cases entry with
    | none => cases h
    | some entry =>
      obtain ⟨key, value⟩ := entry
      simp only [richAttributes, bind_eq_ok_iff] at h
      obtain ⟨_, hc, _, hl, _, hke, _, hv, d, hd, h⟩ := h
      rw [refuseIf_eq_ok_iff] at hc hl
      by_cases hx : key = xmlDeclaration
      · obtain ⟨new, rfl, hn⟩ := ih k2 h (by simp; omega)
        refine ⟨⟨key, d⟩ :: new, by simp, ?_⟩
        simpa [hx, otherAttribute] using hn
      · obtain ⟨new, rfl, hn⟩ := ih (k2 ++ [⟨key, d⟩]) h (by simp; omega)
        refine ⟨⟨key, d⟩ :: new, by simp, ?_⟩
        have hc2 : ¬ limits.roomier.maxAttributes ≤ k2.length := by
          simp only [Limits.roomier]
          omega
        have hl2 : ¬ limits.roomier.maxNameBytes < Text.len key := by
          simp only [Limits.roomier]
          omega
        have ho : otherAttribute (some (key, value)) = true := by simpa [otherAttribute] using hx
        rw [filter_cons_of_pos ho, filter_cons_of_pos (by simpa using hx)]
        simp only [richAttributes, refuseIf_neg hc2, refuseIf_neg hl2, hke, hv, hd, ok_bind, hn,
          append_assoc, singleton_append]

theorem richElement_recast (hu : Verbatim uri) {tag : StartTag} {el : RichElement} (h : richElement tables limits tag = .ok el) :
    richElement tables limits.roomier (tag.recast uri) = .ok (el.recast uri) := by
  simp only [richElement, bind_eq_ok_iff] at h
  obtain ⟨_, hl, _, hn, attributes, ha, h⟩ := h
  cases h
  rw [refuseIf_eq_ok_iff] at hl
  obtain ⟨new, hne, hr⟩ := richAttributes_recast [⟨xmlDeclaration, uri⟩] ha (by simp)
  subst hne
  have hl2 : ¬ limits.roomier.maxNameBytes < Text.len tag.name := by
    simp only [Limits.roomier]
    omega
  have hc : ¬ limits.roomier.maxAttributes ≤ ([] : List RichAttribute).length := by simp [Limits.roomier]
  have hx : ¬ limits.roomier.maxNameBytes < Text.len xmlDeclaration := by simp [Limits.roomier]
  have hal : richAttributes tables limits.roomier [] (tag.recast uri).attributes =
      .ok (recastAttributes uri attributes) := by
    simp only [StartTag.recast, richAttributes, bind_eq_ok_iff]
    exact ⟨(), refuseIf_neg hc, (), refuseIf_neg hx, (), rfl, (), hu.check, uri, hu.decode, hr⟩
  simp only [richElement, bind_eq_ok_iff]
  exact ⟨(), refuseIf_neg hl2, (), hn, _, hal, rfl⟩

/-! ### The loop -/

/-- A state of `build` on the recast document. -/
def BuildState.recast (uri : Text) (state : BuildState) : BuildState :=
  { state with stack := state.stack.map (RichElement.recast uri), root := state.root.map (RichElement.recast uri) }

theorem flushText_recast (uri : Text) (state : BuildState) :
    (state.recast uri).flushText = state.flushText.recast uri := by
  obtain ⟨stack, root, elements, seenAnything, pendingText⟩ := state
  unfold BuildState.flushText BuildState.recast
  by_cases hpd : pendingText = []
  · simp [hpd]
  · cases stack with
    | nil => simp [hpd]
    | cons top b => simp [hpd, RichElement.recast, recastNodes, RichNode.recast]

theorem close_recast (uri : Text) (state : BuildState) (done : RichElement) :
    (state.recast uri).close (done.recast uri) = BuildState.recast uri <$> state.close done := by
  unfold BuildState.close
  cases hs : state.stack with
  | nil =>
    cases hr : state.root with
    | none | some => simp [BuildState.recast, hs, hr]
  | cons p b =>
    simp [BuildState.recast, hs, RichElement.recast, RichElement.node, recastNodes, RichNode.recast]

variable {state next : BuildState}

theorem length_stack_recast (uri : Text) (state : BuildState) : (state.recast uri).stack.length = state.stack.length := by
  simp [BuildState.recast]

/-- One event of the recast document. -/
theorem buildEvent_recast (hu : Verbatim uri) {ev : Event} (h : buildEvent tables limits state ev = .ok next) :
    buildEvent tables limits.roomier (state.recast uri) (ev.recast uri) =
      .ok (next.recast uri) := by
  cases ev with
  | start tag =>
    simp only [buildEvent, bind_eq_ok_iff] at h
    obtain ⟨_, hc, _, hd, element, he, h⟩ := h
    cases h
    simp only [buildEvent, Event.recast, flushText_recast, length_stack_recast, bind_eq_ok_iff]
    exact ⟨(), hc, (), hd, _, richElement_recast hu he, rfl⟩
  | empty tag =>
    simp only [buildEvent, bind_eq_ok_iff] at h
    obtain ⟨_, hc, _, hd, leaf, hl, h⟩ := h
    simp only [buildEvent, Event.recast, flushText_recast, length_stack_recast, bind_eq_ok_iff]
    refine ⟨(), hc, (), hd, _, richElement_recast hu hl, ?_⟩
    have hcl := close_recast uri { state.flushText with elements := state.flushText.elements + 1 } leaf
    rw [h] at hcl
    exact hcl
  | endTag =>
    simp only [buildEvent] at h
    simp only [buildEvent, Event.recast, flushText_recast]
    generalize state.flushText = state at h
    obtain ⟨stack, root, elements, seenAnything, pendingText⟩ := state
    cases stack with
    | nil => cases h
    | cons done b =>
      have hcl := close_recast uri ⟨b, root, elements, seenAnything, pendingText⟩ done
      simp only at h
      rw [h] at hcl
      exact hcl
  | text | cData =>
    obtain ⟨stack, root, elements, seenAnything, pendingText⟩ := state
    cases h
    cases stack <;> rfl
  | comment | decl | docType =>
    cases h
    rfl
  | pi c =>
    simp only [buildEvent] at h
    simp only [buildEvent, Event.recast, flushText_recast]
    cases hs : state.stack with
    | nil =>
      rw [hs] at h
      cases h
      simp [BuildState.recast, hs]
    | cons top b =>
      rw [hs] at h
      simp only [BuildState.recast, hs, map_cons]
      generalize state.flushText = state at h
      obtain ⟨stack, root, elements, seenAnything, pendingText⟩ := state
      cases stack with
      | nil =>
        cases h
        rfl
      | cons top b =>
        cases h
        simp [RichElement.recast, recastNodes, RichNode.recast]
  | generalRef name =>
    obtain ⟨stack, root, elements, seenAnything, pendingText⟩ := state
    cases stack with
    | nil =>
      cases h
      rfl
    | cons top b =>
      simp only [buildEvent, cons_ne_nil, if_false, bind_eq_ok_iff] at h
      obtain ⟨res, hr, h⟩ := h
      cases h
      simp only [buildEvent, Event.recast, BuildState.recast, map_cons, cons_ne_nil, if_false, bind_eq_ok_iff]
      exact ⟨res, hr, rfl⟩

variable {t : List Token}

/-- **A document that is accepted is accepted when it is recast**, with room for one more
attribute. -/
theorem buildTokens_recast (hu : Verbatim uri) {r : RichElement} (h : buildTokens tables limits t = .ok r) :
    buildTokens tables limits.roomier (t.map (Option.map (Event.recast uri))) =
      .ok (r.recast uri) := by
  obtain ⟨last, hru, hr⟩ := bind_eq_ok_iff.mp h
  have hre : (t.map (Option.map (Event.recast uri))).foldlM (buildStep tables limits.roomier)
      (BuildState.recast uri ⟨[], none, 0, false, []⟩) = .ok (last.recast uri) := by
    refine foldlM_ok_of_step ?_ hru
    intro state token next hn
    cases token with
    | none => cases hn
    | some ev =>
      simp only [buildStep, bind_eq_ok_iff] at hn
      obtain ⟨_, hc, after, ha, hn⟩ := hn
      cases hn
      have hi : (state.recast uri).root.isSome = state.root.isSome := by simp [BuildState.recast]
      have hev : checkDocumentEvent (ev.recast uri) = checkDocumentEvent ev := by
        cases ev <;> rfl
      simp only [buildStep, Option.map_some, hev, length_stack_recast, hi, bind_eq_ok_iff]
      exact ⟨(), hc, _, buildEvent_recast hu ha, rfl⟩
  refine bind_eq_ok_iff.mpr ⟨_, hre, ?_⟩
  cases hl : last.root with
  | none =>
    rw [hl] at hr
    cases hr
  | some found =>
    rw [hl] at hr
    cases hr
    simp [BuildState.recast, hl]

theorem tokenized_recast (h : Tokenized t) :
    Tokenized (t.map (Option.map (Event.recast uri))) := by
  have ht : ∀ tag : StartTag, tag.Unrepeated → (tag.recast uri).Unrepeated := by
    intro tag ht
    show (((xmlDeclaration, uri) :: (tag.attributes.filter otherAttribute).filterMap id).map Prod.fst).Nodup
    rw [map_cons, nodup_cons]
    refine ⟨?_, ((filter_sublist.filterMap id).map _).nodup ht⟩
    intro hm
    obtain ⟨pair, hp, hn⟩ := mem_map.mp hm
    obtain ⟨entry, he, heq⟩ := mem_filterMap.mp hp
    cases heq
    have ho := of_mem_filter he
    exact absurd hn (by simpa [otherAttribute] using ho)
  intro ev hev
  obtain ⟨token, hto, heq⟩ := mem_map.mp hev
  cases token with
  | none => cases heq
  | some o =>
    cases heq
    have hg := h o hto
    cases o with
    | start tag | empty tag => exact ht tag hg
    | _ => exact hg

end reader

/-! ### Recasting changes no canonical form -/

/-- The scopes agree on every prefix but `xml`. -/
def Scope.Agrees (scope scope2 : Scope) : Prop := ∀ p, p ≠ xmlPrefix → scope2.find p = scope.find p

theorem declaration?_xml (v : Text) : declaration? ⟨xmlDeclaration, v⟩ = some ⟨xmlPrefix, v⟩ := rfl

/-- Only one attribute declares the prefix `xml`. -/
theorem nsPrefix_eq_xml_iff {en : RichAttribute} {bnd : Binding} (h : declaration? en = some bnd) :
    bnd.nsPrefix = xmlPrefix ↔ en.name = xmlDeclaration := by
  obtain ⟨name, value⟩ := en
  constructor
  · intro hx
    unfold declaration? at h
    split_ifs at h with hd
    · cases h
      cases hx
    · obtain ⟨p, hp, rfl⟩ := Option.map_eq_some_iff.mp h
      rw [stripPrefix_eq_some_iff] at hp
      rw [hp, show p = xmlPrefix from hx]
      rfl
  · rintro rfl
    cases h
    rfl

/-- The declarations of a recast element. -/
theorem filterMap_recastAttributes (a : List RichAttribute) :
    (recastAttributes uri a).filterMap declaration? =
      ⟨xmlPrefix, uri⟩ :: (a.filterMap declaration?).filter fun bnd => bnd.nsPrefix ≠ xmlPrefix := by
  have ho : (a.filter fun entry => entry.name ≠ xmlDeclaration).filterMap declaration? =
      (a.filterMap declaration?).filter fun bnd => bnd.nsPrefix ≠ xmlPrefix := by
    rw [filterMap_filter, filter_filterMap]
    refine filterMap_congr fun entry _ => ?_
    cases hd : declaration? entry with
    | none => simp
    | some bnd => simp [Option.filter, nsPrefix_eq_xml_iff hd]
  rw [recastAttributes, filterMap_cons_some (declaration?_xml uri), ho]

/-- The ordinary attributes of a recast element are the same. -/
theorem splitAttributes_recastAttributes (a : List RichAttribute) :
    (splitAttributes (recastAttributes uri a)).2 = (splitAttributes a).2 := by
  show (recastAttributes uri a).filter (fun entry => (declaration? entry).isNone) = _
  rw [recastAttributes, filter_cons_of_neg (by rw [declaration?_xml]; simp), filter_filter]
  refine filter_congr fun entry _ => ?_
  cases hd : (declaration? entry).isNone with
  | false => simp
  | true =>
    have hne : entry.name ≠ xmlDeclaration := by
      rintro heq
      obtain ⟨name, value⟩ := entry
      obtain rfl : name = xmlDeclaration := heq
      cases hd
    simpa using hne

variable {s s2 : Scope}

theorem Scope.Agrees.bindAll_filter (h : s.Agrees s2) (d : List Binding) :
    Scope.Agrees (s.bindAll d)
      (s2.bindAll (d.filter fun bnd => bnd.nsPrefix ≠ xmlPrefix)) := by
  induction d generalizing s s2 with
  | nil => exact h
  | cons bnd d ih =>
    by_cases hx : bnd.nsPrefix = xmlPrefix
    · rw [filter_cons_of_neg (by simpa using hx)]
      refine ih fun p hp => ?_
      rw [find_bind_of_ne (by rw [hx]; exact hp.symm)]
      exact h p hp
    · rw [filter_cons_of_pos (by simpa using hx)]
      refine ih fun p hp => ?_
      by_cases hbd : bnd.nsPrefix = p
      · rw [← hbd, find_bind_self, find_bind_self]
      · rw [find_bind_of_ne hbd, find_bind_of_ne hbd]
        exact h p hp

theorem Scope.Agrees.recast (h : s.Agrees s2) (uri : Text)
    (a : List RichAttribute) :
    Scope.Agrees (scopeWithin a s) (scopeWithin (recastAttributes uri a) s2) := by
  unfold scopeWithin
  rw [filterMap_recastAttributes]
  refine Scope.Agrees.bindAll_filter (fun p hp => ?_) _
  rw [find_bind_of_ne hp.symm]
  exact h p hp

theorem emittedFor_congr (h : s.Agrees s2) (rendered : Scope) (used : List Text) :
    emittedFor s2 rendered used = emittedFor s rendered used := by
  have hr : rendering s2 rendered = rendering s rendered := by
    funext p
    unfold rendering
    by_cases hp : p = xmlPrefix
    · rw [if_pos hp, if_pos hp]
    · rw [if_neg hp, if_neg hp, h p hp]
  rw [emittedFor, hr]
  rfl

theorem orderedFor_congr {scope : Scope} (h : scope.Agrees s2) (attributes : List RichAttribute) :
    orderedFor s2 attributes = orderedFor scope attributes := by
  have hu : attributeUri s2 = attributeUri scope := by
    funext entry
    unfold attributeUri
    cases prefixOf entry.name with
    | none => rfl
    | some p =>
      by_cases hp : p = xmlPrefix
      · simp [if_pos hp]
      · simp [if_neg hp, h p hp]
  rw [orderedFor, hu]
  rfl

/-- **Recasting changes no canonical form.** -/
theorem writeNodes_recast (h : s.Agrees s2) (r : Scope) (uri : Text)
    (nodes : List RichNode) : writeNodes s2 r (recastNodes uri nodes) = writeNodes s r nodes := by
  induction nodes using RichNode.forest_induction generalizing s s2 r with
  | nil => rfl
  | element name attributes children rest hch hr =>
    have hsc := h.recast uri attributes
    have hw : writeNode s2 r (.element name (recastAttributes uri attributes) (recastNodes uri children)) =
        writeNode s r (.element name attributes children) := by
      unfold writeNode
      simp only [splitAttributes_recastAttributes]
      show (emittedFor (scopeWithin (recastAttributes uri attributes) s2) r _).bind _ =
        (emittedFor (scopeWithin attributes s) r _).bind _
      rw [emittedFor_congr hsc]
      congr 1; funext emitted
      show (orderedFor (scopeWithin (recastAttributes uri attributes) s2) _).bind _ =
        (orderedFor (scopeWithin attributes s) _).bind _
      rw [orderedFor_congr hsc]
      congr 1; funext ordered
      show (writeNodes (scopeWithin (recastAttributes uri attributes) s2) _ _).bind _ =
        (writeNodes (scopeWithin attributes s) _ _).bind _
      rw [hch hsc]
    rw [recastNodes, RichNode.recast, writeNodes, writeNodes, hw, hr h]
  | text c rest hr | processingInstruction c rest hr =>
    rw [recastNodes, RichNode.recast, writeNodes, writeNodes, hr h]
    rfl

/-- The elements of a recast tree: recast, and in scopes that agree. -/
theorem exists_recast_of_mem_visitNodes (h : s.Agrees s2) (uri : Text) (no : List RichNode)
    {e : Scoped} (he : e ∈ visitNodes s no) :
    ∃ inherited, e.inherited.Agrees inherited ∧ ⟨e.element.recast uri, inherited⟩ ∈ visitNodes s2 (recastNodes uri no) := by
  induction no using RichNode.forest_induction generalizing s s2 with
  | nil => cases he
  | element name attributes children rest hch hr =>
    rw [visitNodes, RichNode.visit, mem_append, mem_cons] at he
    rcases he with he | rfl | he
    · obtain ⟨inherited, ha, hm⟩ := hr h he
      exact ⟨inherited, ha, mem_append_left _ hm⟩
    · exact ⟨s2, h, mem_append_right _ (mem_cons_self ..)⟩
    · obtain ⟨inherited, ha, hm⟩ := hch (h.recast uri attributes) he
      exact ⟨inherited, ha, mem_append_right _ (mem_cons_of_mem _ hm)⟩
  | text c rest hr | processingInstruction c rest hr =>
    rw [visitNodes, RichNode.visit, append_nil] at he
    rw [recastNodes, RichNode.recast, visitNodes, RichNode.visit, append_nil]
    exact hr h he

/-! ### Reading alike -/

namespace Scoped

/-- The element as an assertion that was verified. -/
def assertion (e : Scoped) : VerifiedAssertion := ⟨e.element, e.inherited⟩

/-- Every chain of accessor calls and every check of the conditions gives the same result. -/
structure SameReadings (e e2 : Scoped) : Prop where
  ask : ∀ query, e.assertion.ask query = e2.assertion.ask query
  check : ∀ expectations now, Saml.check e.assertion expectations now = Saml.check e2.assertion expectations now

variable {tables : CharTables} {e : Scoped} {form : ByteArray}

/-- An element with one canonical form and another namespace for `xml`. -/
theorem exists_recast (h : Produced tables e) (hf : e.canonical = some form) {uri : Text} (hu : Verbatim uri) :
    ∃ inherited, e.inherited.Agrees inherited ∧ Produced tables ⟨e.element.recast uri, inherited⟩ ∧
      (Scoped.mk (e.element.recast uri) inherited).canonical = some form := by
  obtain ⟨tokens, limits, root, ht, hr, he⟩ := h
  obtain ⟨inherited, ha, hm⟩ := exists_recast_of_mem_visitNodes (fun _ _ => rfl) uri [root.node] he
  refine ⟨inherited, ha, ⟨_, limits.roomier, root.recast uri, tokenized_recast ht, buildTokens_recast hu hr, hm⟩, ?_⟩
  rw [canonical_eq] at hf ⊢
  rw [← hf]
  exact congrArg (Option.map octets) (writeNodes_recast ha [] uri [e.element.node])

/-- A recast element with the prefix `xml` is in the new namespace. -/
theorem is_recast (hx : prefixOf e.element.name = some xmlPrefix) {uri : Text} (hu : Verbatim uri) (inh : Scope) :
    (Scoped.mk (e.element.recast uri) inh).is uri (localName e.element.name) := by
  have hf : (Scoped.mk (e.element.recast uri) inh).scope.find xmlPrefix = some ⟨xmlPrefix, uri⟩ := by
    show (scopeWithin (recastAttributes uri e.element.attributes) inh).find xmlPrefix = _
    rw [scopeWithin, filterMap_recastAttributes]
    have hne : ∀ bnd ∈ (e.element.attributes.filterMap declaration?).filter (fun bnd => bnd.nsPrefix ≠ xmlPrefix),
        bnd.nsPrefix ≠ xmlPrefix := fun bnd hb => by simpa using of_mem_filter hb
    exact (find_bindAll_of_forall_ne hne).trans (find_bind_self inh ⟨xmlPrefix, uri⟩)
  refine decide_eq_true ⟨rfl, ?_⟩
  show ((Scoped.mk (e.element.recast uri) inh).scope.namespace ((prefixOf e.element.name).getD [])) = _
  simp [Scope.namespace, hx, hf, hu.ne_nil]

/-- **The canonical form of an element determines everything that can be read of it exactly
when no element below it has the prefix `xml`.** -/
theorem octets_cover_readings_iff (h : Produced tables e) (hform : e.canonical = some form) :
    (∀ e2, Produced tables e2 → e2.canonical = some form → e.SameReadings e2) ↔ e.XmlFree := by
  constructor
  · intro hsa bel hbe hxml
    -- declare `xml` anew, as a namespace that no element below is in
    let uri := letters ((e.visit.map fun e => (e.ns.getD []).length).sum + 1)
    have hu : Verbatim uri := verbatim_letters _
    have hn : ∀ other ∈ e.visit, other.ns ≠ some uri := by
      intro other hot hns
      have hle := le_sum_of_mem (mem_map_of_mem (f := fun e => (e.ns.getD []).length) hot)
      rw [hns, Option.getD_some, show uri.length = _ from length_replicate ..] at hle
      omega
    obtain ⟨inherited, hag, hpr, hca⟩ := exists_recast h hform hu
    obtain ⟨aro, -, hmem⟩ := exists_recast_of_mem_visitNodes hag uri [e.element.node] hbe
    have hou := Answer.count.inj ((hsa _ hpr hca).ask (.elementCount uri (localName bel.element.name)))
    have hno : e.assertion.elements uri (localName bel.element.name) = [] := by
      show collectScoped e.element e.inherited _ _ = []
      rw [collectScoped, walk_eq_visit, filter_eq_nil_iff]
      intro other hot his
      exact hn other hot (of_decide_eq_true his).2
    have hso : (⟨bel.element.recast uri, aro⟩ : Scoped) ∈
        (assertion ⟨e.element.recast uri, inherited⟩).elements uri (localName bel.element.name) := by
      show _ ∈ collectScoped _ _ _ _
      rw [collectScoped, walk_eq_visit, mem_filter]
      exact ⟨hmem, is_recast hxml hu aro⟩
    have hpo := length_pos_of_mem hso
    rw [hno, length_nil] at hou
    omega
  · intro hxml e2 h2 hfo2
    have hvi := view_eq_of_canonical h.wellFormed h2.wellFormed hxml hform hfo2
    exact ⟨fun query => VerifiedAssertion.ask_eq_of_view query hvi,
      fun exp now => check_eq_of_view exp now hvi⟩

end Scoped

/-! ### One signature, two readings -/

/-- The tree of an empty tag that is accepted. -/
theorem produced_of_empty {tag : StartTag} {el : RichElement} (ht : tag.Unrepeated)
    (h : buildTokens asciiOnly .default [some (.empty tag)] = .ok el) : Produced asciiOnly ⟨el, []⟩ := by
  refine ⟨[some (.empty tag)], .default, el, ?_, h, mem_cons_self ..⟩
  intro ev he
  rw [mem_singleton] at he
  cases he
  exact ht

/-- An element `xml:Assertion` with a declaration of `xml`. -/
def xmlAssertion : Scoped := ⟨⟨"xml:Assertion".toList, [⟨xmlDeclaration, uri⟩], []⟩, []⟩

/-- Under one canonical form, an element is an assertion or is not. -/
theorem xmlAssertion_readings_differ :
    Produced asciiOnly (xmlAssertion assertionNs) ∧ Produced asciiOnly (xmlAssertion "urn:x".toList) ∧
      (xmlAssertion assertionNs).canonical = (xmlAssertion "urn:x".toList).canonical ∧
      (xmlAssertion assertionNs).canonical.isSome ∧
      (xmlAssertion assertionNs).assertion.ask (.is assertionNs "Assertion".toList) = .flag true ∧
      (xmlAssertion "urn:x".toList).assertion.ask (.is assertionNs "Assertion".toList) = .flag false := by
  have htag : ∀ uri : Text, StartTag.Unrepeated ⟨"xml:Assertion".toList, [some (xmlDeclaration, uri)]⟩ :=
    fun uri => nodup_singleton _
  exact ⟨produced_of_empty (htag assertionNs) rfl, produced_of_empty (htag "urn:x".toList) rfl, rfl, rfl, rfl, rfl⟩

/-- An assertion with an unprefixed name. -/
def plainAssertion : Scoped := ⟨⟨"Assertion".toList, [⟨"ID".toList, "a".toList⟩], []⟩, []⟩

/-- What is read of it is covered by its canonical form. -/
theorem plainAssertion_covered :
    Produced asciiOnly plainAssertion ∧ plainAssertion.canonical.isSome ∧
      ∀ e2, Produced asciiOnly e2 → e2.canonical = plainAssertion.canonical → plainAssertion.SameReadings e2 := by
  have hpr : Produced asciiOnly plainAssertion :=
    produced_of_empty (show StartTag.Unrepeated ⟨"Assertion".toList, [some ("ID".toList, "a".toList)]⟩ from
      nodup_singleton _) rfl
  have hfo : plainAssertion.canonical = some (octets "<Assertion ID=\"a\"></Assertion>".toList) := rfl
  have hxml : plainAssertion.XmlFree := by
    intro bel hbe
    rw [mem_singleton.mp hbe]
    decide
  refine ⟨hpr, rfl, fun e2 h2 hfo2 => ?_⟩
  exact (Scoped.octets_cover_readings_iff hpr hfo).mpr hxml e2 h2 (hfo2.trans hfo)

end IronAuth.Saml
