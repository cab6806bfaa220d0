import IronAuth.Saml.Octets

/-!
# What the tree builder can produce

The tokenizer is third-party code, and the reader leaves two things to it: a tag that repeats
an attribute is an error of its iterator, and a processing instruction ends at the first `?>`.
Given these, the trees that `build` answers with are well formed, and so is every element of
them.
-/

namespace IronAuth.Saml

open Lib.Fallible List

/-! ### The tokenizer -/

/-- No attribute of the tag is given twice. -/
def StartTag.Unrepeated (tag : StartTag) : Prop := ((tag.attributes.filterMap id).map Prod.fst).Nodup

/-- What the tokenizer sees to. -/
def Event.Genuine : Event → Prop
  | .start tag => tag.Unrepeated
  | .empty tag => tag.Unrepeated
  | .pi content => ¬ ['?', '>'] <:+: content
  | _ => True

/-- The tokens are the tokenizer's. -/
def Tokenized (tokens : List Token) : Prop := ∀ event, some event ∈ tokens → event.Genuine

/-! ### Trees -/

section wellFormed

variable {tables : CharTables} {limits : Limits}

theorem WellFormed.append {f b : List RichNode} (hf : WellFormed tables f) (hb : WellFormed tables b) :
    WellFormed tables (f ++ b) := by
  induction hf with
  | nil => exact hb
  | element hn ha hnd hch _ _ i => exact .element hn ha hnd hch i
  | text _ ih => exact .text ih
  | processingInstruction hc _ ih => exact .processingInstruction hc ih

variable {el : RichElement} {n : List RichNode}

/-- New children of an element that was well formed. -/
theorem WellFormed.push (h : WellFormed tables [el.node])
    (hns : WellFormed tables n) :
    WellFormed tables [RichElement.node { el with children := el.children ++ n }] := by
  cases h with
  | element hn ha hnd hch hr =>
    exact .element hn ha hnd (hch.append hns) hr

/-- An element below a well-formed tree is well formed. -/
theorem WellFormed.of_mem_visitNodes (h : WellFormed tables n) {inh : Scope} {e : Scoped}
    (he : e ∈ visitNodes inh n) : e.WellFormed tables := by
  induction h generalizing inh with
  | nil => cases he
  | element hn ha hnd hch _ i ir =>
    rw [visitNodes, RichNode.visit, mem_append, mem_cons] at he
    rcases he with he | rfl | he
    · exact ir he
    · exact .element hn ha hnd hch .nil
    · exact i he
  | text _ ih | processingInstruction _ _ ih =>
    rw [visitNodes, RichNode.visit, append_nil] at he
    exact ih he

/-! ### Tags -/

/-- The attributes that were kept: the names of the tag, each of them checked. -/
theorem richAttributes_names {k out : List RichAttribute} {a : List (Option (Text × Text))}
    (h : richAttributes tables limits k a = .ok out) :
    ∃ new, out = k ++ new ∧ new.map RichAttribute.name = (a.filterMap id).map Prod.fst ∧
      ∀ entry ∈ new, checkName tables entry.name = .ok () := by
  induction a generalizing k with
  | nil =>
    cases h
    exact ⟨[], by simp, rfl, by simp⟩
  | cons entry rest ih =>
    cases entry with
    | none => cases h
    | some entry =>
      obtain ⟨key, value⟩ := entry
      simp only [richAttributes, bind_eq_ok_iff] at h
      obtain ⟨_, -, _, -, _, hk, _, -, d, -, h⟩ := h
      obtain ⟨new, rfl, hn, hc⟩ := ih h
      refine ⟨⟨key, d⟩ :: new, by simp, by simp [hn], ?_⟩
      exact forall_mem_cons.mpr ⟨hk, hc⟩

theorem wellFormed_of_richElement {tag : StartTag} (ht : tag.Unrepeated)
    (h : richElement tables limits tag = .ok el) : WellFormed tables [el.node] := by
  simp only [richElement, bind_eq_ok_iff] at h
  obtain ⟨_, -, _, hn, attributes, ha, h⟩ := h
  cases h
  obtain ⟨new, hne, hnm, hc⟩ := richAttributes_names ha
  subst hne
  refine .element hn hc ?_ .nil .nil
  rw [hnm]
  exact ht

/-! ### The loop -/

/-- Every tree that the loop holds is well formed. -/
structure BuildState.WellFormed (tables : CharTables) (state : BuildState) : Prop where
  stack : ∀ element ∈ state.stack, Saml.WellFormed tables [element.node]
  root : ∀ element ∈ state.root, Saml.WellFormed tables [element.node]

variable {state next : BuildState}

theorem BuildState.WellFormed.flushText (h : state.WellFormed tables) : state.flushText.WellFormed tables := by
  unfold BuildState.flushText
  split_ifs
  · exact h
  · cases hs : state.stack with
    | nil => exact ⟨by simp, h.root⟩
    | cons top b =>
      have ha := h.stack
      rw [hs, forall_mem_cons] at ha
      refine ⟨?_, h.root⟩
      exact forall_mem_cons.mpr ⟨ha.1.push (.text .nil), ha.2⟩

theorem BuildState.WellFormed.close {d : RichElement} (h : state.WellFormed tables)
    (hd : Saml.WellFormed tables [d.node]) (hc : state.close d = .ok next) : next.WellFormed tables := by
  unfold BuildState.close at hc
  cases hs : state.stack with
  | nil =>
    simp only [hs] at hc
    split_ifs at hc
    cases hc
    refine ⟨by simp, ?_⟩
    rintro element heq
    cases heq
    exact hd
  | cons p b =>
    simp only [hs] at hc
    cases hc
    have ha := h.stack
    rw [hs, forall_mem_cons] at ha
    exact ⟨forall_mem_cons.mpr ⟨ha.1.push hd, ha.2⟩, h.root⟩

theorem BuildState.WellFormed.buildEvent {e : Event} (h : state.WellFormed tables) (he : e.Genuine)
    (hn : buildEvent tables limits state e = .ok next) : next.WellFormed tables := by
  cases e with
  | start tag =>
    simp only [Saml.buildEvent, bind_eq_ok_iff] at hn
    obtain ⟨_, -, _, -, element, hel, hn⟩ := hn
    cases hn
    have hf := h.flushText
    refine ⟨?_, hf.root⟩
    exact forall_mem_cons.mpr ⟨wellFormed_of_richElement he hel, hf.stack⟩
  | empty tag =>
    simp only [Saml.buildEvent, bind_eq_ok_iff] at hn
    obtain ⟨_, -, _, -, leaf, hl, hn⟩ := hn
    have hc : BuildState.WellFormed tables { state.flushText with elements := state.flushText.elements + 1 } :=
      ⟨h.flushText.stack, h.flushText.root⟩
    exact hc.close (wellFormed_of_richElement he hl) hn
  | endTag =>
    have hf := h.flushText
    simp only [Saml.buildEvent] at hn
    cases hs : state.flushText.stack with
    | nil =>
      rw [hs] at hn
      cases hn
    | cons done b =>
      rw [hs] at hn
      have ha := hf.stack
      rw [hs, forall_mem_cons] at ha
      have hp : BuildState.WellFormed tables { state.flushText with stack := b } := ⟨ha.2, hf.root⟩
      exact hp.close ha.1 hn
  | text | cData =>
    cases hn
    split_ifs
    · exact h
    · exact ⟨h.stack, h.root⟩
  | comment | decl | docType =>
    cases hn
    exact h
  | pi c =>
    have hf := h.flushText
    simp only [Saml.buildEvent] at hn
    cases hs : state.stack with
    | nil =>
      rw [hs] at hn
      cases hn
      exact h
    | cons top b =>
      rw [hs] at hn
      cases hfl : state.flushText.stack with
      | nil =>
        simp only [hfl] at hn
        cases hn
        exact hf
      | cons top b =>
        simp only [hfl] at hn
        cases hn
        have ha := hf.stack
        rw [hfl, forall_mem_cons] at ha
        refine ⟨?_, hf.root⟩
        exact forall_mem_cons.mpr ⟨ha.1.push (.processingInstruction he .nil), ha.2⟩
  | generalRef name =>
    simp only [Saml.buildEvent] at hn
    split_ifs at hn
    · cases hn
      exact h
    · obtain ⟨res, -, hn⟩ := bind_eq_ok_iff.mp hn
      cases hn
      exact ⟨h.stack, h.root⟩

/-- **What `build` answers with is well formed.** -/
theorem wellFormed_of_buildTokens {t : List Token} {r : RichElement} (ht : Tokenized t)
    (h : buildTokens tables limits t = .ok r) : WellFormed tables [r.node] := by
  obtain ⟨last, hru, hr⟩ := bind_eq_ok_iff.mp h
  have hl : last.WellFormed tables := by
    refine foldlM_of_invariant ?_ ⟨by simp, by simp⟩ hru
    intro state token hto next hst hn
    cases token with
    | none => cases hn
    | some e =>
      simp only [buildStep, bind_eq_ok_iff] at hn
      obtain ⟨_, -, after, ha, hn⟩ := hn
      cases hn
      have hwf := hst.buildEvent (ht e hto) ha
      exact ⟨hwf.stack, hwf.root⟩
  cases hla : last.root with
  | none =>
    rw [hla] at hr
    cases hr
  | some found =>
    rw [hla] at hr
    cases hr
    exact hl.root r hla

end wellFormed

/-! ### Elements of a document -/

/-- An element of a document that `build` accepts, with the declarations of its ancestors. -/
def Produced (tables : CharTables) (e : Scoped) : Prop :=
  ∃ tokens limits root, Tokenized tokens ∧ buildTokens tables limits tokens = .ok root ∧ e ∈ (Scoped.mk root []).visit

/-- **Every element that `build` produces is well formed.** -/
theorem Produced.wellFormed {tables : CharTables} {e : Scoped} (h : Produced tables e) : e.WellFormed tables := by
  obtain ⟨tokens, limits, root, ht, hr, he⟩ := h
  have hv : visitNodes [] [root.node] = (Scoped.mk root []).visit := rfl
  exact (wellFormed_of_buildTokens ht hr).of_mem_visitNodes (hv ▸ he)

end IronAuth.Saml
