import IronAuth.Saml.Document

/-!
# The two readers

`parse` makes the tree that a caller sees: names and children, nothing else. `tree::build`
makes the rich tree that the verifier digests, with attributes, text and processing
instructions. Both loop over the same events and run the same rules, but each keeps its own
stack, its own root and its own count of elements.

The rich tree has a skeleton, which forgets everything but the elements and their names. One
step of `build` is one step of `parse` on the skeleton of its state, errors included, and so
is a whole run.
-/

namespace IronAuth.Saml

open Lib.Fallible

/-! ### Trees -/

/-- `Element`: a name and children, and that is all. -/
inductive Element where
  | mk (name : Text) (children : List Element)

/-- `Element::name`. -/
def Element.name : Element → Text
  | .mk name _ => name

/-- `Element::children`. -/
def Element.children : Element → List Element
  | .mk _ children => children

/-- `RichAttribute`. -/
@[ext]
structure RichAttribute where
  name : Text
  value : Text
  deriving DecidableEq

/-- `RichNode`. A nested element is written out in place. -/
inductive RichNode where
  | element (name : Text) (attributes : List RichAttribute) (children : List RichNode)
  | text (content : Text)
  | processingInstruction (content : Text)

/-- `RichElement`. -/
structure RichElement where
  name : Text
  attributes : List RichAttribute
  children : List RichNode

/-- An element as a child. -/
def RichElement.node (element : RichElement) : RichNode :=
  .element element.name element.attributes element.children

/-- Induction over the children of an element, and over the children of each of them. -/
theorem RichNode.forest_induction {P : List RichNode → Prop} (nil : P [])
    (element : ∀ name attributes children rest, P children → P rest → P (.element name attributes children :: rest))
    (text : ∀ content rest, P rest → P (.text content :: rest))
    (processingInstruction : ∀ content rest, P rest → P (.processingInstruction content :: rest))
    (nodes : List RichNode) : P nodes := by
  apply RichNode.rec_1 (motive_1 := fun node => ∀ rest, P rest → P (node :: rest)) (motive_2 := P)
  · intro name attributes children hch rest hr
    exact element name attributes children rest hch hr
  · exact fun content rest hr => text content rest hr
  · exact fun content rest hr => processingInstruction content rest hr
  · exact nil
  · exact fun node rest hn hr => hn rest hr

mutual

/-- The elements at the top of a node. -/
def RichNode.skeleton : RichNode → List Element
  | .element name _ children => [.mk name (skeletons children)]
  | .text _ => []
  | .processingInstruction _ => []

/-- The elements at the top of a list of nodes. -/
def skeletons : List RichNode → List Element
  | [] => []
  | node :: rest => node.skeleton ++ skeletons rest

end

/-- The skeleton of an element: its name and the skeletons of its children. -/
def RichElement.skeleton (element : RichElement) : Element := .mk element.name (skeletons element.children)

@[simp]
theorem skeletons_append (f back : List RichNode) : skeletons (f ++ back) = skeletons f ++ skeletons back := by
  induction f with
  | nil => rfl
  | cons node f ih => simp [skeletons, ih]

/-! ### `parse` -/

/-- The variables of the loop of `parse`. The top of the stack comes first. -/
structure ParseState where
  stack : List Element
  root : Option Element
  elements : ℕ
  seenAnything : Bool

/-- Attach an element to the one that is open, or make it the document element. -/
def ParseState.attach (state : ParseState) (done : Element) : Except SamlError ParseState :=
  match state.stack with
  | parent :: below => .ok { state with stack := .mk parent.name (parent.children ++ [done]) :: below }
  | [] => if state.root.isNone then .ok { state with root := some done } else .error .malformed

variable (tables : CharTables) (limits : Limits)

/-- The `match event` of `parse`. -/
def parseEvent (state : ParseState) : Event → Except SamlError ParseState
  | .start tag => do
    refuseIf (limits.maxElements < state.elements + 1) .tooManyElements
    refuseIf (limits.depth ≤ state.stack.length) .tooDeep
    let name ← elementName tables limits tag
    return { state with elements := state.elements + 1, stack := .mk name [] :: state.stack }
  | .empty tag => do
    refuseIf (limits.maxElements < state.elements + 1) .tooManyElements
    refuseIf (limits.depth ≤ state.stack.length) .tooDeep
    let name ← elementName tables limits tag
    ParseState.attach { state with elements := state.elements + 1 } (.mk name [])
  | .endTag =>
    match state.stack with
    | [] => .error .malformed
    | done :: below => ParseState.attach { state with stack := below } done
  | _ => .ok state

/-- One round of the loop of `parse`. -/
def parseStep (state : ParseState) (token : Token) :
    Except SamlError ParseState :=
  match token with
  | none => .error .malformed
  | some event => do
    checkDocumentEvent event state.stack.length state.root.isSome state.seenAnything
    let next ← parseEvent tables limits state event
    return { next with seenAnything := true }

/-- The loop of `parse`, and what it returns at the end of the file. -/
def parseTokens (tokens : List Token) : Except SamlError Element := do
  let state ← tokens.foldlM (parseStep tables limits) ⟨[], none, 0, false⟩
  match state.root with
  | some root => .ok root
  | none => .error .malformed

/-! ### `tree::build` -/

/-- The variables of the loop of `build`. -/
structure BuildState where
  stack : List RichElement
  root : Option RichElement
  elements : ℕ
  seenAnything : Bool
  pendingText : Text

/-- `flush_text`. -/
def BuildState.flushText (state : BuildState) : BuildState :=
  if state.pendingText = [] then state
  else
    match state.stack with
    | top :: below =>
      { state with
        stack := { top with children := top.children ++ [.text state.pendingText] } :: below
        pendingText := [] }
    | [] => { state with pendingText := [] }

/-- `close`. -/
def BuildState.close (state : BuildState) (done : RichElement) : Except SamlError BuildState :=
  match state.stack with
  | parent :: below => .ok { state with stack := { parent with children := parent.children ++ [done.node] } :: below }
  | [] => if state.root.isNone then .ok { state with root := some done } else .error .malformed

/-- The loop of `rich_element` over the attributes: `kept` of them were accepted. -/
def richAttributes (tables : CharTables) (limits : Limits) :
    List RichAttribute → List (Option (Text × Text)) → Except SamlError (List RichAttribute)
  | kept, [] => .ok kept
  | _, none :: _ => .error .malformed
  | kept, some (key, value) :: rest => do
    refuseIf (limits.maxAttributes ≤ kept.length) .elementTooLarge
    refuseIf (limits.maxNameBytes < Text.len key) .elementTooLarge
    checkName tables key
    checkAttributeValue value
    let decoded ← decodeAttribute value
    richAttributes tables limits (kept ++ [⟨key, decoded⟩]) rest

/-- `rich_element`. -/
def richElement (tag : StartTag) : Except SamlError RichElement := do
  refuseIf (limits.maxNameBytes < Text.len tag.name) .elementTooLarge
  checkName tables tag.name
  let attributes ← richAttributes tables limits [] tag.attributes
  return ⟨tag.name, attributes, []⟩

/-- The `match event` of `build`. A comment leaves the run of text as it is. -/
def buildEvent (state : BuildState) : Event → Except SamlError BuildState
  | .start tag => do
    let state := state.flushText
    refuseIf (limits.maxElements < state.elements + 1) .tooManyElements
    refuseIf (limits.depth ≤ state.stack.length) .tooDeep
    let element ← richElement tables limits tag
    return { state with elements := state.elements + 1, stack := element :: state.stack }
  | .empty tag => do
    let state := state.flushText
    refuseIf (limits.maxElements < state.elements + 1) .tooManyElements
    refuseIf (limits.depth ≤ state.stack.length) .tooDeep
    let leaf ← richElement tables limits tag
    BuildState.close { state with elements := state.elements + 1 } leaf
  | .endTag =>
    let state := state.flushText
    match state.stack with
    | [] => .error .malformed
    | done :: below => BuildState.close { state with stack := below } done
  | .text content => .ok (if state.stack = [] then state else { state with pendingText := state.pendingText ++ content })
  | .cData content => .ok (if state.stack = [] then state else { state with pendingText := state.pendingText ++ content })
  | .generalRef name =>
    if state.stack = [] then .ok state
    else do
      let resolved ← resolveReference name
      return { state with pendingText := state.pendingText ++ [resolved] }
  | .pi content =>
    match state.stack with
    | [] => .ok state
    | _ :: _ =>
      let state := state.flushText
      match state.stack with
      | [] => .ok state
      | top :: below =>
        .ok { state with stack := { top with children := top.children ++ [.processingInstruction content] } :: below }
  | _ => .ok state

/-- One round of the loop of `build`. -/
def buildStep (state : BuildState) (token : Token) :
    Except SamlError BuildState :=
  match token with
  | none => .error .malformed
  | some event => do
    checkDocumentEvent event state.stack.length state.root.isSome state.seenAnything
    let next ← buildEvent tables limits state event
    return { next with seenAnything := true }

/-- The loop of `build`, and what it returns at the end of the file. -/
def buildTokens (tokens : List Token) : Except SamlError RichElement := do
  let state ← tokens.foldlM (buildStep tables limits) ⟨[], none, 0, false, []⟩
  match state.root with
  | some root => .ok root
  | none => .error .malformed

/-! ### Bytes -/

/-- `normalise_line_endings`. -/
def normaliseLineEndings : Text → Text
  | [] => []
  | ['\r'] => ['\n']
  | '\r' :: '\n' :: rest => '\n' :: normaliseLineEndings rest
  | '\r' :: c :: rest => '\n' :: normaliseLineEndings (c :: rest)
  | c :: rest => c :: normaliseLineEndings rest

/-- The text of bytes that are UTF-8. -/
def fromUtf8 (bytes : ByteArray) : Except SamlError Text :=
  match String.fromUTF8? bytes with
  | some text => .ok text.toList
  | none => .error .malformed

/-- `parse`, over a tokenizer. -/
def parse (tokenize : Text → List Token) (bytes : ByteArray) (limits : Limits) :
    Except SamlError Element := do
  refuseIf (limits.maxBytes < bytes.size) .tooLarge
  let text ← fromUtf8 bytes
  parseTokens tables limits (tokenize text)

/-- `build`, over a tokenizer. -/
def build (tokenize : Text → List Token) (bytes : ByteArray) (limits : Limits) :
    Except SamlError RichElement := do
  refuseIf (limits.maxBytes < bytes.size) .tooLarge
  let text ← fromUtf8 bytes
  buildTokens tables limits (tokenize (normaliseLineEndings text))

/-! ### One tag -/

section agreement

variable (tables : CharTables) (limits : Limits)

/-- The attributes that one reader checks and the other keeps. -/
theorem richAttributes_check (k : List RichAttribute) (attributes : List (Option (Text × Text))) :
    (fun _ => ()) <$> richAttributes tables limits k attributes =
      checkAttributes tables limits k.length attributes := by
  induction attributes generalizing k with
  | nil => rfl
  | cons entry rest ih =>
    cases entry with
    | none => rfl
    | some entry =>
      obtain ⟨key, value⟩ := entry
      -- the two counts refuse the same attribute
      have hc : limits.maxAttributes ≤ k.length ↔ limits.maxAttributes < k.length + 1 := by omega
      simp only [richAttributes, checkAttributes, map_bind, hc]
      cases hv : checkAttributeValue value with
      | error e => rfl
      | ok _ =>
        obtain ⟨d, hd⟩ := decodeAttribute_of_check hv
        simp only [ok_bind, hd, ih, List.length_append, List.length_singleton]

/-- **A tag is accepted by both readers or refused with the same error.** -/
theorem richElement_name (tag : StartTag) :
    RichElement.name <$> richElement tables limits tag = elementName tables limits tag := by
  simp only [richElement, elementName, map_bind]
  rw [← List.length_nil, ← richAttributes_check tables limits [] tag.attributes]
  cases richAttributes tables limits [] tag.attributes <;> rfl

theorem richElement_children {tag : StartTag} {el : RichElement} (h : richElement tables limits tag = .ok el) :
    el.children = [] := by
  simp only [richElement, bind_eq_ok_iff] at h
  obtain ⟨_, _, _, _, attributes, _, h⟩ := h
  cases h
  rfl

/-! ### One event -/

/-- What `parse` keeps of a state of `build`. -/
def BuildState.skeleton (state : BuildState) : ParseState where
  stack := state.stack.map RichElement.skeleton
  root := state.root.map RichElement.skeleton
  elements := state.elements
  seenAnything := state.seenAnything

/-- Text is not part of the skeleton. -/
theorem skeleton_flushText (s : BuildState) : s.flushText.skeleton = s.skeleton := by
  unfold BuildState.flushText
  split_ifs with hpd
  · rfl
  · cases hs : s.stack with
    | nil => simp [BuildState.skeleton, hs]
    | cons top b => simp [BuildState.skeleton, hs, RichElement.skeleton, skeletons, RichNode.skeleton]

theorem attach_skeleton (s : BuildState) (done : RichElement) :
    s.skeleton.attach done.skeleton = BuildState.skeleton <$> s.close done := by
  cases hs : s.stack with
  | cons p b =>
    simp [ParseState.attach, BuildState.close, BuildState.skeleton, hs, RichElement.skeleton, RichElement.node,
      Element.name, Element.children, skeletons, RichNode.skeleton]
  | nil =>
    cases hr : s.root with
    | none | some => simp [ParseState.attach, BuildState.close, BuildState.skeleton, hs, hr]

/-- The tag of a new element: the same refusals, and elements of the same name. -/
theorem elementName_bind (tag : StartTag) (f : Element → Except SamlError ParseState)
    (g : RichElement → Except SamlError BuildState)
    (h : ∀ element : RichElement, f element.skeleton = BuildState.skeleton <$> g element) :
    (elementName tables limits tag >>= fun name => f (.mk name [])) =
      BuildState.skeleton <$> (richElement tables limits tag >>= g) := by
  rw [← richElement_name]
  cases he : richElement tables limits tag with
  | error e => rfl
  | ok element =>
    rw [map_ok, ok_bind, ok_bind, ← h]
    simp [RichElement.skeleton, richElement_children tables limits he, skeletons]

/-- One event, once the rules accept it. -/
theorem parseEvent_skeleton (s : BuildState) (event : Event) {ha sa : Bool}
    (hc : checkDocumentEvent event s.stack.length ha sa = .ok ()) :
    parseEvent tables limits s.skeleton event = BuildState.skeleton <$> buildEvent tables limits s event := by
  cases event with
  | start tag =>
    rw [← skeleton_flushText s]
    simp only [parseEvent, buildEvent, map_bind]
    generalize s.flushText = s
    simp only [BuildState.skeleton, List.length_map]
    congr 1; funext _
    congr 1; funext _
    rw [← map_bind]
    exact elementName_bind tables limits tag
      (fun element => .ok ⟨element :: s.stack.map RichElement.skeleton, s.root.map RichElement.skeleton,
        s.elements + 1, s.seenAnything⟩) _ (fun _ => rfl)
  | empty tag =>
    rw [← skeleton_flushText s]
    simp only [parseEvent, buildEvent, map_bind]
    generalize s.flushText = s
    simp only [BuildState.skeleton, List.length_map]
    congr 1; funext _
    congr 1; funext _
    rw [← map_bind]
    exact elementName_bind tables limits tag _ _
      (fun element => attach_skeleton { s with elements := s.elements + 1 } element)
  | endTag =>
    rw [← skeleton_flushText s]
    simp only [parseEvent, buildEvent]
    generalize s.flushText = s
    cases hs : s.stack with
    | nil => simp [BuildState.skeleton, hs]
    | cons done b =>
      simp only [BuildState.skeleton, hs, List.map_cons]
      exact attach_skeleton { s with stack := b } done
  | text | cData =>
    simp only [parseEvent, buildEvent, map_ok]
    split_ifs <;> rfl
  | comment | decl | docType => rfl
  | pi c =>
    simp only [parseEvent, buildEvent]
    cases hs : s.stack with
    | nil => rfl
    | cons top b =>
      rw [← skeleton_flushText s]
      generalize s.flushText = s
      cases hf : s.stack with
      | nil => rfl
      | cons top b => simp [BuildState.skeleton, hf, RichElement.skeleton, skeletons, RichNode.skeleton]
  | generalRef name =>
    rw [checkDocumentEvent, check_bind_eq_ok_iff] at hc
    obtain ⟨res, hr⟩ := resolveReference_of_check hc.2
    simp only [parseEvent, buildEvent, hr, ok_bind]
    split_ifs <;> rfl

/-- One round: the readers refuse with the same error, or go on in step. -/
theorem parseStep_skeleton (s : BuildState) (token : Token) :
    parseStep tables limits s.skeleton token = BuildState.skeleton <$> buildStep tables limits s token := by
  cases token with
  | none => rfl
  | some ev =>
    have hl : s.skeleton.stack.length = s.stack.length := by simp [BuildState.skeleton]
    have hr : s.skeleton.root.isSome = s.root.isSome := by simp [BuildState.skeleton]
    simp only [parseStep, buildStep, hl, hr, show s.skeleton.seenAnything = s.seenAnything from rfl]
    cases hc : checkDocumentEvent ev s.stack.length s.root.isSome s.seenAnything with
    | error e => rfl
    | ok _ =>
      rw [ok_bind, ok_bind, parseEvent_skeleton tables limits s ev hc]
      cases buildEvent tables limits s ev <;> rfl

/-- **The readers agree.** On every list of tokens, `parse` refuses with the error that
`build` refuses with, or answers with the skeleton of the tree that `build` answers with. -/
theorem parse_eq_skeleton_build (tokens : List Token) :
    parseTokens tables limits tokens = RichElement.skeleton <$> buildTokens tables limits tokens := by
  have hrun := foldlM_view BuildState.skeleton (parseStep_skeleton tables limits) ⟨[], none, 0, false, []⟩ tokens
  unfold parseTokens buildTokens
  rw [show (⟨[], none, 0, false⟩ : ParseState) = BuildState.skeleton ⟨[], none, 0, false, []⟩ from rfl, hrun]
  cases tokens.foldlM (buildStep tables limits) ⟨[], none, 0, false, []⟩ with
  | error e => rfl
  | ok state => cases hroot : state.root <;> simp [BuildState.skeleton, hroot]

end agreement

/-- ASCII names only. -/
def asciiOnly : CharTables := ⟨fun _ => false, fun _ => false⟩

/-- A document of one element with one attribute. -/
def oneAttribute (value : Text) : List Token := [some (.empty ⟨"A".toList, [some ("ID".toList, value)]⟩)]

/-- The tree of `parse` does not have the attributes: two documents with one tree for `parse`
have different trees for `build`. -/
theorem parse_forgets_attributes :
    parseTokens asciiOnly .default (oneAttribute "x".toList) = parseTokens asciiOnly .default (oneAttribute "y".toList) ∧
      parseTokens asciiOnly .default (oneAttribute "x".toList) = .ok (.mk "A".toList []) ∧
      RichElement.attributes <$> buildTokens asciiOnly .default (oneAttribute "x".toList) ≠
        RichElement.attributes <$> buildTokens asciiOnly .default (oneAttribute "y".toList) := by
  refine ⟨?_, ?_, ?_⟩
  · rfl
  · rfl
  · decide

end IronAuth.Saml
