import IronAuth.Lib.StackWalk
import IronAuth.Saml.Canonical

/-!
# Reading an element

What the verifier and the consumers of a verified assertion can ask of an element: its name
resolved against the declarations in scope, its attributes, its text, its children and its
descendants by name. An element travels with the declarations that its ancestors made.

The walks over descendants pop a stack onto which the children were pushed in order, so that
the last child is visited first.

What any chain of these questions can find out about an element is its view: the tree of its
descendants with names, namespaces, attributes and text, and nothing about declarations,
processing instructions or where a text was broken.
-/

namespace IronAuth.Saml

open Lib.StackWalk List

/-! ### Elements in scope -/

/-- `Scoped`: an element, and the declarations in scope around it. -/
structure Scoped where
  element : RichElement
  inherited : Scope

/-- `scope_within`. -/
def scopeWithin (attributes : List RichAttribute) (inherited : Scope) : Scope :=
  inherited.bindAll (attributes.filterMap declaration?)

/-- `resolve`: an empty URI is no namespace. -/
def resolve (name : Text) (scope : Scope) : Option Text := scope.namespace ((prefixOf name).getD [])

/-- `attribute`: the first attribute of that name. -/
def attributeNamed (attributes : List RichAttribute) (name : Text) : Option Text :=
  (attributes.find? fun entry => entry.name = name).map RichAttribute.value

mutual

/-- What a node adds to the text of its parent. -/
def RichNode.textContent : RichNode → Text
  | .element _ _ children => textContents children
  | .text content => content
  | .processingInstruction _ => []

/-- `text_content`, over the children of an element. -/
def textContents : List RichNode → Text
  | [] => []
  | node :: rest => node.textContent ++ textContents rest

end

/-- The element that a node is, if it is one. -/
def RichNode.element? : RichNode → Option RichElement
  | .element name attributes children => some ⟨name, attributes, children⟩
  | .text _ => none
  | .processingInstruction _ => none

/-- The elements among the children. -/
def elementsOf (nodes : List RichNode) : List RichElement := nodes.filterMap RichNode.element?

@[simp]
theorem elementsOf_nil : elementsOf [] = [] := rfl

@[simp]
theorem elementsOf_cons_element (n : Text) (a : List RichAttribute) (k rest : List RichNode) :
    elementsOf (.element n a k :: rest) = ⟨n, a, k⟩ :: elementsOf rest := rfl

@[simp]
theorem elementsOf_cons_text (c : Text) (rest : List RichNode) :
    elementsOf (.text c :: rest) = elementsOf rest := rfl

@[simp]
theorem elementsOf_cons_processingInstruction (c : Text) (rest : List RichNode) :
    elementsOf (.processingInstruction c :: rest) = elementsOf rest := rfl

namespace Scoped

variable (e : Scoped)

/-- `Scoped::scope`. -/
def scope : Scope := scopeWithin e.element.attributes e.inherited

/-- The namespace of the element's own name. -/
def ns : Option Text := resolve e.element.name e.scope

/-- `Scoped::is`. -/
def is (ns loc : Text) : Bool := localName e.element.name = loc ∧ e.ns = some ns

/-- The child elements, in order. -/
def nested : List Scoped :=
  (elementsOf e.element.children).map fun element => ⟨element, e.scope⟩

/-- `Scoped::indexed_children`. -/
def indexedChildren (ns loc : Text) : List (ℕ × Scoped) :=
  e.element.children.zipIdx.filterMap fun child =>
    match child.1.element? with
    | some element => if (Scoped.mk element e.scope).is ns loc then some (child.2, ⟨element, e.scope⟩) else none
    | none => none

/-- `Scoped::children`. -/
def children (ns loc : Text) : List Scoped := (e.indexedChildren ns loc).map Prod.snd

/-- `Scoped::attribute`. -/
def attributeOf (name : Text) : Option Text := attributeNamed e.element.attributes name

/-- `Scoped::text`. -/
def text : Text := textContents e.element.children

end Scoped

/-- The one element of a list that has just one. -/
def only? {α : Type*} : List α → Option α
  | [single] => some single
  | _ => none

/-- `Scoped::child`. -/
def Scoped.child (e : Scoped) (ns loc : Text) : Option Scoped := only? (e.children ns loc)

/-- Find the children of a name in the list of all child elements. -/
theorem Scoped.children_eq_filter (e : Scoped) (ns loc : Text) :
    e.children ns loc = e.nested.filter fun child => child.is ns loc := by
  unfold Scoped.children Scoped.indexedChildren Scoped.nested
  generalize e.scope = scope
  -- the indices play no part; any first index will do
  generalize 0 = start
  induction e.element.children generalizing start with
  | nil => rfl
  | cons node rest ih =>
    cases node with
    | element name attributes children =>
      by_cases his : (Scoped.mk ⟨name, attributes, children⟩ scope).is ns loc
      all_goals simpa [RichNode.element?, his] using ih (start + 1)
    | text | processingInstruction => exact ih (start + 1)

/-! ### Walks -/

mutual

/-- The elements of a node in the order of the walk. -/
def RichNode.visit (inherited : Scope) : RichNode → List Scoped
  | .element name attributes children =>
    ⟨⟨name, attributes, children⟩, inherited⟩ :: visitNodes (scopeWithin attributes inherited) children
  | .text _ => []
  | .processingInstruction _ => []

/-- The elements of a list of nodes in the order of the walk: the last node first. -/
def visitNodes (inherited : Scope) : List RichNode → List Scoped
  | [] => []
  | node :: rest => visitNodes inherited rest ++ node.visit inherited

end

/-- The elements below an element, itself first, in the order of the walk. -/
def Scoped.visit (e : Scoped) : List Scoped := e.element.node.visit e.inherited

/-- The walk of `collect`, `collect_scoped` and `count_identifier`, with fuel for each element. -/
def walkFrom (root : RichElement) (inherited : Scope) : List Scoped :=
  walk Scoped.nested (Scoped.mk root inherited).visit.length [⟨root, inherited⟩]

theorem Scoped.visit_eq (e : Scoped) : e.visit = e :: e.nested.reverse.flatMap Scoped.visit := by
  have hns : ∀ (s : Scope) (n : List RichNode), visitNodes s n =
      ((elementsOf n).map fun element => Scoped.mk element s).reverse.flatMap Scoped.visit := by
    intro s n
    induction n with
    | nil => rfl
    | cons node rest ih =>
      cases node with
      | element name attributes children =>
        simp [visitNodes, ih, Scoped.visit, RichElement.node]
      | text | processingInstruction => simp [visitNodes, ih, RichNode.visit]
  unfold Scoped.nested
  rw [← hns]
  rfl

/-- **The walk visits every element below its root.** -/
theorem walk_eq_visit (r : RichElement) (inh : Scope) :
    walkFrom r inh = (Scoped.mk r inh).visit := by
  have h := walk_eq_flatMap Scoped.visit_eq (Scoped.mk r inh).visit.length [⟨r, inh⟩] (by simp)
  simpa [walkFrom] using h

/-- `collect_scoped`. -/
def collectScoped (root : RichElement) (inherited : Scope) (ns loc : Text) : List Scoped :=
  (walkFrom root inherited).filter fun e => e.is ns loc

/-- `collect`. -/
def collect (root : RichElement) (inherited : Scope) (ns loc : Text) : List RichElement :=
  (collectScoped root inherited ns loc).map Scoped.element

/-! ### What a consumer reads -/

/-- Whether a name declares a namespace: no accessor answers for one. -/
def isDeclarationName (name : Text) : Bool :=
  name = "xmlns".toList ∨ (Text.stripPrefix "xmlns:".toList name).isSome

/-- `collapse`. -/
def collapse (text : Text) : Text :=
  [' '].intercalate ((text.splitOnP isXmlSpace).filter fun piece => piece ≠ [])

namespace Scoped

/-- `SignedElement::attribute` and `VerifiedAssertion::attribute`. -/
def ordinaryAttribute (e : Scoped) (name : Text) : Option Text :=
  if isDeclarationName name then none else e.attributeOf name

/-- `SignedElement::text_simple`. -/
def textSimple (e : Scoped) : Option Text := if e.nested = [] then some e.text else none

/-- `SignedElement::text_collapsed`. -/
def textCollapsed (e : Scoped) : Option Text := e.textSimple.map collapse

/-- `SignedElement::child_texts`. -/
def childTexts (e : Scoped) (ns loc : Text) : List (Option Text) := (e.children ns loc).map textCollapsed

/-- `SignedElement::element_children`. -/
def elementChildren (e : Scoped) : List (Text × Text) :=
  e.nested.map fun child => (child.ns.getD [], localName child.element.name)

end Scoped

/-- `VerifiedAssertion`. -/
structure VerifiedAssertion where
  signed : RichElement
  inherited : Scope

namespace VerifiedAssertion

variable (assertion : VerifiedAssertion)

/-- The signed element with the declarations around it. -/
def apex : Scoped := ⟨assertion.signed, assertion.inherited⟩

/-- `VerifiedAssertion::name`. -/
def name : Text := assertion.signed.name

/-- `VerifiedAssertion::is`. -/
def is (ns loc : Text) : Bool := assertion.apex.is ns loc

/-- `VerifiedAssertion::attribute`. -/
def attributeOf (name : Text) : Option Text := assertion.apex.ordinaryAttribute name

/-- `VerifiedAssertion::children`. -/
def children (ns loc : Text) : List Scoped := assertion.apex.children ns loc

/-- `VerifiedAssertion::child_count`. -/
def childCount (ns loc : Text) : ℕ := (assertion.apex.children ns loc).length

/-- `VerifiedAssertion::elements`. -/
def elements (ns loc : Text) : List Scoped := collectScoped assertion.signed assertion.inherited ns loc

/-- `VerifiedAssertion::text_of`. -/
def textOf (ns loc : Text) : Option Text :=
  (only? (collect assertion.signed assertion.inherited ns loc)).map fun element => textContents element.children

end VerifiedAssertion

/-! ### Chains of questions -/

/-- What an accessor can answer. -/
inductive Answer where
  | absent
  | flag (value : Bool)
  | count (value : ℕ)
  | text (value : Text)
  | optional (value : Option Text)
  | texts (value : List (Option Text))
  | names (value : List (Text × Text))
  deriving DecidableEq

/-- A question to a `SignedElement`, or to one that it leads to. -/
inductive ElementQuery where
  | attributeOf (name : Text)
  | text
  | textSimple
  | textCollapsed
  | childTexts (ns loc : Text)
  | elementChildren
  | childCount (ns loc : Text)
  | child (ns loc : Text) (index : ℕ) (next : ElementQuery)
  | elementChild (index : ℕ) (next : ElementQuery)

/-- The answer of an element. `elementChild` follows `element_children_resolved`, whose names
are those of `elementChildren`. -/
def Scoped.ask : ElementQuery → Scoped → Answer
  | .attributeOf name, e => .optional (e.ordinaryAttribute name)
  | .text, e => .text e.text
  | .textSimple, e => .optional e.textSimple
  | .textCollapsed, e => .optional e.textCollapsed
  | .childTexts ns loc, e => .texts (e.childTexts ns loc)
  | .elementChildren, e => .names e.elementChildren
  | .childCount ns loc, e => .count (e.children ns loc).length
  | .child ns loc index next, e => (((e.children ns loc)[index]?).map (ask next)).getD .absent
  | .elementChild index next, e => ((e.nested[index]?).map (ask next)).getD .absent

/-- A question to a `VerifiedAssertion`, or to an element that it leads to. -/
inductive AssertionQuery where
  | name
  | is (ns loc : Text)
  | attributeOf (name : Text)
  | childCount (ns loc : Text)
  | child (ns loc : Text) (index : ℕ) (next : ElementQuery)
  | elementCount (ns loc : Text)
  | element (ns loc : Text) (index : ℕ) (next : ElementQuery)
  | textOf (ns loc : Text)

/-- The answer of an assertion. -/
def VerifiedAssertion.ask (assertion : VerifiedAssertion) : AssertionQuery → Answer
  | .name => .text assertion.name
  | .is ns loc => .flag (assertion.is ns loc)
  | .attributeOf name => .optional (assertion.attributeOf name)
  | .childCount ns loc => .count (assertion.childCount ns loc)
  | .child ns loc index next => (((assertion.children ns loc)[index]?).map (Scoped.ask next)).getD .absent
  | .elementCount ns loc => .count (assertion.elements ns loc).length
  | .element ns loc index next => (((assertion.elements ns loc)[index]?).map (Scoped.ask next)).getD .absent
  | .textOf ns loc => .optional (assertion.textOf ns loc)

/-! ### Views -/

/-- What can be read off a view is the same on lists with the same views. -/
theorem map_eq_map_of_view {α β γ : Type*} {v : α → β} {read : α → γ}
    (h : ∀ a a2, v a = v a2 → read a = read a2) {as as2 : List α} (hv : as.map v = as2.map v) :
    as.map read = as2.map read := by
  induction as generalizing as2 with
  | nil =>
    rw [map_nil, eq_comm, map_eq_nil_iff] at hv
    rw [hv]
  | cons a as ih =>
    cases as2 with
    | nil => simp at hv
    | cons a2 as2 =>
      rw [map_cons, map_cons, List.cons.injEq] at hv
      rw [map_cons, map_cons, h a a2 hv.1, ih hv.2]

/-- What can be read of an element. -/
inductive View where
  | mk (name : Text) (ns : Option Text) (attributeOf : Text → Option Text) (text : Text) (children : List View)

namespace View

def name : View → Text
  | .mk name _ _ _ _ => name

def ns : View → Option Text
  | .mk _ ns _ _ _ => ns

def attributeOf : View → Text → Option Text
  | .mk _ _ attributeOf _ _ => attributeOf

def text : View → Text
  | .mk _ _ _ text _ => text

def children : View → List View
  | .mk _ _ _ _ children => children

/-- The element has this name in this namespace. -/
def is (view : View) (ns loc : Text) : Bool := localName view.name = loc ∧ view.ns = some ns

mutual

/-- The views below a view, itself first, in the order of the walk. -/
def visit : View → List View
  | .mk name ns attributeOf text children => .mk name ns attributeOf text children :: visitAll children

/-- The views below a list of views, the last one first. -/
def visitAll : List View → List View
  | [] => []
  | view :: rest => visitAll rest ++ view.visit

end

end View

mutual

/-- The view of a node that is an element. -/
def RichNode.views (inherited : Scope) : RichNode → List View
  | .element name attributes children =>
    [.mk name (resolve name (scopeWithin attributes inherited))
      (fun key => if isDeclarationName key then none else attributeNamed attributes key) (textContents children)
      (viewNodes (scopeWithin attributes inherited) children)]
  | .text _ => []
  | .processingInstruction _ => []

/-- The views of the elements in a list of nodes. -/
def viewNodes (inherited : Scope) : List RichNode → List View
  | [] => []
  | node :: rest => node.views inherited ++ viewNodes inherited rest

end

namespace Scoped

/-- The view of an element. -/
def view (e : Scoped) : View :=
  .mk e.element.name e.ns e.ordinaryAttribute e.text (viewNodes e.scope e.element.children)

@[simp]
theorem name_view (e : Scoped) : e.view.name = e.element.name := rfl

@[simp]
theorem ns_view (e : Scoped) : e.view.ns = e.ns := rfl

/-- The children of a view are the views of the child elements. -/
theorem children_view (e : Scoped) : e.view.children = e.nested.map view := by
  unfold nested
  show viewNodes e.scope e.element.children = _
  induction e.element.children with
  | nil => rfl
  | cons node rest ih =>
    cases node with
    | element name attributes children =>
      rw [viewNodes, ih, elementsOf_cons_element, map_cons]
      rfl
    | text | processingInstruction => simp [viewNodes, ih, RichNode.views]

theorem map_view_children (e : Scoped) (ns loc : Text) :
    (e.children ns loc).map view = e.view.children.filter fun child => child.is ns loc := by
  rw [children_eq_filter, children_view, filter_map]
  rfl

theorem map_view_visitNodes (s : Scope) (n : List RichNode) :
    (visitNodes s n).map view = View.visitAll (viewNodes s n) := by
  induction n using RichNode.forest_induction generalizing s with
  | nil => rfl
  | element name attributes children rest hch hr =>
    rw [visitNodes, map_append, hr, RichNode.visit, map_cons, hch]
    rfl
  | text c rest hr => simpa [visitNodes, viewNodes, RichNode.visit, RichNode.views] using hr s
  | processingInstruction c rest hr =>
    simpa [visitNodes, viewNodes, RichNode.visit, RichNode.views] using hr s

/-- The elements below an element have the views below its view. -/
theorem map_view_visit (e : Scoped) : e.visit.map view = e.view.visit := by
  rw [visit, RichElement.node, RichNode.visit, map_cons, map_view_visitNodes]
  rfl

theorem map_view_collectScoped (e : Scoped) (ns loc : Text) :
    (collectScoped e.element e.inherited ns loc).map view = e.view.visit.filter fun b => b.is ns loc := by
  rw [collectScoped, walk_eq_visit, ← map_view_visit, filter_map]
  rfl

/-! ### Elements of one view -/

variable {e e2 : Scoped}

section

variable (h : e.view = e2.view)

include h

/-- Elements of one view have children of the same views. -/
theorem map_view_nested_congr : e.nested.map view = e2.nested.map view := by
  rw [← children_view, ← children_view, h]

theorem map_view_children_congr (ns loc : Text) :
    (e.children ns loc).map view = (e2.children ns loc).map view := by
  rw [map_view_children, map_view_children, h]

theorem ordinaryAttribute_congr (name : Text) :
    e.ordinaryAttribute name = e2.ordinaryAttribute name :=
  congrFun (congrArg View.attributeOf h) name

theorem text_congr : e.text = e2.text := congrArg View.text h

theorem textSimple_congr : e.textSimple = e2.textSimple := by
  have hn : e.nested = [] ↔ e2.nested = [] := by
    rw [← map_eq_nil_iff (f := view), map_view_nested_congr h, map_eq_nil_iff]
  unfold textSimple
  rw [text_congr h]
  by_cases hne : e.nested = []
  · rw [if_pos hne, if_pos (hn.mp hne)]
  · rw [if_neg hne, if_neg (fun h2 => hne (hn.mpr h2))]

theorem textCollapsed_congr : e.textCollapsed = e2.textCollapsed := by
  unfold textCollapsed
  rw [textSimple_congr h]

theorem childTexts_congr (ns loc : Text) : e.childTexts ns loc = e2.childTexts ns loc :=
  map_eq_map_of_view (fun _ _ => textCollapsed_congr) (map_view_children_congr h ns loc)

theorem elementChildren_congr : e.elementChildren = e2.elementChildren := by
  refine map_eq_map_of_view ?_ (map_view_nested_congr h)
  intro child c2 hc
  rw [← ns_view, ← ns_view, ← name_view, ← name_view, hc]

end

/-- **Elements with one view answer every chain of questions alike.** -/
theorem ask_eq_of_view (q : ElementQuery) (h : e.view = e2.view) : ask q e = ask q e2 := by
  induction q generalizing e e2 with
  | attributeOf name => exact congrArg Answer.optional (ordinaryAttribute_congr h name)
  | text => exact congrArg Answer.text (text_congr h)
  | textSimple => exact congrArg Answer.optional (textSimple_congr h)
  | textCollapsed => exact congrArg Answer.optional (textCollapsed_congr h)
  | childTexts ns loc => exact congrArg Answer.texts (childTexts_congr h ns loc)
  | elementChildren => exact congrArg Answer.names (elementChildren_congr h)
  | childCount ns loc =>
    have hl := congrArg List.length (map_view_children_congr h ns loc)
    rw [length_map, length_map] at hl
    exact congrArg Answer.count hl
  | child ns loc i next ih =>
    have ha := map_eq_map_of_view (fun _ _ => ih) (map_view_children_congr h ns loc)
    simp [ask, ← List.getElem?_map, ha]
  | elementChild i next ih =>
    have ha := map_eq_map_of_view (fun _ _ => ih) (map_view_nested_congr h)
    simp [ask, ← List.getElem?_map, ha]

end Scoped

theorem only?_eq_some_iff {α : Type*} {as : List α} {a : α} : only? as = some a ↔ as = [a] := by
  rcases as with _ | ⟨b, _ | ⟨b2, as⟩⟩ <;> simp [only?]

theorem only?_map {α β : Type*} (f : α → β) (as : List α) : only? (as.map f) = (only? as).map f := by
  rcases as with _ | ⟨a, _ | ⟨a2, as⟩⟩ <;> rfl

namespace VerifiedAssertion

variable {assertion assertion2 : VerifiedAssertion}

theorem textOf_eq (assertion : VerifiedAssertion) (ns loc : Text) :
    assertion.textOf ns loc = only? ((assertion.elements ns loc).map Scoped.text) := by
  rw [textOf, collect, only?_map, only?_map, Option.map_map]
  rfl

/-- **Assertions with one view answer every chain of questions alike.** -/
theorem ask_eq_of_view (query : AssertionQuery) (h : assertion.apex.view = assertion2.apex.view) :
    assertion.ask query = assertion2.ask query := by
  have he : ∀ ns loc, (assertion.elements ns loc).map Scoped.view = (assertion2.elements ns loc).map Scoped.view := by
    intro ns loc
    have h1 := Scoped.map_view_collectScoped assertion.apex ns loc
    have h2 := Scoped.map_view_collectScoped assertion2.apex ns loc
    rw [h, ← h2] at h1
    exact h1
  cases query with
  | name => exact congrArg Answer.text (congrArg View.name h)
  | is ns loc => exact congrArg Answer.flag (congrArg (fun view => View.is view ns loc) h)
  | attributeOf name => exact congrArg Answer.optional (Scoped.ordinaryAttribute_congr h name)
  | childCount ns loc =>
    have hl := congrArg List.length (Scoped.map_view_children_congr h ns loc)
    rw [length_map, length_map] at hl
    exact congrArg Answer.count hl
  | child ns loc i next =>
    have ha := map_eq_map_of_view (fun _ _ => Scoped.ask_eq_of_view next) (Scoped.map_view_children_congr h ns loc)
    simp [ask, children, ← List.getElem?_map, ha]
  | elementCount ns loc =>
    have hl := congrArg List.length (he ns loc)
    rw [length_map, length_map] at hl
    exact congrArg Answer.count hl
  | element ns loc i next =>
    have ha := map_eq_map_of_view (fun _ _ => Scoped.ask_eq_of_view next) (he ns loc)
    simp [ask, ← List.getElem?_map, ha]
  | textOf ns loc =>
    have ht := map_eq_map_of_view (fun _ _ => Scoped.text_congr) (he ns loc)
    simp [ask, textOf_eq, ht]

end VerifiedAssertion

end IronAuth.Saml
