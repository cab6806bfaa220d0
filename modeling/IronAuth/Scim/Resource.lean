import IronAuth.Scim.Filter

/-!
# Resources, and filters on them

A resource is a JSON value. `filter_matches` evaluates a filter on it: names of attributes are
compared without regard to ASCII case, strings in lower case, and a path without a match satisfies
`ne` and nothing else.
-/

namespace IronAuth.Scim

/-- `serde_json::Value`. The fields of an object come in the order of the map. -/
inductive Json (F : Type) where
  | null
  | bool (value : Bool)
  | number (value : F)
  | string (text : Text)
  | array (items : List (Json F))
  | object (fields : List (Text × Json F))

section evaluation

variable {F : Type}

/-- The fields of an object. -/
def Json.asObject : Json F → Option (List (Text × Json F))
  | .object fields => some fields
  | _ => none

/-- `member`. -/
def Json.member (value : Json F) (name : Text) : Option (Json F) :=
  value.asObject.bind fun fields => (fields.find? fun field => Text.eqIgnoreAsciiCase field.1 name).map Prod.snd

/-- The keys under which a resource carries its extensions. -/
def extensionPrefix : Text := "urn:ietf:params:scim:schemas:extension:".toList

/-- `extension_member`. -/
def Json.extensionMember (resource : Json F) (name : Text) : Option (Json F) :=
  resource.asObject.bind fun fields =>
    let candidates := fields.filter fun field => (Text.stripPrefix extensionPrefix field.1).isSome && field.2.asObject.isSome
    (candidates.mergeSort fun field other => decide (field.1 ≤ other.1)).findSome? fun field => field.2.member name

/-- `attribute_values`. -/
def attributeValues (resource : Json F) (path : AttributePath) : List (Json F) :=
  match (resource.member path.name).or (resource.extensionMember path.name) with
  | none => []
  | some found =>
    match path.sub, found with
    | none, .array values => values
    | none, single => [single]
    | some sub, .array values => values.filterMap fun value => value.member sub
    | some sub, single => (single.member sub).toList

/-- `string_compare`, on the two strings in lower case. -/
def foldedCompare (left : Text) (op : CompareOp) (right : Text) : Bool :=
  match op with
  | .equal => left = right
  | .notEqual => left ≠ right
  | .contains => right <:+: left
  | .startsWith => right <+: left
  | .endsWith => right <:+ left
  | .greaterThan => right < left
  | .greaterOrEqual => right ≤ left
  | .lessThan => left < right
  | .lessOrEqual => left ≤ right

variable (floats : Floats F) (lowercase : Text → Text)

/-- `compare` on two numbers. -/
def numberCompare (left : F) (op : CompareOp) (right : F) : Bool :=
  match op with
  | .equal => floats.eq left right
  | .notEqual => !floats.eq left right
  | .greaterThan => floats.lt right left
  | .greaterOrEqual => floats.lt right left || floats.eq left right
  | .lessThan => floats.lt left right
  | .lessOrEqual => floats.lt left right || floats.eq left right
  | .contains => false
  | .startsWith => false
  | .endsWith => false

/-- `compare`. -/
def compareValue (found : Json F) (op : CompareOp) (literal : Value F) : Bool :=
  match found, literal with
  | .string left, .string right => foldedCompare (lowercase left) op (lowercase right)
  | .bool left, .boolean right =>
    match op with
    | .equal => left = right
    | .notEqual => left ≠ right
    | _ => false
  | .number left, .number right => numberCompare floats left op right
  | .null, .null => op = .equal
  | _, _ => op = .notEqual

/-- `matches`, which the crate exports as `filter_matches`. -/
def filterMatches : Filter F → Json F → Bool
  | .compare path op value, resource =>
    if (attributeValues resource path).isEmpty then op = .notEqual
    else (attributeValues resource path).any fun found => compareValue floats lowercase found op value
  | .present path, resource =>
    (attributeValues resource path).any fun found =>
      match found with
      | .null => false
      | _ => true
  | .valuePath path filter, resource =>
    match resource.member path.name with
    | some (.array values) => values.any (filterMatches filter)
    | some single => filterMatches filter single
    | none => false
  | .and left right, resource => filterMatches left resource && filterMatches right resource
  | .or left right, resource => filterMatches left resource || filterMatches right resource
  | .not filter, resource => !filterMatches filter resource

/-! ### Value paths -/

/-- The values of an attribute: the items of an array, or the one value. -/
def Json.values : Json F → List (Json F)
  | .array values => values
  | single => [single]

theorem attributeValues_eq (r : Json F) {p : AttributePath} (hs : p.sub = none) :
    attributeValues r p = (((r.member p.name).or (r.extensionMember p.name)).map Json.values).getD [] := by
  rw [attributeValues, hs]
  cases (r.member p.name).or (r.extensionMember p.name) with
  | none => rfl
  | some found => cases found <;> rfl

theorem filterMatches_valuePath (r : Json F) (p : AttributePath) (f : Filter F) :
    filterMatches floats lowercase (.valuePath p f) r ↔
      ∃ found ∈ r.member p.name, ∃ v ∈ found.values, filterMatches floats lowercase f v := by
  rw [filterMatches]
  cases r.member p.name with
  | none => simp
  | some found => cases found <;> simp [Json.values]

/-- A value path looks at the top level only, where a plain comparison looks into the extensions as well: the two
range over the same values unless an extension alone has some. -/
theorem valuePath_ranges_iff (r : Json F) {p : AttributePath} (hs : p.sub = none) :
    (∀ f, filterMatches floats lowercase (.valuePath p f) r ↔
        ∃ v ∈ attributeValues r p, filterMatches floats lowercase f v) ↔
      (r.member p.name).isSome ∨ ∀ found ∈ r.extensionMember p.name, found.values = [] := by
  simp only [filterMatches_valuePath, attributeValues_eq r hs]
  cases r.member p.name with
  | some found => simp
  | none =>
    cases r.extensionMember p.name with
    | none => simp
    | some found =>
      constructor
      · intro h
        -- a filter that every value satisfies
        have ht : ∀ v, filterMatches floats lowercase (.or (.present p) (.not (.present p))) v := by
          simp [filterMatches]
        have hv := h (.or (.present p) (.not (.present p)))
        simpa [ht, List.eq_nil_iff_forall_not_mem] using hv
      · intro h
        have hv : found.values = [] := by simpa using h
        simp [hv]

end evaluation

/-- A user whose manager is an attribute of the enterprise extension. -/
def managedUser (fields : List (Text × Json Unit)) : Json Unit :=
  .object [("urn:ietf:params:scim:schemas:extension:enterprise:2.0:User".toList, .object [("manager".toList, .object fields)])]

/-- `manager[value pr]` does not match a user with a manager. -/
theorem managedUser_not_matched :
    ¬ (filterMatches noFloats id (.valuePath ⟨none, "manager".toList, none⟩ (.present ⟨none, "value".toList, none⟩))
        (managedUser [("value".toList, .bool true)]) ↔
      ∃ v ∈ attributeValues (managedUser [("value".toList, .bool true)]) ⟨none, "manager".toList, none⟩,
        filterMatches noFloats id (.present ⟨none, "value".toList, none⟩) v) := by
  decide +kernel

/-- A value path over addresses at the top level. -/
theorem emails_ranged :
    filterMatches noFloats id (.valuePath ⟨none, "emails".toList, none⟩ (.present ⟨none, "value".toList, none⟩))
        (.object [("emails".toList, .array [.null])]) ↔
      ∃ v ∈ attributeValues (.object [("emails".toList, .array [.null])]) ⟨none, "emails".toList, none⟩,
        filterMatches noFloats id (.present ⟨none, "value".toList, none⟩) v :=
  (valuePath_ranges_iff noFloats id _ rfl).mpr (.inl rfl) _

end IronAuth.Scim
