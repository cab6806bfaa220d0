import IronAuth.Lib.Fallible
import IronAuth.Lib.Json

/-!
# Trait schemas

The schemas of identity traits: a bounded part of JSON Schema, compiled once and then evaluated on
documents. `compile` checks that a schema is well formed, `validate` lists what is wrong with a
document, each failure under the JSON Pointer of the value that it is about, and `annotations` reads
which top-level members are for administrators only.

The depth of the recursion is bounded by `MAX_DEPTH` in the source; here the functions count the
levels that are left. Numbers, the floats that they are read as, the parser and the printer of JSON
are those of `serde_json` and are parameters. The other annotations (login identifiers, addresses to
verify, channels of recovery) are left out.
-/

namespace IronAuth.Store.Traits

open Lib Lib.Fallible List

/-- What `serde_json` does, with numbers of a type `F` that are read as floats of a type `R`. -/
structure Serde (F R : Type) where
  /-- `from_str`, with the text of the error. -/
  parse : Text → Except Text (Document F)
  /-- The text of a value. -/
  display : Json F → Text
  same : F → F → Bool
  asI64 : F → Option ℤ
  asU64 : F → Option ℕ
  asF64 : F → Option R
  lt : R → R → Bool
  /-- The float has no fractional part and is finite. -/
  isIntegral : R → Bool
  displayFloat : R → Text

/-- `MAX_DEPTH`. -/
def maxDepth : ℕ := 32

/-- `ANNOTATION_KEYWORD`. -/
def annotationKeyword : Text := "x-ironauth".toList

structure SchemaError where
  pointer : Text
  message : Text
  deriving DecidableEq

structure ValidationFailure where
  pointer : Text
  message : Text
  deriving DecidableEq

/-- `escape_token`. -/
def escapeToken (token : Text) : Text :=
  (token.flatMap fun c => if c = '~' then ['~', '0'] else [c]).flatMap fun c => if c = '/' then ['~', '1'] else [c]

/-- `push_token`. -/
def pushToken (pointer token : Text) : Text := pointer ++ '/' :: escapeToken token

/-- `KNOWN_TYPES`. -/
def knownTypes : List Text :=
  ["object".toList, "array".toList, "string".toList, "number".toList, "integer".toList, "boolean".toList, "null".toList]

section schema

variable {F R : Type} (serde : Serde F R)

/-- `as_u64` of a value. -/
def asU64 (value : Json F) : Option ℕ := value.asNumber.bind serde.asU64

/-- `as_f64` of a value. -/
def asF64 (value : Json F) : Option R := value.asNumber.bind serde.asF64

/-! ### Well-formed schemas -/

/-- One entry of a `type` array: the names that were seen, and whether all is well so far. -/
def checkTypeName (state : List Text × Bool) (entry : Json F) : List Text × Bool :=
  match entry.asStr with
  | some name => if name ∈ knownTypes ∧ name ∉ state.1 then (name :: state.1, state.2) else (state.1, false)
  | none => (state.1, false)

/-- `check_type_keyword`. -/
def checkTypeKeyword (pointer : Text) (typeValue : Json F) : Except SchemaError Unit :=
  let error : Text → SchemaError := fun message => ⟨pushToken pointer "type".toList, message⟩
  match typeValue with
  | .string name =>
    refuseIf (name ∉ knownTypes) (error "\"type\" must be a known type name or an array of them".toList)
  | .array names =>
    refuseIf (¬ (names.foldl checkTypeName ([], !names.isEmpty)).2)
      (error "\"type\" array must hold distinct known type names".toList)
  | _ => .error (error "\"type\" must be a known type name or an array of them".toList)

/-- `check_string_array`. -/
def checkStringArray (keyword pointer : Text) (value : Json F) : Except SchemaError Unit :=
  refuseIf (¬ (value.asArray.any fun items => items.all fun item => item.asStr.isSome))
    ⟨pushToken pointer keyword, "\"".toList ++ keyword ++ "\" must be an array of strings".toList⟩

variable (map : List (Text × Json F))

/-- `check_scalar_keywords`. -/
def checkScalarKeywords (pointer : Text) : Except SchemaError Unit := do
  refuseIf ((map.lookup "enum".toList).any fun values => (values.asArray.getD []).isEmpty)
    ⟨pushToken pointer "enum".toList, "\"enum\" must be a non-empty array".toList⟩
  ["minLength".toList, "maxLength".toList, "minItems".toList, "maxItems".toList].forM fun keyword =>
    refuseIf ((map.lookup keyword).any fun value => (asU64 serde value).isNone)
      ⟨pushToken pointer keyword, "\"".toList ++ keyword ++ "\" must be a non-negative integer".toList⟩
  ["minimum".toList, "maximum".toList].forM fun keyword =>
    refuseIf ((map.lookup keyword).any fun value => value.asNumber.isNone)
      ⟨pushToken pointer keyword, "\"".toList ++ keyword ++ "\" must be a number".toList⟩

/-- `check_schema_wellformed`, with the number of levels that are left. -/
def checkSchemaWellformed : ℕ → Json F → Text → Bool → Except SchemaError Unit
  | 0, _, pointer, _ => .error ⟨pointer, "schema nesting exceeds the maximum depth of 32".toList⟩
  | levels + 1, .object map, pointer, annotatable => do
    refuseIf (annotatable = false ∧ (map.lookup annotationKeyword).isSome)
      ⟨pushToken pointer annotationKeyword,
        "\"x-ironauth\" is only read on a TOP-LEVEL property of the schema root, ".toList ++
          "so it is refused here rather than accepted and ignored".toList⟩
    (map.lookup "type".toList).toList.forM (checkTypeKeyword pointer)
    (map.lookup "properties".toList).toList.forM fun props =>
      match props.asObject with
      | none => .error ⟨pushToken pointer "properties".toList, "\"properties\" must be an object".toList⟩
      | some props =>
        -- the members of the root, and only they, may carry an annotation
        props.forM fun property =>
          checkSchemaWellformed levels property.2 (pushToken (pushToken pointer "properties".toList) property.1)
            (levels = maxDepth)
    (map.lookup "required".toList).toList.forM (checkStringArray "required".toList pointer)
    ((map.lookup "additionalProperties".toList).filter fun additional => !additional.isBoolean).toList.forM
      fun additional =>
        checkSchemaWellformed levels additional (pushToken pointer "additionalProperties".toList) false
    (map.lookup "items".toList).toList.forM fun items =>
      checkSchemaWellformed levels items (pushToken pointer "items".toList) false
    (map.lookup "prefixItems".toList).toList.forM fun items =>
      match items.asArray with
      | none => .error ⟨pushToken pointer "prefixItems".toList, "\"prefixItems\" must be an array of schemas".toList⟩
      | some items =>
        items.zipIdx.forM fun item =>
          checkSchemaWellformed levels item.1
            (pushToken (pushToken pointer "prefixItems".toList) (Nat.toDigits 10 item.2)) false
    checkScalarKeywords serde map pointer
  | _ + 1, .bool _, _, _ => .ok ()
  | _ + 1, _, pointer, _ => .error ⟨pointer, "a schema must be an object or a boolean".toList⟩

/-- A compiled schema. -/
structure TraitSchema where
  root : Json F
  wellformed : checkSchemaWellformed serde (maxDepth + 1) root [] true = .ok ()

/-- `TraitSchema::compile`. -/
def TraitSchema.compile (schemaJson : Text) : Except SchemaError (TraitSchema serde) :=
  match serde.parse schemaJson with
  | .error err => .error ⟨[], "schema is not valid JSON: ".toList ++ err⟩
  | .ok document =>
    match h : checkSchemaWellformed serde (maxDepth + 1) document.value [] true with
    | .error error => .error error
    | .ok () => .ok ⟨document.value, h⟩

/-! ### Validation -/

/-- `type_name_matches`. -/
def typeNameMatches (value : Json F) (name : Text) : Bool :=
  match value with
  | .object _ => name = "object".toList
  | .array _ => name = "array".toList
  | .string _ => name = "string".toList
  | .bool _ => name = "boolean".toList
  | .null => name = "null".toList
  | .number number =>
    decide (name = "number".toList) ||
      decide (name = "integer".toList) &&
        ((serde.asI64 number).isSome || (serde.asU64 number).isSome || (serde.asF64 number).any serde.isIntegral)

/-- `type_matches`. -/
def typeMatches (typeValue value : Json F) : Bool :=
  match typeValue with
  | .string name => typeNameMatches serde value name
  | .array names => (names.filterMap Json.asStr).any (typeNameMatches serde value)
  | _ => true

/-- The names that a schema requires. -/
def requiredNames : List Text :=
  (((map.lookup "required".toList).bind Json.asArray).getD []).filterMap Json.asStr

/-- The properties that a schema declares. -/
def properties (map : List (Text × Json F)) : List (Text × Json F) :=
  ((map.lookup "properties".toList).bind Json.asObject).getD []

/-- The failures of required members. -/
def requiredFailures (fields : List (Text × Json F)) (pointer : Text) : List ValidationFailure :=
  ((requiredNames map).filter fun name => (fields.lookup name).isNone).map fun name =>
    ⟨pushToken pointer name, "required field is missing".toList⟩

section nodes

-- the validation of a member, one level down
variable (child : Json F → Json F → Text → List ValidationFailure)

variable (map : List (Text × Json F))

/-- The failures of declared members. -/
def propertyFailures (fields : List (Text × Json F)) (pointer : Text) : List ValidationFailure :=
  (properties map).flatMap fun property =>
    ((fields.lookup property.1).map fun value => child property.2 value (pushToken pointer property.1)).getD []

/-- The failures of members that are not declared. -/
def additionalFailures (fields : List (Text × Json F)) (pointer : Text) : List ValidationFailure :=
  let undeclared := fields.filter fun field => ((properties map).lookup field.1).isNone
  match map.lookup "additionalProperties".toList with
  | none => []
  | some (.bool true) => []
  | some (.bool false) =>
    undeclared.map fun field => ⟨pushToken pointer field.1, "additional field is not permitted".toList⟩
  | some subschema => undeclared.flatMap fun field => child subschema field.2 (pushToken pointer field.1)

/-- `validate_object`. -/
def validateObject (fields : List (Text × Json F)) (pointer : Text) : List ValidationFailure :=
  requiredFailures map fields pointer ++ propertyFailures child map fields pointer ++
    additionalFailures child map fields pointer

/-- `validate_array`. -/
def validateArray (items : List (Json F)) (pointer : Text) : List ValidationFailure :=
  let start := ((map.lookup "prefixItems".toList).bind Json.asArray).getD []
  let place : ℕ → Text := fun index => pushToken pointer (Nat.toDigits 10 index)
  (start.zip items).zipIdx.flatMap (fun item => child item.1.1 item.1.2 (place item.2)) ++
    ((map.lookup "items".toList).map fun schema =>
      (items.zipIdx.drop start.length).flatMap fun item => child schema item.1 (place item.2)).getD [] ++
    (((map.lookup "minItems".toList).bind (asU64 serde)).filter (items.length < ·)).toList.map
      (fun min => ⟨pointer, "array has fewer than ".toList ++ Nat.toDigits 10 min ++ " items".toList⟩) ++
    (((map.lookup "maxItems".toList).bind (asU64 serde)).filter (· < items.length)).toList.map fun max =>
      ⟨pointer, "array has more than ".toList ++ Nat.toDigits 10 max ++ " items".toList⟩

end nodes

/-- `validate_string`. -/
def validateString (text pointer : Text) : List ValidationFailure :=
  (((map.lookup "minLength".toList).bind (asU64 serde)).filter (text.length < ·)).toList.map
      (fun min => ⟨pointer, "string is shorter than ".toList ++ Nat.toDigits 10 min ++ " characters".toList⟩) ++
    (((map.lookup "maxLength".toList).bind (asU64 serde)).filter (· < text.length)).toList.map fun max =>
      ⟨pointer, "string is longer than ".toList ++ Nat.toDigits 10 max ++ " characters".toList⟩

/-- `validate_number`. -/
def validateNumber (number : F) (pointer : Text) : List ValidationFailure :=
  match serde.asF64 number with
  | none => []
  | some value =>
    (((map.lookup "minimum".toList).bind (asF64 serde)).filter (serde.lt value)).toList.map
        (fun min => ⟨pointer, "value is less than the minimum ".toList ++ serde.displayFloat min⟩) ++
      (((map.lookup "maximum".toList).bind (asF64 serde)).filter fun max => serde.lt max value).toList.map fun max =>
        ⟨pointer, "value is greater than the maximum ".toList ++ serde.displayFloat max⟩

/-- The failure of `enum`. -/
def enumFailures (value : Json F) (pointer : Text) : List ValidationFailure :=
  if ((map.lookup "enum".toList).bind Json.asArray).any fun values => !values.any fun candidate =>
      Json.same serde.same candidate value then
    [⟨pointer, "value is not one of the permitted values".toList⟩]
  else []

/-- `validate_node`, with the number of levels that are left. -/
def validateNode : ℕ → Json F → Json F → Text → List ValidationFailure
  | 0, _, _, pointer => [⟨pointer, "value nesting exceeds the maximum depth".toList⟩]
  | levels + 1, .object map, value, pointer =>
    match (map.lookup "type".toList).filter fun typeValue => !typeMatches serde typeValue value with
    | some typeValue => [⟨pointer, "value does not match the required type ".toList ++ serde.display typeValue⟩]
    | none =>
      enumFailures serde map value pointer ++
        match value with
        | .object fields => validateObject (validateNode levels) map fields pointer
        | .array items => validateArray serde (validateNode levels) map items pointer
        | .string text => validateString serde map text pointer
        | .number number => validateNumber serde map number pointer
        | _ => []
  | _ + 1, .bool false, _, pointer => [⟨pointer, "no value is permitted here".toList⟩]
  | _ + 1, _, _, _ => []

variable {serde}

/-- `TraitSchema::validate`. -/
def TraitSchema.validate (schema : TraitSchema serde) (value : Json F) : List ValidationFailure :=
  validateNode serde (maxDepth + 1) schema.root value []

/-! ### Annotations -/

/-- A member that is marked for administrators only. -/
def isMarkedAdmin (subschema : Json F) : Bool :=
  (((subschema.get annotationKeyword).filter fun marks => marks.asObject.isSome).bind fun marks =>
    (marks.get "visibility".toList).bind Json.asStr) = some "admin".toList

/-- The part of `TraitSchema::annotations` that tells what is for administrators only. -/
def TraitSchema.adminOnly (schema : TraitSchema serde) : List Text :=
  ((((schema.root.get "properties".toList).bind Json.asObject).getD []).filter fun property => isMarkedAdmin property.2).map
    Prod.fst

/-- `is_admin_only`. -/
def TraitSchema.isAdminOnly (schema : TraitSchema serde) (field : Text) : Bool := field ∈ schema.adminOnly

end schema

section lemmas

variable {F : Type} {child : Json F → Json F → Text → List ValidationFailure} {map fields others : List (Text × Json F)}
  {pointer : Text}

/-- Two objects that agree on the members that are not hidden. -/
def SameVisible (hidden : Text → Bool) (fields others : List (Text × Json F)) : Prop :=
  (fields.filter fun field => !hidden field.1) = others.filter fun field => !hidden field.1

variable {hidden : Text → Bool}

section

variable (h : SameVisible hidden fields others)

include h

theorem SameVisible.lookup_eq {name : Text} (hn : hidden name = false) :
    fields.lookup name = others.lookup name := by
  have hk : (!hidden name) = true := by rw [hn]; rfl
  have hf := fun l : List (Text × Json F) => SortedMap.lookup_filter (p := fun name => !hidden name) hk l
  rw [← hf fields, ← hf others, h]

theorem requiredFailures_congr
    (hr : ∀ name ∈ requiredNames map, hidden name = true → (fields.lookup name).isSome ∧ (others.lookup name).isSome) :
    requiredFailures map fields pointer = requiredFailures map others pointer := by
  unfold requiredFailures
  congr 1
  refine filter_congr fun name hm => ?_
  cases hn : hidden name with
  | false => rw [h.lookup_eq hn]
  | true =>
    obtain ⟨hf, ho⟩ := hr name hm hn
    rw [Option.isNone_eq_false_iff.mpr hf, Option.isNone_eq_false_iff.mpr ho]

theorem propertyFailures_congr
    (hr : ∀ p ∈ properties map, hidden p.1 = true → ∀ value,
      fields.lookup p.1 = some value ∨ others.lookup p.1 = some value →
      child p.2 value (pushToken pointer p.1) = []) :
    propertyFailures child map fields pointer = propertyFailures child map others pointer := by
  refine flatMap_congr fun p hm => ?_
  cases hn : hidden p.1 with
  | false => rw [h.lookup_eq hn]
  | true =>
    have hni : ∀ found : Option (Json F), found = fields.lookup p.1 ∨ found = others.lookup p.1 →
        (found.map fun value => child p.2 value (pushToken pointer p.1)).getD [] = [] := by
      rintro (_ | value) hfd
      · rfl
      · exact hr p hm hn value (hfd.imp Eq.symm Eq.symm)
    rw [hni _ (.inl rfl), hni _ (.inr rfl)]

theorem additionalFailures_congr
    (hd : ∀ name, hidden name = true → ((properties map).lookup name).isSome) :
    additionalFailures child map fields pointer = additionalFailures child map others pointer := by
  -- an undeclared member is not hidden
  have hv : ∀ entries : List (Text × Json F),
      (entries.filter fun f => ((properties map).lookup f.1).isNone) =
        (entries.filter fun f => !hidden f.1).filter fun f => ((properties map).lookup f.1).isNone := by
    intro entries
    rw [filter_filter]
    refine filter_congr fun f _ => ?_
    cases hn : hidden f.1 with
    | false => simp
    | true => simp [Option.isNone_eq_false_iff.mpr (hd _ hn)]
  unfold additionalFailures
  rw [hv fields, hv others, h]

/-- **What is wrong with an object does not depend on members that are declared, present where they are required,
and right by themselves.** -/
theorem validateObject_congr
    (hd : ∀ name, hidden name = true → ((properties map).lookup name).isSome)
    (hre : ∀ name ∈ requiredNames map, hidden name = true → (fields.lookup name).isSome ∧ (others.lookup name).isSome)
    (hr : ∀ p ∈ properties map, hidden p.1 = true → ∀ value,
      fields.lookup p.1 = some value ∨ others.lookup p.1 = some value →
      child p.2 value (pushToken pointer p.1) = []) :
    validateObject child map fields pointer = validateObject child map others pointer := by
  unfold validateObject
  rw [requiredFailures_congr h hre, propertyFailures_congr h hr, additionalFailures_congr h hd]

end

/-- Nothing is wrong with a valid object's members. -/
theorem of_validateObject_eq_nil (h : validateObject child map fields pointer = []) :
    (∀ name ∈ requiredNames map, (fields.lookup name).isSome) ∧
      ∀ p ∈ properties map, ∀ value, fields.lookup p.1 = some value →
        child p.2 value (pushToken pointer p.1) = [] := by
  obtain ⟨h, -⟩ := append_eq_nil_iff.mp h
  obtain ⟨hr, hp⟩ := append_eq_nil_iff.mp h
  constructor
  · intro name hm
    have := filter_eq_nil_iff.mp (map_eq_nil_iff.mp hr) name hm
    simpa [Option.isSome_iff_ne_none] using this
  · intro p hm value hv
    have := flatMap_eq_nil_iff.mp hp p hm
    rwa [hv] at this

variable {R : Type} {serde : Serde F R}

/-- **An admin-only member is declared in the root of the schema.** -/
theorem isAdminOnly_declared {s : TraitSchema serde} {n : Text} (h : s.isAdminOnly n = true)
    {map : List (Text × Json F)} (hr : s.root = .object map) : ((properties map).lookup n).isSome := by
  simp only [TraitSchema.isAdminOnly, TraitSchema.adminOnly, hr, decide_eq_true_eq] at h
  obtain ⟨p, hm, rfl⟩ := mem_map.mp h
  rw [lookup_isSome_iff]
  exact ⟨p, (mem_filter.mp hm).1, beq_self_eq_true _⟩

end lemmas

end IronAuth.Store.Traits
