import IronAuth.Lib.Json

/-!
# Public key sets

The key set of a client is stored as the client sent it, and a snapshot carries what is public of it: the symmetric
keys are dropped, and every member that is named as a private parameter is removed, at whatever depth. The import of a
snapshot walks a key set for the same names. The parser and the printer of JSON are parameters.
-/

namespace IronAuth.Store.Jwks

open Lib List

variable {F : Type}

/-- `PRIVATE_JWK_PARAMS`. -/
def privateJwkParams : List Text :=
  ["d".toList, "p".toList, "q".toList, "dp".toList, "dq".toList, "qi".toList, "k".toList, "oth".toList]

theorem sizeOf_field {field : Text × Json F} {fields : List (Text × Json F)} (h : field ∈ fields) :
    sizeOf field.2 < sizeOf (Json.object fields) := by
  have hs := sizeOf_lt_of_mem h
  obtain ⟨key, value⟩ := field
  simp only [Prod.mk.sizeOf_spec, Json.object.sizeOf_spec] at hs ⊢
  omega

theorem sizeOf_item {item : Json F} {items : List (Json F)} (h : item ∈ items) :
    sizeOf item < sizeOf (Json.array items) := by
  have hs := sizeOf_lt_of_mem h
  simp only [Json.array.sizeOf_spec]
  omega

/-- `strip_private_params`. -/
def stripPrivateParams : Json F → Json F
  | .object fields => .object ((fields.filter fun field => field.1 ∉ privateJwkParams).map fun field =>
      (field.1, stripPrivateParams field.2))
  | .array items => .array (items.map stripPrivateParams)
  | value => value
termination_by value => sizeOf value
decreasing_by
  · exact sizeOf_field ‹_›
  · exact sizeOf_item ‹_›

/-- The keys that are not symmetric. -/
def retainAsymmetric : Json F → Json F
  | .array keys => .array (keys.filter fun key => (key.get "kty".toList).bind Json.asStr ≠ some "oct".toList)
  | value => value

/-- The key set without its symmetric keys. -/
def dropSymmetric : Json F → Json F
  | .object fields =>
    .object (fields.map fun field => if field.1 = "keys".toList then (field.1, retainAsymmetric field.2) else field)
  | value => value

structure SnapshotViolation where
  path : Text
  message : Text

/-- `scan_private_params`. -/
def scanPrivateParams (path : Text) : Json F → List SnapshotViolation
  | .object fields =>
    (privateJwkParams.filter fun param => (fields.lookup param).isSome).map (fun param =>
      ⟨path ++ '/' :: param, "private JWK parameter \"".toList ++ param ++
        "\" in a snapshot; only public verification keys may appear".toList⟩) ++
      fields.flatMap fun field => scanPrivateParams (path ++ '/' :: field.1) field.2
  | .array items => (items.attach.mapIdx fun index item =>
      scanPrivateParams (path ++ '/' :: Nat.toDigits 10 index) item.1).flatten
  | _ => []
termination_by value => sizeOf value
decreasing_by
  · exact sizeOf_field ‹_›
  · exact sizeOf_item item.2

section serde

variable (parse : Text → Option (Json F)) (display : Json F → Text)

/-- `project_jwks_public`. -/
def projectJwksPublic (jwks : Option Text) : Option Text := do
  let text ← jwks
  let value ← parse text
  return display (stripPrivateParams (dropSymmetric value))

/-- `reject_private_jwk`. -/
def rejectPrivateJwk (jwks : Json F) (path : Text) : List SnapshotViolation :=
  match jwks.asStr with
  | none => [⟨path, "jwks must be a JSON string".toList⟩]
  | some text =>
    match parse text with
    | none => [⟨path, "jwks is not valid JSON".toList⟩]
    | some parsed => scanPrivateParams path parsed

end serde

/-! ### What is left -/

/-- A walk that removes members by their names alone, everywhere, and nothing else. -/
structure RemovesPrivate (strip : Json F → Json F) : Prop where
  object : ∀ fields, strip (.object fields) =
    .object ((fields.filter fun field => field.1 ∉ privateJwkParams).map fun field => (field.1, strip field.2))
  array : ∀ items, strip (.array items) = .array (items.map strip)
  scalar : ∀ value, value.asObject = none → value.asArray = none → strip value = value

theorem removesPrivate_strip : RemovesPrivate (stripPrivateParams (F := F)) where
  object fields := by rw [stripPrivateParams]
  array items := by rw [stripPrivateParams]
  scalar value ho ha := by
    cases value with
    | object | array => simp_all [Json.asObject, Json.asArray]
    | _ => simp [stripPrivateParams]

theorem lookup_strip {key : Text} (h : key ∉ privateJwkParams) (fields : List (Text × Json F)) :
    ((fields.filter fun field => field.1 ∉ privateJwkParams).map fun field =>
      (field.1, stripPrivateParams field.2)).lookup key = (fields.lookup key).map stripPrivateParams := by
  induction fields with
  | nil => rfl
  | cons field fields ih =>
    obtain ⟨other, value⟩ := field
    by_cases hk : key = other
    · simp [← hk, h]
    · have hb : (key == other) = false := beq_false_of_ne hk
      rw [lookup_cons, hb, ← ih]
      by_cases hp : other ∈ privateJwkParams <;> simp [lookup_cons, hb, hp]

/-- Stripping a key does not change its type. -/
theorem kty_strip (key : Json F) : ((stripPrivateParams key).get "kty".toList).bind Json.asStr =
    (key.get "kty".toList).bind Json.asStr := by
  fun_cases stripPrivateParams key with
  | case1 fields =>
    rw [Json.get, Json.get, lookup_strip (by decide)]
    cases fields.lookup "kty".toList with
    | none => rfl
    | some value => fun_cases stripPrivateParams value <;> simp [stripPrivateParams, Json.asStr, *]
  | case2 | case3 => rfl

theorem scan_strip (value : Json F) (path : Text) : scanPrivateParams path (stripPrivateParams value) = [] := by
  fun_induction stripPrivateParams value generalizing path with
  | case1 fields ih =>
    rw [scanPrivateParams, append_eq_nil_iff, map_eq_nil_iff, filter_eq_nil_iff, flatMap_eq_nil_iff]
    refine ⟨fun param hp => by simp [hp], fun field hm => ?_⟩
    obtain ⟨kept, hk, rfl⟩ := mem_map.mp hm
    exact ih kept (mem_of_mem_filter hk) _
  | case2 items ih =>
    rw [scanPrivateParams, flatten_eq_nil_iff]
    intro found hm
    obtain ⟨index, hi, rfl⟩ := mem_mapIdx.mp hm
    obtain ⟨item, him, he⟩ := mem_map.mp (items.map stripPrivateParams).attach[index].2
    rw [← he]
    exact ih item him _
  | case3 value ho ha => cases value <;> simp_all [scanPrivateParams]

theorem strip_strip (value : Json F) : stripPrivateParams (stripPrivateParams value) = stripPrivateParams value := by
  fun_induction stripPrivateParams value with
  | case1 fields ih =>
    rw [stripPrivateParams, filter_map, filter_filter, map_map]
    simp only [Function.comp_def, Bool.and_self]
    exact congrArg _ (map_congr_left fun field hm => Prod.ext rfl (ih field (mem_of_mem_filter hm)))
  | case2 items ih =>
    rw [stripPrivateParams, map_map]
    exact congrArg _ (map_congr_left ih)
  | case3 value ho ha => rw [stripPrivateParams] <;> assumption

/-- The symmetric keys are gone after the rest was stripped, too. -/
theorem drop_strip_drop (value : Json F) : dropSymmetric (stripPrivateParams (dropSymmetric value)) =
    stripPrivateParams (dropSymmetric value) := by
  have hr : ∀ keys : Json F, retainAsymmetric (stripPrivateParams (retainAsymmetric keys)) =
      stripPrivateParams (retainAsymmetric keys) := by
    intro keys
    cases keys with
    | array keys =>
      rw [retainAsymmetric, stripPrivateParams, retainAsymmetric, filter_map, filter_filter]
      simp only [Function.comp_def, kty_strip, Bool.and_self]
    | _ => simp [retainAsymmetric, stripPrivateParams]
  cases value with
  | object fields =>
    rw [dropSymmetric, stripPrivateParams, dropSymmetric]
    refine congrArg _ ((map_congr_left fun field hm => ?_).trans (map_id _))
    obtain ⟨kept, hk, rfl⟩ := mem_map.mp hm
    obtain ⟨stored, -, rfl⟩ := mem_map.mp (mem_of_mem_filter hk)
    split_ifs <;> simp_all
  | _ => simp [dropSymmetric, stripPrivateParams]

/-- **A projected key set is taken by the import, is its own projection, and is what was stored without its symmetric
keys and its private parameters.** -/
theorem projectJwksPublic_spec {parse : Text → Option (Json F)} {display : Json F → Text} {text : Text} {stored : Json F}
    (hstored : parse text = some stored) (hround : ∀ value, value = stripPrivateParams (dropSymmetric stored) →
      parse (display value) = some value) :
    ∃ out, projectJwksPublic parse display (some text) = some out ∧
      (∀ path, rejectPrivateJwk parse (.string out) path = []) ∧ projectJwksPublic parse display (some out) = some out ∧
        ∃ strip, RemovesPrivate strip ∧ parse out = some (strip (dropSymmetric stored)) := by
  have hout := hround _ rfl
  refine ⟨_, by simp [projectJwksPublic, hstored], fun path => ?_, ?_, _, removesPrivate_strip, hout⟩
  · simp only [rejectPrivateJwk, Json.asStr, hout]
    exact scan_strip _ path
  · simp [projectJwksPublic, hout, drop_strip_drop, strip_strip]

/-- A shared secret, and a private exponent beside it. -/
def leakedKeys : Json ℕ :=
  .object [("d".toList, .null), ("keys".toList, .array [.object [("kty".toList, .string "oct".toList)]])]

theorem leakedKeys_projected :
    let parse (text : Text) := some (if text = [] then leakedKeys else stripPrivateParams (dropSymmetric leakedKeys))
    ∃ out, projectJwksPublic parse (fun _ => ['p']) (some []) = some out ∧
      ∀ path, rejectPrivateJwk parse (.string out) path = [] := by
  intro parse
  obtain ⟨out, ho, hr, -⟩ := @projectJwksPublic_spec _ parse (fun _ => ['p']) [] leakedKeys rfl fun _ hv => hv ▸ rfl
  exact ⟨out, ho, hr⟩

end IronAuth.Store.Jwks
