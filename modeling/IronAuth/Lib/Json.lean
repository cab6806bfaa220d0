import IronAuth.Lib.SortedMap
import IronAuth.Lib.Text

/-!
# JSON values

A JSON value, with numbers of an arbitrary type. In a document every object has its fields in the
order of their keys, each key once.
-/

namespace IronAuth.Lib

inductive Json (F : Type) where
  | null
  | bool (value : Bool)
  | number (value : F)
  | string (text : Text)
  | array (items : List (Json F))
  | object (fields : List (Text × Json F))

namespace Json

variable {F : Type}

/-- The field of an object with this key. -/
def get (key : Text) : Json F → Option (Json F)
  | .object fields => fields.lookup key
  | _ => none

/-- The text of a string. -/
def asStr : Json F → Option Text
  | .string text => some text
  | _ => none

/-- The fields of an object. -/
def asObject : Json F → Option (List (Text × Json F))
  | .object fields => some fields
  | _ => none

/-- The items of an array. -/
def asArray : Json F → Option (List (Json F))
  | .array items => some items
  | _ => none

/-- The number of a number. -/
def asNumber : Json F → Option F
  | .number value => some value
  | _ => none

def isBoolean : Json F → Bool
  | .bool _ => true
  | _ => false

/-! ### Texts -/

/-- How strings and numbers are written. -/
structure Scalars (F : Type) where
  string : Text → Text
  number : F → Text

mutual

/-- The text of a value, without white space. -/
def write (scalars : Scalars F) : Json F → Text
  | .null => "null".toList
  | .bool true => "true".toList
  | .bool false => "false".toList
  | .number value => scalars.number value
  | .string text => scalars.string text
  | .array items => '[' :: (writeItems scalars items ++ [']'])
  | .object fields => '{' :: (writeFields scalars fields ++ ['}'])

/-- The items with commas between them. -/
def writeItems (scalars : Scalars F) : List (Json F) → Text
  | [] => []
  | [item] => write scalars item
  | item :: other :: items => write scalars item ++ ',' :: writeItems scalars (other :: items)

/-- The fields with commas between them. -/
def writeFields (scalars : Scalars F) : List (Text × Json F) → Text
  | [] => []
  | [(key, value)] => scalars.string key ++ ':' :: write scalars value
  | (key, value) :: other :: fields =>
    scalars.string key ++ ':' :: (write scalars value ++ ',' :: writeFields scalars (other :: fields))

end

/-! ### Equality -/

mutual

/-- Equality, up to an equality of numbers. -/
def same (numbers : F → F → Bool) : Json F → Json F → Bool
  | .null, .null => true
  | .bool value, .bool other => value == other
  | .number value, .number other => numbers value other
  | .string text, .string other => text == other
  | .array items, .array others => sameItems numbers items others
  | .object fields, .object others => sameFields numbers fields others
  | _, _ => false

/-- Equality of items, one by one. -/
def sameItems (numbers : F → F → Bool) : List (Json F) → List (Json F) → Bool
  | [], [] => true
  | item :: items, other :: others => same numbers item other && sameItems numbers items others
  | _, _ => false

/-- Equality of fields, one by one. -/
def sameFields (numbers : F → F → Bool) : List (Text × Json F) → List (Text × Json F) → Bool
  | [], [] => true
  | (key, value) :: fields, (other, value2) :: others =>
    key == other && same numbers value value2 && sameFields numbers fields others
  | _, _ => false

end

/-! ### Documents -/

/-- Every object has its fields in the order of their keys. -/
inductive Ordered : Json F → Prop where
  | null : Ordered .null
  | bool (value : Bool) : Ordered (.bool value)
  | number (value : F) : Ordered (.number value)
  | string (text : Text) : Ordered (.string text)
  | array {items : List (Json F)} : (∀ item ∈ items, Ordered item) → Ordered (.array items)
  | object {fields : List (Text × Json F)} :
    SortedMap.Ordered fields → (∀ field ∈ fields, Ordered field.2) → Ordered (.object fields)

theorem Ordered.fields {fields : List (Text × Json F)} (h : Ordered (.object fields)) : SortedMap.Ordered fields := by
  cases h with
  | object hf _ => exact hf

theorem Ordered.of_mem {fi : List (Text × Json F)} (h : Ordered (.object fi)) {f : Text × Json F}
    (hm : f ∈ fi) : Ordered f.2 := by
  cases h with
  | object _ hv => exact hv f hm

theorem Ordered.insert {f : List (Text × Json F)} (h : Ordered (.object f)) (key : Text) {v : Json F}
    (hv : Ordered v) : Ordered (.object (SortedMap.insert key v f)) := by
  refine .object (h.fields.insert key v) ?_
  intro fi hm
  rcases SortedMap.mem_insert_of_mem hm with rfl | hm
  · exact hv
  · exact h.of_mem hm

theorem Ordered.extend {fi a : List (Text × Json F)} (h : Ordered (.object fi))
    (ha : ∀ f ∈ a, Ordered f.2) : Ordered (.object (SortedMap.extend fi a)) := by
  induction a generalizing fi with
  | nil => exact h
  | cons f a ih =>
    exact ih (h.insert f.1 (ha f (List.mem_cons_self ..))) fun other hm =>
      ha other (List.mem_cons_of_mem _ hm)

end Json

/-- A value whose objects have their fields in order. -/
structure Document (F : Type) where
  value : Json F
  ordered : value.Ordered

end IronAuth.Lib
