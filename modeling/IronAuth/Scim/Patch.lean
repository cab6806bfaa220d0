import IronAuth.Scim.Filter

/-!
# The path of a PATCH operation

`parse_patch_path`: an attribute with an optional URN before it, an optional selector in
brackets, which is a filter, and an optional sub-attribute. The brackets are looked for first,
so that nothing inside of them decides how the rest is read.
-/

namespace IronAuth.Scim

open Lib.Fallible

/-- `PatchPath`. -/
structure PatchPath (F : Type) where
  attributeName : Text
  selector : Option (Filter F)
  subAttribute : Option Text
  deriving DecidableEq

/-- `PatchPathError`. -/
inductive PatchPathError where
  | empty
  | illegalAttribute
  | unclosedSelector
  | invalidSelector (error : FilterError)
  | trailing
  | tooLong (limit : ℕ)
  deriving DecidableEq

/-- `MAX_LEN` of a path. -/
def maxPathLen : ℕ := 1024

/-- `is_legal_attribute`. -/
def isLegalAttribute : Text → Bool
  | [] => false
  | first :: rest => (first.isAlpha || first = '$') && rest.all fun c => c.isAlphanum || c = '-' || c = '_' || c = '$'

/-- `is_legal_urn`. -/
def isLegalUrn (urn : Text) : Bool :=
  urn ≠ [] && urn.all fun c => c.isAlphanum || c = ':' || c = '.' || c = '-' || c = '_' || c = '$'

/-- `qualify`. -/
def qualify (urn : Option Text) (name : Text) : Text :=
  match urn with
  | some urn => urn ++ ':' :: name
  | none => name

/-- `split_attribute`. -/
def splitAttribute (rest : Text) : Except PatchPathError (Text × Option Text) :=
  match Text.splitOnce (· == '.') rest with
  | some (name, sub) =>
    if isLegalAttribute name && isLegalAttribute sub then .ok (name, some sub) else .error .illegalAttribute
  | none => if isLegalAttribute rest then .ok (rest, none) else .error .illegalAttribute

/-- What stands before the brackets, in them and behind them. -/
def splitSelector (trimmed : Text) : Except PatchPathError (Text × Option (Text × Text)) :=
  match Text.splitOnce (· == '[') trimmed with
  | some (head, behind) =>
    match Text.rsplitOnce (· == ']') behind with
    | some parts => .ok (head, some parts)
    | none => .error .unclosedSelector
  | none => if ']' ∈ trimmed then .error .unclosedSelector else .ok (trimmed, none)

/-- The URN before an attribute. -/
def splitUrn (head : Text) : Option Text × Text :=
  match Text.rsplitOnce (· == ':') head with
  | some (urn, name) => (some urn, name)
  | none => (none, head)

/-- What may follow the brackets. -/
def selectorTail (tail : Text) : Except PatchPathError (Option Text) :=
  match tail with
  | [] => .ok none
  | '.' :: sub => if isLegalAttribute sub then .ok (some sub) else .error .illegalAttribute
  | _ => .error .trailing

section parser

variable {F : Type} (floats : Floats F)

/-- The rest of `parse_patch_path`, behind the URN. -/
def parseTarget (urn : Option Text) (name : Text) : Option (Text × Text) → Except PatchPathError (PatchPath F)
  | none => do
    let parts ← splitAttribute name
    return ⟨qualify urn parts.1, none, parts.2⟩
  | some (selectorText, tail) => do
    refuseIf (¬ isLegalAttribute name) .illegalAttribute
    let selector ← (parseFilter floats selectorText).mapError .invalidSelector
    let sub ← selectorTail tail
    return ⟨qualify urn name, some selector, sub⟩

/-- `parse_patch_path`. -/
def parsePatchPath (raw : Text) : Except PatchPathError (PatchPath F) := do
  refuseIf (maxPathLen < Text.len raw) (.tooLong maxPathLen)
  let trimmed := Text.trimMatches ' ' raw
  refuseIf (trimmed = []) .empty
  let parts ← splitSelector trimmed
  let (urn, name) := splitUrn parts.1
  refuseIf (∃ given ∈ urn, ¬ isLegalUrn given) .illegalAttribute
  parseTarget floats urn name parts.2

end parser

end IronAuth.Scim
