import IronAuth.Lib.Fallible
import IronAuth.Lib.Text

/-!
# Events, and the rules on them

The SAML crate reads a document as the events of a tokenizer and holds every event to one
set of rules, `check_document_event` and the rules on names, references and attribute
values. Both readers of the crate run them.

The tokenizer is third-party code. Its output is a list of tokens, where `none` is an error
of the tokenizer and the end of the list is the end of the file; the iterator over the
attributes of a tag is a list of the same kind. A text is the list of its characters, and
the bytes that the source looks for (`<`, `&`, `;`) are characters of their own in UTF-8.

## What is proved

* `resolveReference_of_check`, `decodeAttribute_of_check`: what the rules accept can be decoded.
-/

namespace IronAuth.Saml

open Lib.Fallible

/-! ### Errors, bounds, events -/

/-- `Limits`. -/
structure Limits where
  maxBytes : ℕ
  maxDepth : ℕ
  maxElements : ℕ
  maxAttributes : ℕ
  maxNameBytes : ℕ

/-- `Limits::default`. -/
def Limits.default : Limits where
  maxBytes := 1024 * 1024
  maxDepth := 64
  maxElements := 10000
  maxAttributes := 128
  maxNameBytes := 256

/-- `SamlError`. -/
inductive SamlError where
  | doctypeForbidden
  | tooLarge
  | tooDeep
  | tooManyElements
  | elementTooLarge
  | encodingNotUtf8
  | unknownEntity
  | malformed
  deriving DecidableEq, Repr

/-- `DEPTH_CEILING`. -/
def depthCeiling : ℕ := 512

/-- The depth a reader accepts: the caller's, clamped. -/
def Limits.depth (limits : Limits) : ℕ := min limits.maxDepth depthCeiling

/-- A start tag: the raw name, and what the iterator over its attributes gives. -/
structure StartTag where
  name : Text
  attributes : List (Option (Text × Text))
  deriving DecidableEq

/-- The events of the tokenizer. The encoding of a declaration may be absent (`none`) or
unreadable (`some none`). -/
inductive Event where
  | start (tag : StartTag)
  | empty (tag : StartTag)
  | endTag
  | text (content : Text)
  | cData (content : Text)
  | comment (content : Text)
  | decl (encoding : Option (Option Text))
  | pi (content : Text)
  | docType (content : Text)
  | generalRef (name : Text)
  deriving DecidableEq

/-- What one call of `read_event` gives before the end of the file. -/
abbrev Token := Option Event

/-! ### Characters -/

/-- The tables of `char` that the rules on names consult beyond ASCII. -/
structure CharTables where
  isAlphabetic : Char → Bool
  isNumeric : Char → Bool

variable (tables : CharTables) (name : Text) (c : Char)

/-- `is_xml_space`. -/
def isXmlSpace : Bool := c = ' ' || c = '\t' || c = '\r' || c = '\n'

/-- `is_forbidden_char`. -/
def isForbiddenChar : Bool :=
  c.toNat ≤ 0x8 || c.toNat = 0xb || c.toNat = 0xc || (0xe ≤ c.toNat && c.toNat ≤ 0x1f) || c.toNat = 0xfffe ||
    c.toNat = 0xffff

/-- `char::is_ascii`. -/
def isAscii : Bool := c.toNat < 0x80

/-- `char::is_whitespace`. -/
def isWhitespace : Bool :=
  (0x9 ≤ c.toNat && c.toNat ≤ 0xd) || c.toNat = 0x20 || c.toNat = 0x85 || c.toNat = 0xa0 || c.toNat = 0x1680 ||
    (0x2000 ≤ c.toNat && c.toNat ≤ 0x200a) || c.toNat = 0x2028 || c.toNat = 0x2029 || c.toNat = 0x202f ||
    c.toNat = 0x205f || c.toNat = 0x3000

/-- `char::is_control`. -/
def isControl : Bool := c.toNat ≤ 0x1f || (0x7f ≤ c.toNat && c.toNat ≤ 0x9f)

/-- `is_name_start`. -/
def isNameStart : Bool :=
  if isAscii c then c.isAlpha || c = '_' || c = ':' else tables.isAlphabetic c

/-- `is_name_char`. -/
def isNameChar : Bool :=
  if isAscii c then c.isAlphanum || c = '-' || c = '.' || c = '_' || c = ':'
  else if isWhitespace c || isControl c || isForbiddenChar c then false
  else
    (tables.isAlphabetic c || tables.isNumeric c) || c.toNat = 0xb7 || (0x300 ≤ c.toNat && c.toNat ≤ 0x36f) ||
      c.toNat = 0x203f || c.toNat = 0x2040

/-! ### References -/

/-- The value of a digit in any radix up to sixteen. -/
def digitValue : ℕ :=
  if c.isDigit then c.toNat - '0'.toNat
  else if 'a' ≤ c ∧ c ≤ 'f' then c.toNat - 'a'.toNat + 10
  else c.toNat - 'A'.toNat + 10

/-- `is_ascii_digit` and `is_ascii_hexdigit`. -/
def isDigitIn (radix : ℕ) (c : Char) : Bool :=
  if radix = 16 then c.isDigit || ('a' ≤ c && c ≤ 'f') || ('A' ≤ c && c ≤ 'F') else c.isDigit

/-- The number that a text of digits writes. -/
def numeral (radix : ℕ) (digits : Text) : ℕ := digits.foldl (fun n c => n * radix + digitValue c) 0

/-- `u32::from_str_radix`, which takes a leading `+` as well. -/
def fromStrRadix (text : Text) (radix : ℕ) : Option ℕ :=
  let digits := (Text.stripPrefix ['+'] text).getD text
  if digits ≠ [] ∧ digits.all (isDigitIn radix) ∧ numeral radix digits < 2 ^ 32 then some (numeral radix digits) else none

/-- `char::from_u32`. -/
def charFromU32 (code : ℕ) : Option Char := if code.isValidChar then some (Char.ofNat code) else none

/-- The digits of a numeric reference, with their radix. -/
def radixOf (digits : Text) : Text × ℕ :=
  match Text.stripPrefix ['x'] digits with
  | some hex => (hex, 16)
  | none => (digits, 10)

/-- The character that a predefined entity names. -/
def builtIn : Option Char :=
  if name = "amp".toList then some '&'
  else if name = "lt".toList then some '<'
  else if name = "gt".toList then some '>'
  else if name = "quot".toList then some '"'
  else if name = "apos".toList then some '\''
  else none

/-- `check_reference`. -/
def checkReference : Except SamlError Unit :=
  match builtIn name with
  | some _ => .ok ()
  | none =>
    match Text.stripPrefix ['#'] name with
    | none => .error .unknownEntity
    | some digits =>
      let (digits, radix) := radixOf digits
      if digits = [] then .error .unknownEntity
      else if !digits.all (isDigitIn radix) then .error .unknownEntity
      else
        match fromStrRadix digits radix with
        | none => .error .unknownEntity
        | some code =>
          match charFromU32 code with
          | none => .error .unknownEntity
          | some resolved => if isForbiddenChar resolved then .error .unknownEntity else .ok ()

/-- `resolve_reference`. -/
def resolveReference : Except SamlError Char :=
  match builtIn name with
  | some resolved => .ok resolved
  | none =>
    match Text.stripPrefix ['#'] name with
    | none => .error .unknownEntity
    | some digits =>
      let (digits, radix) := radixOf digits
      match fromStrRadix digits radix with
      | none => .error .unknownEntity
      | some code =>
        match charFromU32 code with
        | none => .error .unknownEntity
        | some resolved => .ok resolved

/-- A reference that the rules accept names a character. -/
theorem resolveReference_of_check {n : Text} (h : checkReference n = .ok ()) :
    ∃ c, resolveReference n = .ok c := by
  unfold checkReference at h
  unfold resolveReference
  cases hb : builtIn n with
  | some r => exact ⟨r, rfl⟩
  | none =>
    simp only [hb] at h ⊢
    cases hd : Text.stripPrefix ['#'] n with
    | none => simp [hd] at h
    | some d =>
      simp only [hd] at h ⊢
      split_ifs at h
      cases hf : fromStrRadix (radixOf d).1 (radixOf d).2 with
      | none => simp [hf] at h
      | some code =>
        simp only [hf] at h ⊢
        cases hc : charFromU32 code with
        | none => simp [hc] at h
        | some r => exact ⟨r, rfl⟩

/-! ### Attribute values -/

/-- `check_literal_characters`. -/
def checkLiteralCharacters (text : Text) : Except SamlError Unit :=
  refuseIf (text.any isForbiddenChar) .malformed

/-- The loop of `check_attribute_value`, one character at a time: `name` is what was read of
a reference that is not closed yet. -/
def checkReferences : Option Text → Text → Except SamlError Unit
  | none, [] => .ok ()
  | some _, [] => .error .malformed
  | none, c :: rest => if c = '&' then checkReferences (some []) rest else checkReferences none rest
  | some name, c :: rest =>
    if c = ';' then do
      checkReference name
      checkReferences none rest
    else checkReferences (some (name ++ [c])) rest

/-- `check_attribute_value`. -/
def checkAttributeValue (value : Text) : Except SamlError Unit := do
  refuseIf ('<' ∈ value) .malformed
  checkLiteralCharacters value
  checkReferences none value

/-- `push_normalised`, for one character. -/
def normalised : Char := if c = '\t' ∨ c = '\n' ∨ c = '\r' then ' ' else c

/-- The loop of `decode_attribute`, one character at a time. -/
def decodeReferences : Option Text → Text → Except SamlError Text
  | none, [] => .ok []
  | some _, [] => .error .malformed
  | none, c :: rest =>
    if c = '&' then decodeReferences (some []) rest
    else do
      let out ← decodeReferences none rest
      return normalised c :: out
  | some name, c :: rest =>
    if c = ';' then do
      let resolved ← resolveReference name
      let out ← decodeReferences none rest
      return resolved :: out
    else decodeReferences (some (name ++ [c])) rest

/-- `decode_attribute`. -/
def decodeAttribute (value : Text) : Except SamlError Text := decodeReferences none value

theorem decodeReferences_of_check {n : Option Text} {t : Text} (h : checkReferences n t = .ok ()) :
    ∃ out, decodeReferences n t = .ok out := by
  induction t generalizing n with
  | nil =>
    cases n with
    | none => exact ⟨[], rfl⟩
    | some n => cases h
  | cons c rest ih =>
    cases n with
    | none =>
      by_cases hc : c = '&'
      · simp only [checkReferences, if_pos hc] at h
        obtain ⟨out, ho⟩ := ih h
        exact ⟨out, by rw [decodeReferences, if_pos hc, ho]⟩
      · simp only [checkReferences, if_neg hc] at h
        obtain ⟨out, ho⟩ := ih h
        exact ⟨normalised c :: out, by rw [decodeReferences, if_neg hc, ho]; rfl⟩
    | some n =>
      by_cases hc : c = ';'
      · simp only [checkReferences, if_pos hc] at h
        cases hr : checkReference n with
        | error e => rw [hr] at h; cases h
        | ok _ =>
          rw [hr] at h
          obtain ⟨res, hre⟩ := resolveReference_of_check hr
          obtain ⟨out, ho⟩ := ih h
          exact ⟨res :: out, by rw [decodeReferences, if_pos hc, hre, ho]; rfl⟩
      · simp only [checkReferences, if_neg hc] at h
        obtain ⟨out, ho⟩ := ih h
        exact ⟨out, by rw [decodeReferences, if_neg hc, ho]⟩

theorem checkAttributeValue_eq_ok_iff {v : Text} : checkAttributeValue v = .ok () ↔
    '<' ∉ v ∧ checkLiteralCharacters v = .ok () ∧ checkReferences none v = .ok () := by
  simp [checkAttributeValue]

theorem decodeAttribute_of_check {v : Text} (h : checkAttributeValue v = .ok ()) :
    ∃ out, decodeAttribute v = .ok out :=
  decodeReferences_of_check (checkAttributeValue_eq_ok_iff.mp h).2.2

/-! ### Names and tags -/

/-- The part of `check_name` on the prefix and the local name. -/
def checkParts : Except SamlError Unit :=
  match Text.splitOnce (· == ':') name with
  | some (start, loc) => refuseIf (start = [] ∨ loc = []) .malformed
  | none => .ok ()

/-- The part of `check_name` on the characters. -/
def checkCharacters : Except SamlError Unit :=
  match name with
  | [] => .error .malformed
  | first :: characters => do
    refuseIf (¬ isNameStart tables first) .malformed
    refuseIf (¬ characters.all (isNameChar tables)) .malformed

/-- `check_name`. -/
def checkName : Except SamlError Unit := do
  refuseIf (1 < name.count ':') .malformed
  checkParts name
  checkCharacters tables name

/-- The loop of `element_name` over the attributes: `seen` of them were accepted. -/
def checkAttributes (tables : CharTables) (limits : Limits) : ℕ → List (Option (Text × Text)) → Except SamlError Unit
  | _, [] => .ok ()
  | _, none :: _ => .error .malformed
  | seen, some (key, value) :: rest => do
    refuseIf (limits.maxAttributes < seen + 1) .elementTooLarge
    refuseIf (limits.maxNameBytes < Text.len key) .elementTooLarge
    checkName tables key
    checkAttributeValue value
    checkAttributes tables limits (seen + 1) rest

/-- `element_name`. -/
def elementName (limits : Limits) (tag : StartTag) : Except SamlError Text := do
  refuseIf (limits.maxNameBytes < Text.len tag.name) .elementTooLarge
  checkName tables tag.name
  checkAttributes tables limits 0 tag.attributes
  return tag.name

/-! ### The rules on events -/

/-- `check_document_event`. -/
def checkDocumentEvent (event : Event) (depth : ℕ) (_hasRoot seenAnything : Bool) : Except SamlError Unit :=
  match event with
  | .docType _ => .error .doctypeForbidden
  | .decl encoding => do
    refuseIf seenAnything .malformed
    match encoding with
    | some (some encoding) => refuseIf (encoding.map Char.toLower ≠ "utf-8".toList) .encodingNotUtf8
    | _ => .ok ()
  | .generalRef name => do
    refuseIf (depth = 0) .malformed
    checkReference name
  | .text content => if depth = 0 then refuseIf (¬ content.all isXmlSpace) .malformed else checkLiteralCharacters content
  | .cData content => if depth = 0 then .error .malformed else checkLiteralCharacters content
  | .comment content => checkLiteralCharacters content
  | .pi content => checkLiteralCharacters content
  | _ => .ok ()

end IronAuth.Saml
