import IronAuth.Lib.Text

/-!
# Login identifiers

`canonicalize_identifier`, the one place where a login handle gets the form in which handles are
compared: characters without a look of their own are stripped, compatibility forms and white space
are normalized away, and what is left is folded as its kind asks for.

The tables of Unicode are a parameter.
-/

namespace IronAuth.Store

/-- `IdentifierType`. -/
inductive IdentifierType where
  | email
  | username
  | phone
  deriving DecidableEq

/-- `CanonicalIdentifier`. -/
structure CanonicalIdentifier where
  kind : IdentifierType
  value : Text
  deriving DecidableEq

/-- What the libraries know of Unicode. -/
structure Unicode where
  /-- The general category is `Control`, `Format`, `LineSeparator` or `ParagraphSeparator`. -/
  isControl : Char → Bool
  nfkc : Text → Text
  /-- `default_case_fold_str`. -/
  defaultCaseFold : Text → Text
  isWhitespace : Char → Bool
  /-- `to_lowercase`. -/
  lowercase : Text → Text

/-- The ranges of `is_default_ignorable`. -/
def defaultIgnorable : List (ℕ × ℕ) :=
  [(0x00AD, 0x00AD), (0x034F, 0x034F), (0x061C, 0x061C), (0x115F, 0x1160), (0x17B4, 0x17B5), (0x180B, 0x180F),
    (0x200B, 0x200F), (0x202A, 0x202E), (0x2060, 0x206F), (0x3164, 0x3164), (0xFE00, 0xFE0F), (0xFEFF, 0xFEFF),
    (0xFFA0, 0xFFA0), (0xFFF0, 0xFFF8), (0x1BCA0, 0x1BCA3), (0x1D173, 0x1D17A), (0xE0000, 0xE0FFF)]

/-- `is_default_ignorable`. -/
def isDefaultIgnorable (c : Char) : Bool :=
  defaultIgnorable.any fun range => range.1 ≤ c.toNat && c.toNat ≤ range.2

section canonicalize

variable (unicode : Unicode)

/-- `is_invisible_or_control`. -/
def isInvisibleOrControl (c : Char) : Bool := unicode.isControl c || isDefaultIgnorable c

/-- `case_fold`. -/
def caseFold (value : Text) : Text := unicode.nfkc (unicode.defaultCaseFold value)

/-- `canonical_email`. -/
def canonicalEmail (base : Text) : Text :=
  match Text.rsplitOnce (· == '@') base with
  | some (mailbox, domain) =>
    if mailbox = [] ∨ domain = [] then [] else caseFold unicode mailbox ++ '@' :: caseFold unicode domain
  | none => []

/-- `canonical_phone`. -/
def canonicalPhone (base : Text) : Text :=
  let digits := base.filter Char.isDigit
  if digits = [] then [] else '+' :: digits

/-- `canonicalize_identifier`. -/
def canonicalizeIdentifier (kind : IdentifierType) (raw : Text) : CanonicalIdentifier :=
  let stripped := raw.filter fun c => !isInvisibleOrControl unicode c
  let normalized := unicode.nfkc stripped
  let base := normalized.filter fun c => !unicode.isWhitespace c
  match kind with
  | .email => ⟨.email, canonicalEmail unicode base⟩
  | .username => ⟨.username, caseFold unicode base⟩
  | .phone => ⟨.phone, canonicalPhone base⟩

end canonicalize

end IronAuth.Store
