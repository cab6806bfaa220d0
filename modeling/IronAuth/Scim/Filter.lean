import IronAuth.Lib.Fallible
import IronAuth.Lib.Text

/-!
# The filter grammar

`parse_filter`, a parser by recursive descent over the bytes of the filter, and `matches`, the
evaluation of a filter on a JSON resource.

The parser's position is the rest of the text together with the number of bytes before it; the
bytes that it looks for are ASCII, so that characters serve as well. Its other two fields go
with the nesting: a bracket or a parenthesis raises the depth until it closes, and one bracket
may not stand in another. Here the depth is the number of levels that may still be opened.

Floating-point numbers, and lower case outside of ASCII, are the standard library's.
-/

namespace IronAuth.Scim

open Lib.Fallible

/-! ### Filters -/

/-- `AttributePath`. -/
structure AttributePath where
  urn : Option Text
  name : Text
  sub : Option Text
  deriving DecidableEq

/-- `CompareOp`. -/
inductive CompareOp where
  | equal
  | notEqual
  | contains
  | startsWith
  | endsWith
  | greaterThan
  | greaterOrEqual
  | lessThan
  | lessOrEqual
  deriving DecidableEq

/-- `Value`, a literal of a filter. -/
inductive Value (F : Type) where
  | string (text : Text)
  | number (value : F)
  | boolean (value : Bool)
  | null
  deriving DecidableEq

/-- `Filter`. -/
inductive Filter (F : Type) where
  | compare (path : AttributePath) (op : CompareOp) (value : Value F)
  | present (path : AttributePath)
  | valuePath (path : AttributePath) (filter : Filter F)
  | and (left right : Filter F)
  | or (left right : Filter F)
  | not (filter : Filter F)
  deriving DecidableEq

/-- `FilterError`. -/
inductive FilterError where
  | tooLong (limit : ℕ)
  | tooDeep (limit : ℕ)
  | unexpected (at_ : ℕ)
  | unexpectedEnd
  deriving DecidableEq

/-- `MAX_DEPTH`. -/
def maxDepth : ℕ := 20

/-- `MAX_LEN` of a filter. -/
def maxFilterLen : ℕ := 4096

/-- What the standard library knows of `f64`. -/
structure Floats (F : Type) where
  parse : Text → Option F
  eq : F → F → Bool
  lt : F → F → Bool

/-- No text is a number. -/
def noFloats : Floats Unit := ⟨fun _ => none, fun _ _ => true, fun _ _ => false⟩

/-! ### Words -/

/-- Where the parser stands. -/
structure Cursor where
  rest : Text
  pos : ℕ
  deriving DecidableEq

variable (cursor : Cursor)

/-- Step over so many ASCII characters. -/
def Cursor.advance (n : ℕ) : Cursor := ⟨cursor.rest.drop n, cursor.pos + n⟩

/-- `skip_spaces`. -/
def Cursor.skipSpaces : Cursor := cursor.advance (cursor.rest.takeWhile (· = ' ')).length

/-- What may follow a word. -/
def endsWord : Option Char → Bool
  | none => true
  | some c => c = ' ' || c = '(' || c = ')' || c = ']'

/-- `peek_word`, after the spaces. -/
def Cursor.peekWord (word : Text) : Bool :=
  Text.eqIgnoreAsciiCase (cursor.rest.take word.length) word && endsWord cursor.rest[word.length]?

/-- `take_word`: the spaces are skipped also when the word is not there. -/
def Cursor.takeWord (word : Text) : Bool × Cursor :=
  if cursor.skipSpaces.peekWord word then (true, cursor.skipSpaces.advance word.length) else (false, cursor.skipSpaces)

/-! ### Paths, operators and literals -/

/-- A byte of an attribute path. -/
def isPathChar (c : Char) : Bool := c.isAlphanum || c = '.' || c = ':' || c = '_' || c = '-' || c = '$'

/-- The parts of an attribute path. -/
def attributePath (raw : Text) : Option AttributePath :=
  let (urn, rest) :=
    match Text.rsplitOnce (· == ':') raw with
    | some (urn, rest) => (some urn, rest)
    | none => (none, raw)
  let (name, sub) :=
    match Text.splitOnce (· == '.') rest with
    | some (name, sub) => (name, some sub)
    | none => (rest, none)
  if name = [] ∨ sub = some [] then none else some ⟨urn, name, sub⟩

/-- `parse_path`. -/
def parsePath : Except FilterError (AttributePath × Cursor) := do
  let start := cursor.skipSpaces
  let raw := start.rest.takeWhile isPathChar
  refuseIf (raw = []) (.unexpected start.pos)
  let path ← okOr (attributePath raw) (.unexpected start.pos)
  return (path, start.advance raw.length)

/-- The words of `parse_op`, in the order in which they are tried. -/
def operatorWords : List (Text × CompareOp) :=
  [("eq".toList, .equal), ("ne".toList, .notEqual), ("co".toList, .contains), ("sw".toList, .startsWith),
    ("ew".toList, .endsWith), ("ge".toList, .greaterOrEqual), ("gt".toList, .greaterThan), ("le".toList, .lessOrEqual),
    ("lt".toList, .lessThan)]

/-- `parse_op`. -/
def parseOp : Except FilterError (CompareOp × Cursor) :=
  match operatorWords.find? fun entry => (cursor.takeWord entry.1).1 with
  | some (word, op) => .ok (op, (cursor.takeWord word).2)
  | none => .error (.unexpected cursor.skipSpaces.pos)

/-- A hexadecimal digit. -/
def hexDigit? (c : Char) : Option ℕ :=
  if c.isDigit then some (c.toNat - '0'.toNat)
  else if 'a' ≤ c ∧ c ≤ 'f' then some (c.toNat - 'a'.toNat + 10)
  else if 'A' ≤ c ∧ c ≤ 'F' then some (c.toNat - 'A'.toNat + 10)
  else none

/-- `u32::from_str_radix` on four characters. It takes a sign. -/
def hexCode (a b c d : Char) : Option ℕ :=
  let digits := if a = '+' then [b, c, d] else [a, b, c, d]
  (digits.mapM hexDigit?).map (List.foldl (fun code digit => code * 16 + digit) 0)

/-- `char::from_u32`. -/
def charOfCode (code : ℕ) : Option Char := if code.isValidChar then some (Char.ofNat code) else none

/-- The escapes of one character. -/
def simpleEscape : Char → Option Char
  | '"' => some '"'
  | '\\' => some '\\'
  | '/' => some '/'
  | 'n' => some '\n'
  | 't' => some '\t'
  | 'r' => some '\r'
  | 'b' => some '\x08'
  | 'f' => some '\x0c'
  | _ => none

/-- The loop of `parse_string`, behind the opening quote. -/
def parseStringFrom (pos : ℕ) (out : Text) : Text → Except FilterError (Text × Cursor)
  | [] => .error .unexpectedEnd
  | '"' :: rest => .ok (out, ⟨rest, pos + 1⟩)
  | ['\\'] => .error .unexpectedEnd
  | '\\' :: 'u' :: rest =>
    match rest with
    | a :: b :: c :: d :: tail =>
      match (hexCode a b c d).bind charOfCode with
      | some character => parseStringFrom (pos + 6) (out ++ [character]) tail
      | none => .error (.unexpected (pos + 2))
    -- four bytes can be left in fewer characters
    | _ => if Text.len rest < 4 then .error .unexpectedEnd else .error (.unexpected (pos + 2))
  | '\\' :: escaped :: rest =>
    match simpleEscape escaped with
    | some character => parseStringFrom (pos + 2) (out ++ [character]) rest
    | none => .error (.unexpected (pos + 1))
  | c :: rest => parseStringFrom (pos + c.utf8Size) (out ++ [c]) rest

/-- A byte of a number. -/
def isNumberChar (c : Char) : Bool := c.isDigit || c = '-' || c = '+' || c = '.' || c = 'e' || c = 'E'

section parser

variable {F : Type} (floats : Floats F)

/-- `parse_number`. -/
def parseNumber (cursor : Cursor) : Except FilterError (Value F × Cursor) := do
  let raw := cursor.rest.takeWhile isNumberChar
  refuseIf (raw = []) (.unexpected cursor.pos)
  let number ← okOr (floats.parse raw) (.unexpected cursor.pos)
  return (.number number, cursor.advance raw.length)

/-- `parse_value`. -/
def parseValue (cursor : Cursor) : Except FilterError (Value F × Cursor) :=
  let start := cursor.skipSpaces
  match start.rest with
  | [] => .error .unexpectedEnd
  | '"' :: rest => (fun parsed => (.string parsed.1, parsed.2)) <$> parseStringFrom (start.pos + 1) [] rest
  | _ =>
    if start.peekWord "true".toList then .ok (.boolean true, start.advance 4)
    else if start.peekWord "false".toList then .ok (.boolean false, start.advance 5)
    else if start.peekWord "null".toList then .ok (.null, start.advance 4)
    else parseNumber floats start

/-! ### Expressions -/

/-- A part of the parser that reads a filter. -/
abbrev Parser (F : Type) := Cursor → Except FilterError (Filter F × Cursor)

/-- What opens a level: the parser behind the bracket, then the closing character. -/
def parseEnclosed (nested : Parser F) (closing : Char) (cursor : Cursor) : Except FilterError (Filter F × Cursor) := do
  let inner ← nested (cursor.advance 1)
  let after := inner.2.skipSpaces
  refuseIf (after.rest.head? ≠ some closing) .unexpectedEnd
  return (inner.1, after.advance 1)

/-- `parse_group`. -/
def parseGroup (nested : Parser F) (cursor : Cursor) : Except FilterError (Filter F × Cursor) := do
  let start := cursor.skipSpaces
  refuseIf (start.rest.head? ≠ some '(') (.unexpected start.pos)
  parseEnclosed nested ')' start

/-- `parse_value_path`, on the opening bracket. -/
def parseValuePath (nested : Parser F) (inValuePath : Bool) (path : AttributePath) (cursor : Cursor) : Except FilterError (Filter F × Cursor) := do
  refuseIf inValuePath (.unexpected cursor.pos)
  let inner ← parseEnclosed nested ']' cursor
  return (.valuePath path inner.1, inner.2)

/-- `parse_compare`, behind the path, when no bracket follows. -/
def parseTest (path : AttributePath) (cursor : Cursor) : Except FilterError (Filter F × Cursor) :=
  let (present, after) := cursor.skipSpaces.takeWord "pr".toList
  if present then .ok (.present path, after)
  else do
    let op ← parseOp after
    let value ← parseValue floats op.2
    return (.compare path op.1 value.1, value.2)

/-- `parse_compare`. -/
def parseCompare (nested : Bool → Parser F) (inValuePath : Bool) (cursor : Cursor) : Except FilterError (Filter F × Cursor) := do
  let path ← parsePath cursor
  if path.2.rest.head? = some '[' then parseValuePath (nested true) inValuePath path.1 path.2
  else parseTest floats path.1 path.2

/-- `parse_unary`. -/
def parseUnary (nested : Bool → Parser F) (inValuePath : Bool) (cursor : Cursor) : Except FilterError (Filter F × Cursor) :=
  let (negated, after) := cursor.takeWord "not".toList
  if negated then (fun inner => (.not inner.1, inner.2)) <$> parseGroup (nested inValuePath) after
  else if after.rest.head? = some '(' then parseGroup (nested inValuePath) after
  else parseCompare floats nested inValuePath after

/-- The loops of `parse_or` and `parse_and`: a chain of operands with a word between them. -/
def parseChain (word : Text) (join : Filter F → Filter F → Filter F) (operand : Parser F) :
    ℕ → Filter F → Parser F
  | 0, left, cursor => .ok (left, cursor)
  | fuel + 1, left, cursor =>
    let (more, after) := cursor.takeWord word
    if more then do
      let right ← operand after
      parseChain word join operand fuel (join left right.1) right.2
    else .ok (left, after)

/-- One operand, and then the chain. Each turn of the loop takes a word, so that it ends within the
length of the text. -/
def parseJoined (word : Text) (join : Filter F → Filter F → Filter F) (operand : Parser F) (cursor : Cursor) :
    Except FilterError (Filter F × Cursor) := do
  let left ← operand cursor
  parseChain word join operand (left.2.rest.length + 1) left.1 left.2

/-- `parse_and`. -/
def parseAnd (nested : Bool → Parser F) (inValuePath : Bool) : Parser F :=
  parseJoined "and".toList .and (parseUnary floats nested inValuePath)

/-- `parse_or`, where so many levels may still be opened. -/
def parseOr : ℕ → Bool → Parser F
  | 0, inValuePath =>
    parseJoined "or".toList .or (parseAnd floats (fun _ _ => .error (.tooDeep maxDepth)) inValuePath)
  | levels + 1, inValuePath => parseJoined "or".toList .or (parseAnd floats (parseOr levels) inValuePath)

/-- `parse_filter`. -/
def parseFilter (input : Text) : Except FilterError (Filter F) := do
  refuseIf (maxFilterLen < Text.len input) (.tooLong maxFilterLen)
  let parsed ← parseOr floats maxDepth false ⟨input, 0⟩
  let after := parsed.2.skipSpaces
  refuseIf (after.rest ≠ []) (.unexpected after.pos)
  return parsed.1

end parser

end IronAuth.Scim
