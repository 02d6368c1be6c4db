/-!
# Reading JSON

The values a checkpoint or an attestation is made of: natural numbers below
`2 ^ 64`, texts, objects and arrays.  Everything else that JSON can write (signs,
fractions, exponents, `true`, `false`, `null`) is refused, as no field takes it.

Each reader takes the text that is left and returns what it read together with
the text behind it.
-/

namespace BeaconChain.Json

/-- A JSON value without signs, fractions and literals. -/
inductive Value where
  | number (value : Nat)
  | text (symbols : List Char)
  | items (values : List Value)
  | members (fields : List (List Char × Value))

/-- A reader that may refuse. -/
abbrev Reader (result : Type) := List Char → Option (result × List Char)

/-- The blanks that may stand between tokens. -/
def isBlank (symbol : Char) : Bool :=
  symbol = ' ' || symbol = '\t' || symbol = '\n' || symbol = '\r'

/-- The text behind its leading blanks. -/
def skipBlanks (source : List Char) : List Char :=
  source.dropWhile isBlank

/-- The number that decimal digits spell. -/
def ofDigits (digits : List Char) : Nat :=
  digits.foldl (fun number digit => 10 * number + (digit.toNat - '0'.toNat)) 0

/-- Reads a natural number below `2 ^ 64`: at least one digit, and no leading
zero but in zero itself. -/
def number : Reader Nat := fun source =>
  let digits := source.takeWhile Char.isDigit
  let rest := source.dropWhile Char.isDigit
  let wellFormed := match digits with
    | [] => false
    | ['0'] => true
    | first :: _ => first != '0'
  if wellFormed && ofDigits digits < 0x10000000000000000 then some (ofDigits digits, rest) else none

/-- The value of a hexadecimal digit of either case. -/
def hexValue? (digit : Char) : Option Nat :=
  if digit.isDigit then some (digit.toNat - '0'.toNat)
  else if 'a' ≤ digit ∧ digit ≤ 'f' then some (digit.toNat - 'a'.toNat + 10)
  else if 'A' ≤ digit ∧ digit ≤ 'F' then some (digit.toNat - 'A'.toNat + 10)
  else none

/-- Reads the four digits of a `\u` escape. -/
def codeUnit : Reader Nat
  | first :: second :: third :: fourth :: rest => do
    let values ← [first, second, third, fourth].mapM hexValue?
    return (values.foldl (fun number value => 16 * number + value) 0, rest)
  | _ => none

/-- Reads the character behind `\u`.  A high surrogate needs a low one in a
second escape, and a low surrogate may not stand alone. -/
def unicodeEscape : Reader Char := fun source => do
  let (unit, rest) ← codeUnit source
  if 0xDC00 ≤ unit ∧ unit ≤ 0xDFFF then
    none
  else if 0xD800 ≤ unit ∧ unit ≤ 0xDBFF then
    match rest with
    | '\\' :: 'u' :: rest => do
      let (low, rest) ← codeUnit rest
      if 0xDC00 ≤ low ∧ low ≤ 0xDFFF then
        some (Char.ofNat (0x10000 + (unit - 0xD800) * 0x400 + (low - 0xDC00)), rest)
      else
        none
    | _ => none
  else
    some (Char.ofNat unit, rest)

/-- The character that a one-letter escape stands for. -/
def shortEscape? : Char → Option Char
  | '"' => some '"'
  | '\\' => some '\\'
  | '/' => some '/'
  | 'b' => some '\x08'
  | 'f' => some '\x0c'
  | 'n' => some '\n'
  | 'r' => some '\r'
  | 't' => some '\t'
  | _ => none

/-- Reads the symbols of a text up to its closing quote; `steps` bounds their
number. -/
def quotedRest : (steps : Nat) → Reader (List Char)
  | 0, _ => none
  | _ + 1, [] => none
  | _ + 1, '"' :: rest => some ([], rest)
  | steps + 1, '\\' :: 'u' :: rest => do
    let (symbol, rest) ← unicodeEscape rest
    let (symbols, rest) ← quotedRest steps rest
    return (symbol :: symbols, rest)
  | steps + 1, '\\' :: letter :: rest => do
    let symbol ← shortEscape? letter
    let (symbols, rest) ← quotedRest steps rest
    return (symbol :: symbols, rest)
  | steps + 1, symbol :: rest =>
    if symbol.toNat < 0x20 ∨ symbol = '\\' then
      none
    else do
      let (symbols, rest) ← quotedRest steps rest
      return (symbol :: symbols, rest)

/-- Reads a text in quotes. -/
def quoted : Reader (List Char)
  | '"' :: rest => quotedRest (rest.length + 1) rest
  | _ => none

mutual

/-- Reads a value behind blanks; `depth` bounds the number of nested readings. -/
def value : (depth : Nat) → Reader Value
  | 0, _ => none
  | depth + 1, source =>
    match skipBlanks source with
    | '"' :: rest => do
      let (symbols, rest) ← quoted ('"' :: rest)
      return (.text symbols, rest)
    | '[' :: rest =>
      match skipBlanks rest with
      | ']' :: rest => some (.items [], rest)
      | rest => do
        let (values, rest) ← valuesRest depth rest
        return (.items values, rest)
    | '{' :: rest =>
      match skipBlanks rest with
      | '}' :: rest => some (.members [], rest)
      | rest => do
        let (fields, rest) ← membersRest depth rest
        return (.members fields, rest)
    | source => do
      let (count, rest) ← number source
      return (.number count, rest)

/-- Reads the values of an array up to its closing bracket, at least one. -/
def valuesRest : (depth : Nat) → Reader (List Value)
  | 0, _ => none
  | depth + 1, source => do
    let (first, rest) ← value depth source
    match skipBlanks rest with
    | ']' :: rest => some ([first], rest)
    | ',' :: rest => do
      let (others, rest) ← valuesRest depth rest
      return (first :: others, rest)
    | _ => none

/-- Reads the members of an object up to its closing brace, at least one. -/
def membersRest : (depth : Nat) → Reader (List (List Char × Value))
  | 0, _ => none
  | depth + 1, source => do
    let (name, rest) ← quoted (skipBlanks source)
    match skipBlanks rest with
    | ':' :: rest => do
      let (first, rest) ← value depth rest
      match skipBlanks rest with
      | '}' :: rest => some ([(name, first)], rest)
      | ',' :: rest => do
        let (others, rest) ← membersRest depth rest
        return ((name, first) :: others, rest)
      | _ => none
    | _ => none

end

namespace Value

/-- Reads a whole text as one value; nothing but blanks may follow it. -/
def ofText? (source : String) : Option Value := do
  let symbols := source.toList
  let (result, rest) ← value (symbols.length + 1) symbols
  if (skipBlanks rest).isEmpty then some result else none

/-- The number, if the value is one. -/
def number? : Value → Option Nat
  | .number count => some count
  | _ => none

/-- The symbols, if the value is a text. -/
def text? : Value → Option (List Char)
  | .text symbols => some symbols
  | _ => none

/-- The values of the named fields, in the order of the names.  An object must
have each of them once and no other; an array must hold as many values. -/
def columns? (names : List String) : Value → Option (List Value)
  | .members fields =>
    if fields.length = names.length then
      names.mapM fun name => fields.lookup name.toList
    else
      none
  | .items values => if values.length = names.length then some values else none
  | _ => none

end Value

end BeaconChain.Json
