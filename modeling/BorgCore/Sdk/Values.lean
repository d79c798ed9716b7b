import BorgCore.Engine.Values

/-!
# The values of the two SDKs

A field type is a pair of functions, one from a host value to its text on the wire and one back.  Every language
has a table of its own: what a JavaScript number cannot hold is refused there, and what the engine cannot hold
is refused in Python, whose integers have no bound.
-/

namespace BorgCore

namespace Sdk

open Parse

/-- A reference as a host holds it: a PID, and not its wire form. -/
structure Ref where
  pid : String
  bare : pid.toList.head? ≠ some '@'
deriving DecidableEq

def Ref.new (pid : String) : Except String Ref :=
  if h : pid.toList.head? = some '@' then
    .error s!"a Ref holds a PID, not its wire form — drop the @ from `{pid}`"
  else .ok ⟨pid, h⟩

def Ref.text (ref : Ref) : String := String.ofList ('@' :: ref.pid.toList)

/-- The types a field can be declared, but for the decimal and the untyped. -/
inductive FieldType where
  | string | int | bool | binary | bigint
  | ref (struct : ObjectTypeName)
  /-- The value of a list field is a reference to a list. -/
  | list (element : ValueType)
deriving DecidableEq

/-- What the engine declares the field. -/
def FieldType.declared : FieldType → ValueType
  | .string => .string
  | .int => .int
  | .bool => .bool
  | .binary => .binary
  | .bigint => .bigInt
  | .ref struct => .object struct
  | .list element => .list element

def FieldType.wireType (ty : FieldType) : String := ty.declared.display

def splitSign : List Char → Int × List Char
  | '-' :: rest => (-1, rest)
  | '+' :: rest => (1, rest)
  | text => (1, text)

/-- An optional sign, at least one digit, and nothing else: the number they stand for and how many digits
there are. -/
def signedDigits (decimal : Char → Option Nat) (text : List Char) : Option (Int × Nat) :=
  let (sign, digits) := splitSign text
  if digits.isEmpty then none
  else (digits.mapM decimal).map fun values => (sign * Positional.value 10 values, digits.length)

def asciiDecimal (c : Char) : Option Nat := if c.isDigit then some (c.toNat - '0'.toNat) else none

def hexValue (c : Char) : Option UInt8 :=
  if '0' ≤ c ∧ c ≤ '9' then some (c.toNat - '0'.toNat).toUInt8
  else if 'a' ≤ c ∧ c ≤ 'f' then some (c.toNat - 'a'.toNat + 10).toUInt8
  else if 'A' ≤ c ∧ c ≤ 'F' then some (c.toNat - 'A'.toNat + 10).toUInt8
  else none

def hexPairs : List Char → Option (List UInt8)
  | [] => some []
  | [_] => none
  | high :: low :: rest => do
    let high ← hexValue high
    let low ← hexValue low
    return (16 * high + low) :: (← hexPairs rest)

/-! ### TypeScript -/

namespace TypeScript

/-- A number of the language.  The two zeros are one; a number that is not printed as its digits is known by
its text. -/
inductive Number where
  | whole (n : Int) (short : n.natAbs < 10 ^ 21)
  | other (integral : Bool) (text : String)
deriving DecidableEq

def Number.text : Number → String
  | .whole n _ => toString n
  | .other _ text => text

def Number.isInteger : Number → Bool
  | .whole .. => true
  | .other integral _ => integral

/-- The largest integer up to which every one is a number. -/
def maxSafeInteger : Nat := 2 ^ 53 - 1

def Number.isSafeInteger : Number → Bool
  | .whole n _ => n.natAbs ≤ maxSafeInteger
  | .other .. => false

inductive Value where
  | string (s : String)
  | number (n : Number)
  | boolean (b : Bool)
  | bytes (bytes : List UInt8)
  | bigint (n : Int)
  | ref (ref : Ref)
  /-- An object of a class that extends `Ref`, and what its own `toString` answers. -/
  | subRef (typeName : String) (ref : Ref) (text : String)
  /-- Anything else, by its description. -/
  | other (described : String)
deriving DecidableEq

def describeJs : Value → String
  | .string s => s!"string `{s}`"
  | .number n => s!"number `{n.text}`"
  | .boolean b => s!"boolean `{b}`"
  | .bytes _ => "a Uint8Array"
  | .bigint n => s!"bigint `{n}`"
  | .ref _ => "a Ref"
  | .subRef typeName _ _ => s!"a {typeName}"
  | .other described => described

/-- The nearest number with 53 significant bits, to the even one of two that are as near. -/
def nearest (n : Nat) : Nat :=
  let shift := Nat.log2 n - 52
  let quotient := n >>> shift
  let rest := n % 2 ^ shift
  (if 2 ^ shift < 2 * rest ∨ (2 * rest = 2 ^ shift ∧ quotient % 2 = 1) then quotient + 1 else quotient) <<< shift

theorem short_of_safe {n : Int} (h : n.natAbs ≤ maxSafeInteger) : n.natAbs < 10 ^ 21 :=
  h.trans_lt (by decide)

def encode (ty : FieldType) (value : Value) : Except String String :=
  match ty with
  | .string =>
    match value with
    | .string s =>
      -- The engine would read the tombstone form back as a deletion.
      if s = "~" then .error ("`~` is the tombstone form on every field, so it cannot be stored as a string — " ++
        "pass null to delete the cell")
      else .ok s
    | _ => .error s!"a String field takes a string, not {describeJs value}"
  | .int =>
    match value with
    | .number n =>
      if n.isInteger = false then .error s!"an Int field takes a whole number, not {describeJs value}"
      else if n.isSafeInteger = false then
        .error s!"{n.text} has already lost digits as a JS number — use bigint() for this field"
      else .ok n.text
    | _ => .error s!"an Int field takes a whole number, not {describeJs value}"
  | .bool =>
    match value with
    | .boolean b => .ok (toString b)
    | _ => .error s!"a Bool field takes a boolean, not {describeJs value}"
  | .binary =>
    match value with
    | .bytes bytes =>
      .ok (String.ofList ('0' :: 'x' :: bytes.flatMap fun byte =>
        (Nat.toDigits 16 byte.toNat).leftpad 2 '0'))
    | _ => .error s!"a Binary field takes a Uint8Array, not {describeJs value}"
  | .bigint =>
    match value with
    | .bigint n => .ok (toString n ++ "n")
    | _ => .error s!"a BigInt field takes a bigint, not {describeJs value}"
  | .ref _ | .list _ =>
    match value with
    | .ref ref => .ok ref.text
    | .subRef _ _ text => .ok text
    | _ => .error s!"a {ty.wireType} field takes a Ref, not {describeJs value}"

def decode (ty : FieldType) (text : String) : Except String Value :=
  match ty with
  | .string => .ok (.string text)
  | .int =>
    match signedDigits asciiDecimal text.toList with
    | none => .error s!"an Int field answered `{text}`, which is not a whole number"
    | some (n, _) =>
      let value : Int := n.sign * nearest n.natAbs
      if h : value.natAbs ≤ maxSafeInteger then .ok (.number (.whole value (short_of_safe h)))
      else .error s!"`{text}` does not fit a JS number without losing digits — declare the field bigint()"
  | .bool =>
    if text = "true" then .ok (.boolean true)
    else if text = "false" then .ok (.boolean false)
    else .error s!"a Bool field answered `{text}`, which is neither true nor false"
  | .binary =>
    match (text.toList.dropPrefix? ['0', 'x']).bind hexPairs with
    | some bytes => .ok (.bytes bytes)
    | none => .error s!"a Binary field answered `{text}`, which is not `0x` and whole octets"
  | .bigint =>
    match signedDigits asciiDecimal ((text.toList.dropSuffix? ['n']).getD text.toList) with
    | some (n, _) => .ok (.bigint n)
    | none => .error s!"a BigInt field answered `{text}`, which is not decimal digits"
  | .ref _ | .list _ =>
    match text.toList.dropPrefix? ['@'] with
    | some pid => (Ref.new (String.ofList pid)).map .ref
    | none => .error s!"a {ty.wireType} field answered `{text}`, which is not a reference"

end TypeScript

/-! ### Python -/

namespace Python

/-- What the own methods of an object answer; a method may also fail. -/
structure Own where
  typeName : String
  str : Except String String
  /-- What becomes of it in a formatted string. -/
  format : Except String String
  /-- Whether by its own comparisons a `str` is the tombstone, and an `int` within 64 bits. -/
  compares : Except String Bool

inductive Value where
  | str (s : String)
  | int (n : Int)
  | bool (b : Bool)
  | float (text : String)
  /-- `bytes`, and the other types whose objects are bytes. -/
  | bytes (typeName : String) (bytes : List UInt8)
  | ref (ref : Ref)
  /-- Objects of the subclasses of three of these, such as the members of an enumeration of integers. -/
  | subStr (s : String) (own : Own)
  | subInt (n : Int) (own : Own)
  | subRef (ref : Ref) (own : Own)
  | other (described : String)

/-- What an interpreter brings: the decimal digits of every script, and the most digits it converts an integer
from or to, where it has a limit. -/
structure Interpreter where
  decimal : Char → Option Nat
  ascii : ∀ c, c.isDigit = true → decimal c = some (c.toNat - '0'.toNat)
  limit : Option Nat
  least : ∀ n, limit = some n → 640 ≤ n

/-- Whether so many digits are within the limit. -/
def Interpreter.converts (interpreter : Interpreter) (digits : Nat) : Bool :=
  interpreter.limit.all (digits ≤ ·)

def Interpreter.str (interpreter : Interpreter) (n : Int) : Except String String :=
  if interpreter.converts (Nat.toDigits 10 n.natAbs).length then .ok (toString n)
  else .error "Exceeds the limit for integer string conversion"

/-- The pattern of an integer, and its value.  The end of the pattern is also before a last line feed. -/
def Interpreter.integer (interpreter : Interpreter) (text : List Char) : Option (Int × Nat) :=
  signedDigits interpreter.decimal ((text.dropSuffix? ['\n']).getD text)

def what (interpreter : Interpreter) : Value → Except String String
  | .str s => .ok s!"str `{s}`"
  | .int n => (interpreter.str n).map fun text => s!"int `{text}`"
  | .bool b => .ok (if b then "bool `True`" else "bool `False`")
  | .float text => .ok s!"float `{text}`"
  | .bytes typeName _ => .ok s!"a {typeName}"
  | .ref _ => .ok "a Ref"
  | .subStr _ own | .subInt _ own => own.format.map fun text => s!"{own.typeName} `{text}`"
  | .subRef _ own => .ok s!"a {own.typeName}"
  | .other described => .ok described

def refuse (interpreter : Interpreter) (takes : String) (value : Value) : Except String String :=
  match what interpreter value with
  | .ok text => .error s!"{takes}, not {text}"
  | .error reason => .error reason

/-- The refusals of what no cell can hold. -/
def reserved : String :=
  "`~` is the tombstone form on every field, so it cannot be stored as a string — pass None to delete the cell"

def tooLarge (text : String) : String := s!"{text} does not fit the i64 an Int field holds — declare the field bigint()"

def encode (interpreter : Interpreter) (ty : FieldType) (value : Value) : Except String String :=
  match ty with
  | .string =>
    match value with
    | .str s => if s = "~" then .error reserved else .ok s
    | .subStr s own => do if ← own.compares then .error reserved else .ok s
    | _ => refuse interpreter "a String field takes a str" value
  | .int =>
    match value with
    | .int n =>
      if -2 ^ 63 ≤ n ∧ n ≤ 2 ^ 63 - 1 then interpreter.str n
      else do .error (tooLarge (← interpreter.str n))
    | .subInt _ own => do if ← own.compares then own.str else .error (tooLarge (← own.format))
    | _ => refuse interpreter "an Int field takes a whole number" value
  | .bool =>
    match value with
    | .bool b => .ok (if b then "true" else "false")
    | _ => refuse interpreter "a Bool field takes a bool" value
  | .binary =>
    match value with
    | .bytes _ bytes => .ok (String.ofList ('0' :: 'x' :: hex bytes))
    | _ => refuse interpreter "a Binary field takes bytes" value
  | .bigint =>
    match value with
    | .int n => (interpreter.str n).map (· ++ "n")
    | .subInt _ own => own.format.map (· ++ "n")
    | _ => refuse interpreter "a BigInt field takes an int" value
  | .ref _ | .list _ =>
    match value with
    | .ref ref => .ok ref.text
    | .subRef _ own => own.str
    | _ => refuse interpreter s!"a {ty.wireType} field takes a Ref" value

/-- An integer that matched, which is converted if it has no more digits than the interpreter allows. -/
def converted (interpreter : Interpreter) (found : Int × Nat) : Except String Value :=
  if interpreter.converts found.2 then .ok (.int found.1)
  else .error "Exceeds the limit for integer string conversion"

def decode (interpreter : Interpreter) (ty : FieldType) (text : String) : Except String Value :=
  match ty with
  | .string => .ok (.str text)
  | .int =>
    match interpreter.integer text.toList with
    | some found => converted interpreter found
    | none => .error s!"an Int field answered `{text}`, which is not a whole number"
  | .bool =>
    if text = "true" then .ok (.bool true)
    else if text = "false" then .ok (.bool false)
    else .error s!"a Bool field answered `{text}`, which is neither true nor false"
  | .binary =>
    let octets := text.toList.dropPrefix? ['0', 'x']
    match (octets.map fun octets => (octets.dropSuffix? ['\n']).getD octets).bind hexPairs with
    | some bytes => .ok (.bytes "bytes" bytes)
    | none => .error s!"a Binary field answered `{text}`, which is not `0x` and whole octets"
  | .bigint =>
    match interpreter.integer ((text.toList.dropSuffix? ['n']).getD text.toList) with
    | some found => converted interpreter found
    | none => .error s!"a BigInt field answered `{text}`, which is not decimal digits"
  | .ref _ | .list _ =>
    match text.toList.dropPrefix? ['@'] with
    | some pid => (Ref.new (String.ofList pid)).map .ref
    | none => .error s!"a {ty.wireType} field answered `{text}`, which is not a reference"

end Python

end Sdk

end BorgCore
