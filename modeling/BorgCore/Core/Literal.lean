import BorgCore.Core.Address
import BorgCore.Lib.Utf8

/-!
# Values as text

The forms a value is typed in and printed in.  A write site knows the type its field is declared to hold and
parses against that; the untyped types have nothing to direct the parse, and fall back to a guess over sigils,
suffixes, integers, decimals and bare words.

The standard library reads and prints doubles, and hashes are another library's: both are given.
-/

namespace BorgCore

/-- A value on its way in, before the store has seen it. -/
inductive ValueInput where
  | immediate (value : Value)
  /-- Content that has to be interned before it can be stored. -/
  | content (kind : PidKind) (bytes : List UInt8)
deriving DecidableEq

def ValueInput.string (text : String) : ValueInput := .content .string (Utf8.encode text.toList)

def ValueType.display : ValueType → String
  | .int => "Int"
  | .bool => "Bool"
  | .double => "Double"
  | .string => "String"
  | .binary => "Binary"
  | .bigInt => "BigInt"
  | .object name => name
  | .list element => element.display ++ "[]"
  | .any => "Any"
  | .anyObject => "AnyObject"
  | .anyArray => "AnyArray"
  | .anyNumber => "AnyNumber"

/-- Doubles as the standard library reads and prints them, carried by their bits. -/
structure Doubles where
  parse : String → Option UInt64
  display : UInt64 → String

def isFinite (bits : UInt64) : Bool := bits >>> 52 &&& 0x7ff ≠ 0x7ff

namespace Parse

/-! ### Reading -/

/-- The body of an `@…`: a bare PID, or a cell address named through one. -/
def reference (target : List Char) (input : String) (branch : BranchId) (allocator : AllocatorId) :
    Except ParseError ValueInput :=
  match Pid.fromStr (String.ofList target) with
  | .ok pid => .ok (.immediate (.ref pid))
  | .error _ =>
    match cellRef (String.ofList target) branch allocator with
    | .ok cell => .ok (.immediate (.ref cell.pid))
    | .error _ =>
      .error ⟨"value", input, "`@` introduces a reference, and this is neither a PID nor a cell address"⟩

/-- Digits with an optional sign, and nothing else. -/
def isIntegerLiteral (input : List Char) : Bool :=
  let digits :=
    match input with
    | '+' :: rest => rest
    | '-' :: rest => rest
    | _ => input
  !digits.isEmpty && digits.all Char.isDigit

/-- Whether this could be a decimal at all: it starts with a digit, a sign or a point, and has a digit. -/
def looksNumeric (input : List Char) : Bool :=
  input.head?.any (fun c => c.isDigit || c = '+' || c = '-' || c = '.') && input.any Char.isDigit

/-- The value of a hexadecimal digit, in either case. -/
def hexDigit (byte : UInt8) : Option UInt8 :=
  if 0x30 ≤ byte ∧ byte ≤ 0x39 then some (byte - 0x30)
  else if 0x61 ≤ byte ∧ byte ≤ 0x66 then some (byte - 0x61 + 10)
  else if 0x41 ≤ byte ∧ byte ≤ 0x46 then some (byte - 0x41 + 10)
  else none

/-- Two digits to an octet, and whole octets only. -/
def octets : List UInt8 → Option (List UInt8)
  | [] => some []
  | [_] => none
  | high :: low :: rest => do
    let high ← hexDigit high
    let low ← hexDigit low
    return (high <<< 4 ||| low) :: (← octets rest)

def unhex (text : List Char) : Option (List UInt8) := octets (Utf8.encode text)

/-- What has no sigil and no suffix: an integer, a decimal, or else a bare word, which is a string.  An integer
that is too large must not land in a double. -/
def numberOrWord (doubles : Doubles) (input : String) : Except ParseError ValueInput :=
  match Number.parseI64 input.toList with
  | some n => .ok (.immediate (.int n))
  | none =>
    if isIntegerLiteral input.toList then
      .error ⟨"value", input, "too large for Int — append `n` to store it as a BigInt"⟩
    else
      match if looksNumeric input.toList then doubles.parse input else none with
      | some bits => .ok (.immediate (.double bits))
      | none => .ok (.string input)

/-- Parse a value in the shorthand, with no type to go by. -/
def value (doubles : Doubles) (input : String) (branch : BranchId) (allocator : AllocatorId) :
    Except ParseError ValueInput :=
  if input = "true" then .ok (.immediate (.bool true))
  else if input = "false" then .ok (.immediate (.bool false))
  else if input = "~" then .ok (.immediate .tombstone)
  else
    -- Two sigils are reserved: after one of them a malformed remainder is an error and no string.
    match input.toList.dropPrefix? ['@'] with
    | some target => reference target input branch allocator
    | none =>
      match input.toList.dropPrefix? ['0', 'x'] with
      | some rest =>
        match unhex rest with
        | some bytes => .ok (.content .binary bytes)
        | none =>
          .error ⟨"value", input, "`0x` introduces binary, and this is not an even-length run of hex digits"⟩
      | none =>
        match (input.toList.dropSuffix? ['n']).bind fun digits => BigInt.encode (String.ofList digits) with
        | some bytes => .ok (.content .bigInt bytes)
        | none => numberOrWord doubles input

/-- Parse a value against the type its field is declared to hold. -/
def valueAs (doubles : Doubles) (ty : ValueType) (input : String) (branch : BranchId)
    (allocator : AllocatorId) : Except ParseError ValueInput :=
  if input = "~" then .ok (.immediate .tombstone)
  else
    let wrong (expected : String) : Except ParseError ValueInput :=
      .error ⟨"value", input, s!"a field declared {ty.display} takes {expected}"⟩
    match ty with
    | .string => .ok (.string input)
    | .int =>
      match Number.parseI64 input.toList with
      | some n => .ok (.immediate (.int n))
      | none =>
        if isIntegerLiteral input.toList then
          .error ⟨"value", input, "too large for Int — declare the field BigInt to store it"⟩
        else wrong "a whole number, like `42`"
    | .double =>
      match (doubles.parse input).filter isFinite with
      | some bits => .ok (.immediate (.double bits))
      | none => wrong "a decimal number, like `1.5`"
    | .bool =>
      if input = "true" then .ok (.immediate (.bool true))
      else if input = "false" then .ok (.immediate (.bool false))
      else wrong "`true` or `false`"
    | .binary =>
      match (input.toList.dropPrefix? ['0', 'x']).bind unhex with
      | some bytes => .ok (.content .binary bytes)
      | none => wrong "`0x` and an even-length run of hex digits"
    -- The trailing `n` carries no information here, and both spellings mean the same.
    | .bigInt =>
      match BigInt.encode (String.ofList ((input.toList.dropSuffix? ['n']).getD input.toList)) with
      | some bytes => .ok (.content .bigInt bytes)
      | none => wrong "decimal digits, like `-129` or `-129n`"
    | .object _ | .list _ =>
      match input.toList.dropPrefix? ['@'] with
      | some target => reference target input branch allocator
      | none => wrong "a reference, like `@o-1234abcd`"
    | .any | .anyNumber | .anyObject | .anyArray => value doubles input branch allocator

/-! ### Printing -/

def hexChar (digit : UInt8) : Char := Nat.digitChar digit.toNat

def hex (bytes : List UInt8) : List Char :=
  bytes.flatMap fun byte : UInt8 => [hexChar (byte >>> 4), hexChar (byte &&& 0xf)]

def renderRef (pid : Pid) : Option String := pid.display.map fun text => String.ofList ('@' :: text.toList)

/-- The text of a value; `none` is the panic of a PID's. -/
def render (doubles : Doubles) : Value → Option String
  | .int n => some (toString n.toInt)
  | .double bits => some (doubles.display bits)
  | .bool b => some (if b then "true" else "false")
  | .tombstone => some "~"
  | .ref pid => renderRef pid

def renderInterned (pid : Pid) (bytes : List UInt8) : Option String :=
  match pid.kind with
  | .string => some (String.ofList (Utf8.lossy bytes))
  | .binary => some (String.ofList ('0' :: 'x' :: hex bytes))
  | .bigInt => some (String.ofList ((BigInt.decode bytes).toList ++ ['n']))
  | _ => renderRef pid

end Parse

/-- The text of what was parsed, as it is printed when it comes back: a value on its own, and content that was
interned from its bytes. -/
def ValueInput.print (doubles : Doubles) (hash : List UInt8 → Vector UInt8 32) : ValueInput → Option String
  | .immediate value => Parse.render doubles value
  | .content kind bytes => Parse.renderInterned (.content kind (hash bytes)) bytes

end BorgCore
