import Mathlib.Data.List.Basic
import Mathlib.Tactic.Ring
import BorgCore.Core.Value

/-!
# The text form of a PID

A kind letter, a hyphen and the rest of the PID in base32.  The two flavours share the form: an allocated
PID is three varints, and what is as long as a hash is one.

The buffer the encoder writes to is a fixed one.  It is modelled by the room that is left in it, and a write
past its end, which is a panic, by `none`.
-/

namespace BorgCore

structure ParseError where
  kind : String
  input : String
  reason : String
deriving DecidableEq, Repr

namespace PidKind

/-- The letter this kind wears in the text form. -/
def letter : PidKind → Char
  | .object => 'o'
  | .list => 'l'
  | .any => 'a'
  | .anyObject => 'j'
  | .anyArray => 'y'
  | .anyNumber => 'm'
  | .string => 's'
  | .binary => 'b'
  | .bigInt => 'n'

/-- The inverse of `letter`, in either case. -/
def fromLetter (letter : Char) : Option PidKind :=
  match letter.toLower with
  | 'o' => some .object
  | 'l' => some .list
  | 'a' => some .any
  | 'j' => some .anyObject
  | 'y' => some .anyArray
  | 'm' => some .anyNumber
  | 's' => some .string
  | 'b' => some .binary
  | 'n' => some .bigInt
  | _ => none

end PidKind

namespace Pid

/-- A content hash, and the upper bound on any payload. -/
def hashLen : Nat := 32

/-- Three varints: 10 bytes for a branch, 5 for an allocator, 10 for a counter. -/
def maxAllocated : Nat := 25

/-- Base32 without `i`, `l`, `o` and `u`. -/
def alphabet : List Char := "0123456789abcdefghjkmnpqrstvwxyz".toList

def digitAt (value : Nat) : Char := alphabet.getD value '0'

/-! ### Varints -/

/-- Write a number to the room left in the buffer, seven bits to a byte. -/
def putVarint : (room value : Nat) → Option (List UInt8)
  | 0, _ => none
  | room + 1, value =>
    let byte := value.toUInt8 &&& 0x7f
    let value := value >>> 7
    if value = 0 then some [byte] else (putVarint room value).map ((byte ||| 0x80) :: ·)

/-- Shift a 64-bit number to the left; `none` where the shift is as wide as the number. -/
def checkedShl (part shift : Nat) : Option Nat :=
  if shift < 64 then some ((part <<< shift) % 2 ^ 64) else none

/-- Read the rest of a number, `value` being what the bytes before it amount to.  Bits that a 64-bit number
has no place for are refused. -/
def takeVarintFrom (value shift : Nat) : List UInt8 → Option (Nat × List UInt8)
  | [] => none
  | byte :: rest =>
    let part := (byte &&& 0x7f).toNat
    match (checkedShl part shift).filter fun placed => placed >>> shift = part with
    | none => none
    | some placed =>
      let value := value ||| placed
      if byte &&& 0x80 = 0 then some (value, rest) else takeVarintFrom value (shift + 7) rest

def takeVarint (bytes : List UInt8) : Option (Nat × List UInt8) := takeVarintFrom 0 0 bytes

/-! ### Base32 -/

/-- Write a digit for as long as there are five bits for one; what is left is less. -/
def writeDigits (acc : Nat) : Nat → List Char × Nat
  | bits + 5 =>
    let (digits, left) := writeDigits acc bits
    (digitAt ((acc >>> bits) &&& 31) :: digits, left)
  | bits => ([], bits)

def encodeFrom (acc bits : Nat) : List UInt8 → List Char
  | [] => if 0 < bits then [digitAt (((acc <<< (5 - bits)) % 2 ^ 32) &&& 31)] else []
  | byte :: rest =>
    let acc := ((acc <<< 8) % 2 ^ 32) ||| byte.toNat
    let (digits, left) := writeDigits acc (bits + 8)
    digits ++ encodeFrom acc left rest

/-- Bytes as base32 digits, the last of them padded with zero bits. -/
def encodeBase32 (bytes : List UInt8) : List Char := encodeFrom 0 0 bytes

/-- The value of a digit, in either case; `i` and `l` are read as `1` and `o` as `0`. -/
def digit (c : Char) : Option Nat :=
  let c := c.toLower
  if c = '0' ∨ c = 'o' then some 0
  else if c = '1' ∨ c = 'i' ∨ c = 'l' then some 1
  else if '2' ≤ c ∧ c ≤ '9' then some (c.toNat - '0'.toNat)
  else if 'a' ≤ c ∧ c ≤ 'h' then some (c.toNat - 'a'.toNat + 10)
  else if c = 'j' then some 18
  else if c = 'k' then some 19
  else if c = 'm' then some 20
  else if c = 'n' then some 21
  else if c = 'p' then some 22
  else if c = 'q' then some 23
  else if c = 'r' then some 24
  else if c = 's' then some 25
  else if c = 't' then some 26
  else if 'v' ≤ c ∧ c ≤ 'z' then some (c.toNat - 'v'.toNat + 27)
  else none

def decodeFrom (acc bits : Nat) (out : List UInt8) : List Char → Except String (List UInt8)
  | [] =>
    if acc &&& ((1 <<< bits) - 1) ≠ 0 then .error "id has non-zero padding bits"
    else if maxAllocated < out.length ∧ out.length ≠ hashLen then
      .error "id is neither an allocated PID nor a content hash"
    else .ok out
  | c :: rest =>
    match digit c with
    | none => .error s!"`{c}` is not a base32 digit"
    | some value =>
      let acc := ((acc <<< 5) % 2 ^ 32) ||| value
      let bits := bits + 5
      if 8 ≤ bits then
        let bits := bits - 8
        if out.length = hashLen then .error "id is longer than any PID"
        else decodeFrom acc bits (out ++ [(acc >>> bits).toUInt8]) rest
      else decodeFrom acc bits out rest

/-- The bytes of a payload, or why it is none. -/
def decodeBase32 (text : List Char) : Except String (List UInt8) := decodeFrom 0 0 [] text

/-! ### PIDs -/

def payload : Pid → Option (List UInt8)
  | .allocated _ branch allocator counter => do
    let first ← putVarint hashLen branch
    let second ← putVarint (hashLen - first.length) allocator
    let third ← putVarint (hashLen - first.length - second.length) counter
    return first ++ second ++ third
  | .content _ hash => some hash.toList

/-- The canonical text form; `none` is a panic. -/
def display (pid : Pid) : Option String :=
  pid.payload.map fun bytes => String.ofList (pid.kind.letter :: '-' :: encodeBase32 bytes)

def allocatedFrom (kind : PidKind) (bytes : List UInt8) : Option Pid := do
  let (branch, bytes) ← takeVarint bytes
  let (allocator, bytes) ← takeVarint bytes
  let (counter, bytes) ← takeVarint bytes
  if bytes ≠ [] then none
  else if allocator < 2 ^ 32 then some (.allocated kind branch allocator counter)
  else none

/-- What stands before and after the first of a character. -/
def splitOnce (sep : Char) : List Char → Option (List Char × List Char)
  | [] => none
  | c :: rest =>
    if c = sep then some ([], rest) else (splitOnce sep rest).map fun (before, after) => (c :: before, after)

/-- The kind that is named by what stands before the hyphen. -/
def kindOf : List Char → Option PidKind
  | [letter] => PidKind.fromLetter letter
  | _ => none

def fromStr (text : String) : Except ParseError Pid :=
  match splitOnce '-' text.toList with
  | none => .error ⟨"pid", text, "expected `<kind>-<id>`"⟩
  | some (letter, payload) =>
    match kindOf letter with
    | none => .error ⟨"pid", text, s!"`{String.ofList letter}` is not a kind letter"⟩
    | some kind =>
      match decodeBase32 payload with
      | .error reason => .error ⟨"pid", text, reason⟩
      | .ok bytes =>
        if h : bytes.length = hashLen then .ok (.content kind ⟨bytes.toArray, h⟩)
        else
          match allocatedFrom kind bytes with
          | some pid => .ok pid
          | none => .error ⟨"pid", text, s!"`{String.ofList payload}` is not a well-formed id"⟩

/-- The numbers of a PID are as wide as their types: 64 bits for a branch and a counter, 32 for an
allocator. -/
def Sized : Pid → Prop
  | .allocated _ branch allocator counter => branch < 2 ^ 64 ∧ allocator < 2 ^ 32 ∧ counter < 2 ^ 64
  | .content .. => True

end Pid

end BorgCore
