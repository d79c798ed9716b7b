import Mathlib.Data.List.Basic

/-!
# Identifiers, PIDs and values

Every identifier is a number.  A def-version and a ClientVersion are both layer ids and are not the
same quantity: a ClientVersion is a whole schema, a def-version belongs to one field.  `LayerId 0`
stands for "nothing yet" in every place where the engine says so.

A double is carried by its bits: nothing here computes with one, and equality of stored values is
equality of bits.
-/

namespace BorgCore

abbrev BranchId := Nat
abbrev LayerId := Nat
abbrev EventId := Nat
/-- The def-view an actor's code was authored against: a whole-schema position. -/
abbrev ClientVersion := LayerId
/-- The def-layer that last mutated one definition. -/
abbrev DefVersion := LayerId
abbrev AllocatorId := Nat
abbrev ProducerId := Nat
abbrev RepoId := Nat

/-- The version of a cell that has no definition to version: an existence cell, a list, an untyped
container. -/
def DefVersion.unversioned : DefVersion := 0

/-- The name of a struct; the namespace is flat. -/
abbrev ObjectTypeName := String
abbrev FieldName := String

inductive PidKind where
  | object | list | any | anyObject | anyArray | anyNumber
  | string | binary | bigInt
deriving DecidableEq, Repr

/-- An identity: allocated without coordination, or the hash of its content. -/
inductive Pid where
  | allocated (kind : PidKind) (branch : BranchId) (allocator : AllocatorId) (counter : Nat)
  | content (kind : PidKind) (hash : Vector UInt8 32)
deriving DecidableEq

def Pid.kind : Pid → PidKind
  | .allocated kind .. => kind
  | .content kind _ => kind

inductive Value where
  | int (n : Int64)
  | bool (b : Bool)
  | double (bits : UInt64)
  | ref (pid : Pid)
  /-- Explicitly removed.  Distinct from *absent*, the `none` of an enclosing `Option Value`. -/
  | tombstone
deriving DecidableEq

def Value.isTombstone : Value → Bool
  | .tombstone => true
  | _ => false

inductive ValueType where
  | int | bool | double | string | binary | bigInt
  | object (name : ObjectTypeName)
  | list (element : ValueType)
  | any | anyObject | anyArray | anyNumber
deriving DecidableEq, Repr

/-- Whether a value may be stored in a cell declared this type.  A tombstone satisfies every type;
a reference is checked for the kind of its PID and no further. -/
def ValueType.accepts : ValueType → Value → Bool
  | _, .tombstone => true
  | .any, _ => true
  | .int, .int _ => true
  | .bool, .bool _ => true
  | .double, .double _ => true
  | .anyNumber, .int _ => true
  | .anyNumber, .double _ => true
  | .string, .ref pid => pid.kind = .string
  | .binary, .ref pid => pid.kind = .binary
  | .bigInt, .ref pid => pid.kind = .bigInt
  | .anyNumber, .ref pid => pid.kind = .bigInt
  | .object _, .ref pid => pid.kind = .object || pid.kind = .anyObject
  | .anyObject, .ref pid => pid.kind = .object || pid.kind = .anyObject
  | .list _, .ref pid => pid.kind = .list || pid.kind = .anyArray
  | .anyArray, .ref pid => pid.kind = .list || pid.kind = .anyArray
  | _, _ => false

end BorgCore
