import BorgCore.Core.Cell
import BorgCore.Lib.AssocMap

/-!
# Definitions

The namespace is flat: a struct is the union of the field declarations of every repo, and only its
fields have an owner.  A mutation of the data model is an event of the log like any other.
-/

namespace BorgCore

/-- Who writes a field. -/
inductive Ownership where
  /-- Ground truth, pushed by clients. -/
  | source
  /-- Computed by exactly one producer. -/
  | derived (producer : ProducerId)
deriving DecidableEq, Repr

structure FieldDef where
  name : FieldName
  ty : ValueType
  declaringRepo : RepoId
  ownership : Ownership
  /-- The def-layer that last mutated this field: its def-version. -/
  version : LayerId
deriving DecidableEq, Repr

/-- The union of every repo's field declarations for one struct. -/
structure ObjectDef where
  name : ObjectTypeName
  fields : AssocMap FieldName FieldDef

inductive MigrationDirection where
  | up
  | down
deriving DecidableEq, Repr

inductive ProducerKind where
  | pipeline
  /-- Bridges one step of a field's version chain; which two versions is a fact about the branch. -/
  | migration (direction : MigrationDirection)
deriving DecidableEq, Repr

structure ProducerDef where
  id : ProducerId
  kind : ProducerKind
  /-- The buffer this producer maps over. -/
  source : BufferId
  /-- The producer's ClientVersion, stamped by the fold and not by the author. -/
  version : LayerId
  declaringRepo : RepoId
  fingerprint : Option String
deriving DecidableEq, Repr

/-- A mutation of the data model. -/
inductive DefEvent where
  | declareField (structName : ObjectTypeName) (field : FieldName) (ty : ValueType) (repo : RepoId)
      (ownership : Ownership)
  | mutateField (structName : ObjectTypeName) (field : FieldName) (ty : ValueType) (repo : RepoId)
      (up : ProducerId) (down : Option ProducerId)
  | deleteField (structName : ObjectTypeName) (field : FieldName) (repo : RepoId)
  | pushProducer (definition : ProducerDef)
deriving DecidableEq, Repr

def DefEvent.touches : DefEvent → Option (ObjectTypeName × FieldName)
  | .declareField structName field .. => some (structName, field)
  | .mutateField structName field .. => some (structName, field)
  | .deleteField structName field _ => some (structName, field)
  | .pushProducer _ => none

end BorgCore
