import BorgCore.Core.Def

/-!
# Layers, branches and errors

A layer is the unit of atomicity, for client transactions and for producer runs alike.  A branch is a
name and the layer it was forked at; its parent is the branch that layer belongs to.
-/

namespace BorgCore

/-- A layer's lifecycle. -/
inductive LayerState where
  | open | sealed | committed | aborted
deriving DecidableEq, Repr

/-- What a layer carries: value events or def events, never both. -/
inductive LayerKind where
  | value | defs
deriving DecidableEq, Repr

/-- Who authored a layer, and what it reflects. -/
inductive LayerAuthor where
  | source
  | derived (producer : ProducerId) (reflects : LayerId)
deriving DecidableEq, Repr

def LayerAuthor.isSource : LayerAuthor → Bool
  | .source => true
  | .derived .. => false

/-- A condition a layer is contingent on: nothing has touched these cells since that layer. -/
structure Guard where
  cells : List CellRef
  since : LayerId
deriving DecidableEq

structure Layer where
  id : LayerId
  branch : BranchId
  kind : LayerKind
  author : LayerAuthor
  state : LayerState
  /-- The head of the branch when this layer was opened. -/
  parent : Option LayerId
  guards : List Guard
deriving DecidableEq

structure Branch where
  id : BranchId
  name : Option String
  /-- The layer this branch was forked at; `none` marks the root. -/
  origin : Option LayerId
deriving DecidableEq, Repr

/-- The ancestry a read resolves through, innermost first: each segment is a branch and the highest
layer visible on it. -/
structure ReadPath where
  segments : List (BranchId × LayerId)
deriving DecidableEq, Repr

/-- The highest layer visible anywhere along the path. -/
def ReadPath.ceiling (path : ReadPath) : LayerId :=
  (path.segments.map Prod.snd).foldr max 0

/-- What a merge carries across. -/
inductive MergeMode where
  | defOnly
  | defAndData
deriving DecidableEq, Repr

/-- Why a write was refused.  The value a `TypeMismatch` reports is carried as the value itself. -/
inductive WriteRejection where
  | undeclaredStruct (cell : CellRef) (structName : ObjectTypeName)
  | undeclaredField (cell : CellRef) (structName : ObjectTypeName) (field : FieldName)
      (known : String)
  | typeMismatch (cell : CellRef) (expected : ValueType) (actual : Value)
  | ownershipViolation (cell : CellRef) (ownership : Ownership) (attempted : Writer)
deriving DecidableEq

/-- Why a merge was rejected. -/
inductive MergeRejection where
  | defDiverged (structName : ObjectTypeName)
  | danglingWrite (cell : CellRef) (deletedAt : LayerId)
  | guardConflict (cell : CellRef)
deriving DecidableEq

inductive BorgError where
  | fieldCollision (structName : ObjectTypeName) (field : FieldName) (existing : RepoId)
  | notDeclaringRepo (repo owner : RepoId) (structName : ObjectTypeName) (field : FieldName)
  | missingMigration (structName : ObjectTypeName) (field : FieldName)
  | migrationOnDerivedField (structName : ObjectTypeName) (field : FieldName) (owner : ProducerId)
  | writeRejected (rejection : WriteRejection)
  | producerCycle (producer : ProducerId) (runs : Nat)
  | producerFailed (producer : ProducerId) (message : String)
  | guardViolated (cell : CellRef) (since mutatedAt : LayerId)
  | guardOnDerivedCell (cell : CellRef)
  | mergeRejected (rejection : MergeRejection)
  | layerStateViolation (layer : LayerId) (expected actual : LayerState)
  | layerNotOnBranch (layer : LayerId) (branch : BranchId)
  | mixedLayerKind
  | storage (message : String)
deriving DecidableEq

end BorgCore
