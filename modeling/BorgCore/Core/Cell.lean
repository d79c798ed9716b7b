import BorgCore.Core.Value

/-!
# Cells and events

A cell is the unit of everything: guards, read-sets, ownership and merge conflicts all key on one.
`CellRef` says where a cell lives, `CellAt` which of that cell's versions is meant.

An event does not carry the layer it lives in.  Layers name their events, so one event can be a
member of a child's layer and of the parent's layer a merge created; `Landed` is an event as it is
reached through one branch.
-/

namespace BorgCore

/-- A partition of cells: one per definition, and one each for the untyped containers. -/
inductive BufferId where
  | object (name : ObjectTypeName)
  | objectProp (structName : ObjectTypeName) (field : FieldName)
  | list (name : ObjectTypeName)
  | listElem (name : ObjectTypeName)
  | anyObject
  | anyArray
deriving DecidableEq, Repr

/-- Locates a cell within its buffer. -/
inductive CellKey where
  | pid (pid : Pid)
  | elem (pid : Pid) (index : Nat)
deriving DecidableEq

/-- Addresses one cell.  The buffer is part of the address, not derived from it. -/
structure CellRef where
  buffer : BufferId
  key : CellKey
deriving DecidableEq

namespace CellRef

def prop (structName : ObjectTypeName) (field : FieldName) (pid : Pid) : CellRef :=
  ⟨.objectProp structName field, .pid pid⟩

def existence (structName : ObjectTypeName) (pid : Pid) : CellRef :=
  ⟨.object structName, .pid pid⟩

def pid (cell : CellRef) : Pid :=
  match cell.key with
  | .pid pid => pid
  | .elem pid _ => pid

/-- The existence cell of the object this cell belongs to; the cell itself where there is none. -/
def existenceOf (cell : CellRef) : CellRef :=
  match cell.buffer with
  | .objectProp structName _ => existence structName cell.pid
  | _ => cell

end CellRef

/-- A cell at one def-version: the full address of a stored record. -/
structure CellAt where
  cell : CellRef
  version : DefVersion
deriving DecidableEq

/-- Whether a record is ground truth or computed. -/
inductive Origin where
  | source
  | derived
deriving DecidableEq, Repr

/-- Who is attempting a write. -/
inductive Writer where
  | client
  | producer (id : ProducerId)
deriving DecidableEq, Repr

def Writer.origin : Writer → Origin
  | .client => .source
  | .producer _ => .derived

/-- Derived-record metadata: who computed it, through which source layer, and from what. -/
structure Derivation where
  producer : ProducerId
  freshAsOf : LayerId
  readSet : List CellAt
deriving DecidableEq

/-- One mutation, with an identity of its own. -/
structure Event where
  id : EventId
  cell : CellRef
  value : Value
  version : DefVersion
  origin : Origin
  derivation : Option Derivation
  /-- Where this event was first committed; a merge never rewrites it. -/
  authored : LayerId
deriving DecidableEq

/-- The record an event is a version of. -/
def Event.at (event : Event) : CellAt := ⟨event.cell, event.version⟩

/-- An event before the log has given it an identity and a place. -/
structure EventDraft where
  value : Value
  version : DefVersion
  origin : Origin
  derivation : Option Derivation
deriving DecidableEq

/-- The event a draft becomes: the log stamps where it was authored. -/
def EventDraft.event (draft : EventDraft) (id : EventId) (cell : CellRef) (layer : LayerId) : Event :=
  ⟨id, cell, draft.value, draft.version, draft.origin, draft.derivation, layer⟩

/-- An event as reached through one branch: what it is, and where it arrived here. -/
structure Landed where
  event : Event
  landedAt : LayerId
deriving DecidableEq

/-- The source layer this record's content reflects: where source data landed, the watermark of
derived data. -/
def Landed.reflects (found : Landed) : LayerId :=
  match found.event.derivation with
  | some derivation => derivation.freshAsOf
  | none => found.landedAt

@[simp] theorem CellRef.existenceOf_prop (structName : ObjectTypeName) (field : FieldName)
    (pid : Pid) : (CellRef.prop structName field pid).existenceOf = .existence structName pid := rfl

@[simp] theorem CellRef.existenceOf_existence (structName : ObjectTypeName) (pid : Pid) :
    (CellRef.existence structName pid).existenceOf = .existence structName pid := rfl

@[simp] theorem CellRef.existenceOf_existenceOf (cell : CellRef) :
    cell.existenceOf.existenceOf = cell.existenceOf := by
  obtain ⟨buffer, key⟩ := cell
  cases buffer <;> rfl

end BorgCore
