import BorgCore.Engine.Log

/-!
# Definitions, as a projection of the def-event stream

There is no separate schema store.  A `DefView` is folded from the def layers along a read path,
oldest first, and a def-version is the id of the layer that produced it.
-/

namespace BorgCore

/-- One step in a field's def-version chain, and the migrations that bridge it. -/
structure VersionStep where
  source : DefVersion
  target : DefVersion
  up : ProducerId
  /-- `none` means the def-push knowingly broke older clients. -/
  down : Option ProducerId
deriving DecidableEq

/-- A direction-resolved hop along the chain. -/
structure MigrationHop where
  producer : ProducerId
  direction : MigrationDirection
  source : DefVersion
  target : DefVersion
deriving DecidableEq

/-- One migration's place in a field's version chain. -/
structure MigrationRole where
  /-- The def-version it reads its input at. -/
  input : DefVersion
  /-- The def-version it writes. -/
  output : DefVersion
  /-- Both halves of this step; neither triggers the other. -/
  step : List ProducerId
deriving DecidableEq

/-- The definitions in force at one point on one branch. -/
structure DefView where
  objects : AssocMap ObjectTypeName ObjectDef
  chains : AssocMap (ObjectTypeName × FieldName) (List VersionStep)
  producers : AssocMap ProducerId ProducerDef

namespace DefView

def empty : DefView := ⟨∅, ∅, ∅⟩

def fieldOf (view : DefView) (structName : ObjectTypeName) (field : FieldName) : Option FieldDef :=
  (view.objects.lookup structName).bind fun object => object.fields.lookup field

/-- The declaration governing a cell, if the cell names a declared field. -/
def field (view : DefView) (cell : CellRef) : Option FieldDef :=
  match cell.buffer with
  | .objectProp structName field => view.fieldOf structName field
  | _ => none

/-- The def-version of a cell, as this view names it.  Cells with no definition, and undeclared
fields, are unversioned. -/
def versionOf (view : DefView) (cell : CellRef) : DefVersion :=
  match view.field cell with
  | some declared => declared.version
  | none => .unversioned

def chainOf (view : DefView) (structName : ObjectTypeName) (field : FieldName) : List VersionStep :=
  view.chains.getD (structName, field) []

/-- Where a migration sits in its field's version chain; `none` for a pipeline, and for a migration
whose step this view does not know. -/
def migrationRole (view : DefView) (definition : ProducerDef) : Option MigrationRole :=
  match definition.kind, definition.source with
  | .migration direction, .objectProp structName field =>
    ((view.chainOf structName field).find? fun step =>
        match direction with
        | .up => step.up = definition.id
        | .down => step.down = some definition.id).map fun step =>
      { input := match direction with | .up => step.source | .down => step.target
        output := match direction with | .up => step.target | .down => step.source
        step := step.up :: step.down.toList }
  | _, _ => none

/-! ### Validating a write -/

/-- Whether this producer is a declared migration for this field. -/
def migrates (view : DefView) (structName : ObjectTypeName) (field : FieldName)
    (producer : ProducerId) : Bool :=
  (view.chainOf structName field).any fun step => step.up = producer || step.down = some producer

/-- Whether this writer is the one the declaration names.  A migration writes someone else's field, so
it is checked against the step naming it. -/
def checkOwnership (view : DefView) (cell : CellRef) (structName : ObjectTypeName)
    (field : FieldName) (declared : FieldDef) (writer : Writer) : Except BorgError Unit :=
  let permitted : Bool :=
    match declared.ownership, writer with
    | .source, .client => true
    | .derived owner, .producer attempted => owner = attempted
    | .source, .producer attempted => view.migrates structName field attempted
    | .derived _, .client => false
  if permitted then .ok ()
  else .error (.writeRejected (.ownershipViolation cell declared.ownership writer))

/-- The names of a struct's fields, as a rejection lists them. -/
def knownFields (object : ObjectDef) : String :=
  ", ".intercalate (object.fields.keys.insertionSort (· ≤ ·))

/-- Validate one cell write.  `view` is the writer's, asked about shape; `authority` is the branch's,
asked about permission. -/
def checkWrite (view : DefView) (cell : CellRef) (value : Value) (writer : Writer)
    (authority : DefView) : Except BorgError Unit :=
  match cell.buffer with
  | .objectProp structName field =>
    match view.objects.lookup structName with
    | none => .error (.writeRejected (.undeclaredStruct cell structName))
    | some object =>
      match object.fields.lookup field with
      | none =>
        .error (.writeRejected (.undeclaredField cell structName field (knownFields object)))
      | some declared => do
        let governing := (authority.field cell).getD declared
        authority.checkOwnership cell structName field governing writer
        if declared.ty.accepts value then .ok ()
        else .error (.writeRejected (.typeMismatch cell declared.ty value))
  | .object structName =>
    if (view.objects.lookup structName).isNone then
      .error (.writeRejected (.undeclaredStruct cell structName))
    else if ValueType.bool.accepts value then .ok ()
    else .error (.writeRejected (.typeMismatch cell .bool value))
  | .list _ | .listElem _ | .anyObject | .anyArray => .ok ()

/-! ### The fold -/

/-- Put one field's declaration into the view; `none` removes it. -/
def setField (view : DefView) (structName : ObjectTypeName) (object : ObjectDef) (field : FieldName)
    (declared : Option FieldDef) : DefView :=
  { view with objects := view.objects.insert structName { object with
      fields := match declared with
        | some declared => object.fields.insert field declared
        | none => object.fields.erase field } }

/-- Fold one event in.  An event that is not permitted is an error, which is how collisions and
cross-repo mutations are caught at push time. -/
def apply (view : DefView) (event : DefEvent) (layer : LayerId) : Except BorgError DefView :=
  match event with
  | .declareField structName field ty repo ownership =>
    let object := (view.objects.lookup structName).getD ⟨structName, ∅⟩
    match object.fields.lookup field with
    | some existing =>
      -- The same repo declaring the same shape again is a repeat, not a conflict.
      if existing.declaringRepo = repo ∧ existing.ty = ty ∧ existing.ownership = ownership then
        .ok view
      else .error (.fieldCollision structName field existing.declaringRepo)
    | none => .ok (view.setField structName object field (some ⟨field, ty, repo, ownership, layer⟩))
  | .mutateField structName field ty repo up down =>
    match view.objects.lookup structName with
    | none => .error (.missingMigration structName field)
    | some object =>
      match object.fields.lookup field with
      | none => .error (.missingMigration structName field)
      | some existing =>
        if existing.declaringRepo ≠ repo then
          .error (.notDeclaringRepo repo existing.declaringRepo structName field)
        else
          match existing.ownership with
          | .derived owner => .error (.migrationOnDerivedField structName field owner)
          | .source =>
            let moved := view.setField structName object field
              (some { existing with ty := ty, version := layer })
            let chain := view.chainOf structName field ++ [⟨existing.version, layer, up, down⟩]
            .ok { moved with chains := moved.chains.insert (structName, field) chain }
  | .deleteField structName field repo =>
    match view.objects.lookup structName with
    | none => .ok view
    | some object =>
      match object.fields.lookup field with
      | some existing =>
        if existing.declaringRepo ≠ repo then
          .error (.notDeclaringRepo repo existing.declaringRepo structName field)
        else .ok (view.setField structName object field none)
      | none => .ok (view.setField structName object field none)
  | .pushProducer definition =>
    .ok { view with
      producers := view.producers.insert definition.id { definition with version := layer } }

/-- The migration path from one def-version to another, for one field; `none` where it is broken. -/
def path (view : DefView) (buffer : BufferId) (source target : DefVersion) :
    Option (List MigrationHop) :=
  if source = target then some []
  else
    match buffer with
    | .objectProp structName field =>
      (view.chains.lookup (structName, field)).bind fun chain =>
        if source < target then
          some ((chain.filter fun step => source ≤ step.source ∧ step.target ≤ target).map
            fun step => ⟨step.up, .up, step.source, step.target⟩)
        else
          (chain.reverse.filter fun step => step.target ≤ source ∧ target ≤ step.source).mapM
            fun step => step.down.map fun down => ⟨down, .down, step.target, step.source⟩
    | _ => none

/-- Fold one layer's events in. -/
def applyAll (view : DefView) (layer : LayerId) : List DefEvent → Except BorgError DefView
  | [] => .ok view
  | event :: rest => do (← view.apply event layer).applyAll layer rest

end DefView

namespace Log

/-- The def layers along a read path, oldest first. -/
def defLayersAlong (log : Log) (path : ReadPath) : List LayerId :=
  (path.segments.flatMap fun (branch, bound) => log.defLayersOf branch bound).insertionSort (· ≤ ·)

/-- The def-version in force at the end of a path. -/
def defHead (log : Log) (path : ReadPath) : LayerId := (log.defLayersAlong path).getLast?.getD 0

def foldDefs (log : Log) : List LayerId → DefView → Except BorgError DefView
  | [], view => .ok view
  | layer :: rest, view => do log.foldDefs rest (← view.applyAll layer (log.storage.readDefLayer layer))

/-- Fold the def-event stream along a path into the definitions in force there. -/
def view (log : Log) (path : ReadPath) : Except BorgError DefView :=
  log.foldDefs (log.defLayersAlong path) .empty

/-- Fold the same stream, stopping at a def-version: the view an actor at that ClientVersion has. -/
def viewAt (log : Log) (path : ReadPath) (ceiling : LayerId) : Except BorgError DefView :=
  log.foldDefs ((log.defLayersAlong path).takeWhile (· ≤ ceiling)) .empty

/-- Push a def mutation as a layer on a branch.  Validated against the current view before the layer
commits, so that a rejected push leaves the definitions untouched. -/
def push (branch : BranchId) (events : List DefEvent) : LogM LayerId := do
  let view ← ask fun log => log.view (log.readPath branch none)
  let handle ← openLayer branch .defs .source
  match view.applyAll handle.id events with
  | .error rejection =>
    abort handle
    throw rejection
  | .ok _ =>
    putDefs handle events
    commit handle
where
  putDefs (handle : LayerHandle) : List DefEvent → LogM Unit
    | [] => pure ()
    | event :: rest => do
      putDef handle event
      putDefs handle rest

end Log

end BorgCore
