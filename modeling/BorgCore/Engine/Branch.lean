import BorgCore.Core.Transaction
import BorgCore.Engine.Defs

/-!
# Branches, forking and merge

A fork copies nothing: a branch inherits its parent's layers by ancestry.  A merge copies no events
either: a parent layer names the events of the child layer it replays.

Merging a client branch replays its source layers and skips its derived ones.  Merging a round replays
its derived layers, and there is nothing else on it.
-/

namespace BorgCore

structure RoundOutcome where
  /-- How many invocations the round ran. -/
  executed : Nat
  /-- The layers created on the parent. -/
  landed : List LayerId
  applied : Nat
  /-- The invocations rejected outright, and the cell that moved underneath each. -/
  rejected : List (LayerId × CellRef)
  cascaded : Nat
deriving DecidableEq

def RoundOutcome.empty : RoundOutcome := ⟨0, [], 0, [], 0⟩

/-- A failed guard, said as a merge conflict. -/
def rejection : BorgError → BorgError
  | .guardViolated cell _ _ => .mergeRejected (.guardConflict cell)
  | other => other

namespace Log

/-- The first branch id from the counter on that no branch and no layer uses. -/
def unusedFrom (log : Log) : Nat → BranchId → BranchId
  | 0, id => id
  | fuel + 1, id =>
    if (log.branch id).isNone && (log.head id).isNone then id else log.unusedFrom fuel (id + 1)

def freshBranch : LogM BranchId := fun log =>
  let id := log.unusedFrom (log.branches.keys.length + log.heads.keys.length) log.nextBranch
  .ok id { log with nextBranch := id + 1 }

def registerBranch (branch : Branch) : LogM Unit := fun log =>
  .ok () { log with branches := log.branches.insert branch.id branch }

def persist (branch : Branch) : LogM Unit := do
  registerBranch branch
  store (MemoryStorage.putBranch branch)

/-- The root of a tree: a branch with no origin. -/
def createRoot (name : Option String) : LogM BranchId := do
  let id ← freshBranch
  persist ⟨id, name, none⟩
  return id

def fork (parent : BranchId) (forkAt : LayerId) (name : Option String) : LogM BranchId := do
  match (← get).layer forkAt with
  | none => throw (.storage s!"unknown layer L{forkAt}")
  | some layer =>
    if layer.branch ≠ parent then throw (.layerNotOnBranch forkAt parent)
    let id ← freshBranch
    persist ⟨id, name, some forkAt⟩
    return id

def parentOf (log : Log) (id : BranchId) : Option BranchId :=
  ((log.branch id).bind Branch.origin).bind fun origin => (log.layer origin).map Layer.branch

/-! ### Replaying a client branch -/

/-- The child's own source layers, oldest first. -/
def replayableLayers (log : Log) (child : BranchId) (mode : MergeMode) : List LayerId :=
  (((log.layersOf child).filter fun layer =>
    layer.author.isSource ∧ (mode = .defOnly → layer.kind = .defs)).map Layer.id).insertionSort (· ≤ ·)

/-- Which definitions the parent has moved since the fork point. -/
def defsTouchedSince (log : Log) (parent : BranchId) (forkPoint : LayerId) :
    List (ObjectTypeName × FieldName) :=
  (((log.layersOf parent).filter fun layer => layer.kind = .defs ∧ forkPoint < layer.id).flatMap
    fun layer => (log.storage.readDefLayer layer.id).filterMap DefEvent.touches).dedup

/-- Reject a def event whose definition the parent has moved since. -/
def checkDiverged (moved : List (ObjectTypeName × FieldName)) : List DefEvent → Except BorgError Unit
  | [] => .ok ()
  | event :: rest =>
    match event.touches with
    | some touched =>
      if touched ∈ moved then .error (.mergeRejected (.defDiverged touched.1))
      else checkDiverged moved rest
    | none => checkDiverged moved rest

/-- Reject if the child wrote to an object the parent has since deleted: landed after the fork, not
authored after it. -/
def checkDangling (log : Log) (path : ReadPath) (forkPoint : LayerId) :
    List Event → Except BorgError Unit
  | [] => .ok ()
  | event :: rest => do
    let existence := event.cell.existenceOf
    if existence ≠ event.cell then
      match ← log.storage.getCell path existence .unversioned with
      | some found =>
        if found.event.value.isTombstone ∧ forkPoint < found.landedAt then
          throw (.mergeRejected (.danglingWrite event.cell found.landedAt))
      | none => pure ()
    log.checkDangling path forkPoint rest

/-- Validate one replayable layer against the parent: its definitions, its guards, then its writes.
Returns its membership. -/
def validateLayer (log : Log) (parent : BranchId) (origin : LayerId)
    (moved : List (ObjectTypeName × FieldName)) (layer : LayerId) : Except BorgError (List Event) := do
  checkDiverged moved (log.storage.readDefLayer layer)
  let events ← log.storage.readLayer layer
  match log.checkGuards parent (((log.layer layer).map Layer.guards).getD []) (some origin) with
  | .error violation => throw (rejection violation)
  | .ok () => pure ()
  log.checkDangling (log.readPath parent none) origin events
  return events

/-- Validate everything before anything is written. -/
def validateReplay (log : Log) (parent : BranchId) (origin : LayerId) (layers : List LayerId)
    (reads : List CellRef) : Except BorgError (List (LayerId × List Event)) := do
  match log.checkReads parent reads origin with
  | .error violation => throw (rejection violation)
  | .ok () => pure ()
  let moved := log.defsTouchedSince parent origin
  layers.mapM fun layer => do return (layer, ← log.validateLayer parent origin moved layer)

/-- Name events as members of a layer, in order. -/
def includeAll (handle : LayerHandle) : List EventId → LogM Unit
  | [] => pure ()
  | event :: rest => do
    includeEvent handle event
    includeAll handle rest

/-- Replay one validated layer onto the parent: its def events, and its value events by name. -/
def replayLayer (parent : BranchId) (source : LayerId) (events : List Event) : LogM LayerId := do
  let log ← get
  let kind := ((log.layer source).map Layer.kind).getD .value
  let handle ← openLayer parent kind .source
  push.putDefs handle (log.storage.readDefLayer source)
  includeAll handle (events.map Event.id)
  commit handle

def replayLayers (parent : BranchId) : List (LayerId × List Event) → LogM (List LayerId)
  | [] => pure []
  | (source, events) :: rest => do
    let landed ← replayLayer parent source events
    return landed :: (← replayLayers parent rest)

/-- The merge itself: validate everything against the parent, then apply. -/
def replay (child parent : BranchId) (origin : LayerId) (mode : MergeMode) (reads : List CellRef) :
    LogM (List LayerId) := do
  let staged ← ask fun log =>
    log.validateReplay parent origin (log.replayableLayers child mode) reads
  replayLayers parent staged

/-- Replay a child's source layers onto its parent. -/
def merge (child : BranchId) (mode : MergeMode) : LogM (List LayerId) := do
  let log ← get
  match (log.branch child).bind Branch.origin with
  | none => throw (.storage "cannot merge the root branch")
  | some origin =>
    match log.parentOf child with
    | none => throw (.storage "child has no parent")
    | some parent => replay child parent origin mode []

/-- Commit a client transaction: merge it, guarded by everything it read. -/
def mergeTransaction (tx : Transaction) (mode : MergeMode) : LogM (List LayerId) :=
  replay tx.branch tx.parent tx.forkPoint mode tx.guards

/-! ### Landing a round -/

/-- Existence cells the parent has tombstoned since the fork point. -/
def deletedSince (log : Log) (parent : BranchId) (forkPoint : LayerId) :
    Except BorgError (List CellRef) := do
  let layers := (log.layersOf parent).filter fun layer =>
    forkPoint < layer.id ∧ layer.author.isSource
  let events ← layers.mapM fun layer => log.storage.readLayer layer.id
  return (events.flatten.filter fun event =>
    event.value.isTombstone ∧ event.cell.existenceOf = event.cell).map Event.cell

/-- The invocations whose guard failed, and the cell that moved underneath each. -/
def failedGuards (log : Log) (round : Round) : List (LayerId × CellRef) :=
  if log.touchedSince round.parent round.forkPoint then
    round.guards.filterMap fun (layer, guards) =>
      match log.checkReads round.parent guards round.forkPoint with
      | .error (.guardViolated cell _ _) => some (layer, cell)
      | _ => none
  else []

/-- The first object a layer wrote to that is among the deleted ones. -/
def deletedIn (log : Log) (deleted : List CellRef) (layer : LayerId) :
    Except BorgError (Option CellRef) := do
  let events ← log.storage.readLayer layer
  return (events.map fun event => event.cell.existenceOf).find? (· ∈ deleted)

/-- The invocations that wrote to an object the parent has deleted, those already failed aside. -/
def danglingLayers (log : Log) (deleted : List CellRef) (failed : List LayerId) :
    List LayerId → Except BorgError (List (LayerId × CellRef))
  | [] => .ok []
  | layer :: rest => do
    let others ← log.danglingLayers deleted failed rest
    if layer ∈ failed then return others
    match ← log.deletedIn deleted layer with
    | some cell => return (layer, cell) :: others
    | none => return others

/-- The invocations a round's merge rejects outright. -/
def rejectedBy (log : Log) (round : Round) : Except BorgError (List (LayerId × CellRef)) := do
  let guarded := log.failedGuards round
  let deleted ← log.deletedSince round.parent round.forkPoint
  if deleted.isEmpty then return guarded
  return guarded ++ (← log.danglingLayers deleted (guarded.map Prod.fst) round.layers)

/-- The layers of a round that its merge drops. -/
def droppedBy (log : Log) (round : Round) : Except BorgError (List LayerId) := do
  let rejected ← log.rejectedBy round
  return round.cascade ((rejected.map Prod.fst).insertionSort (· ≤ ·))

/-- The layers of a round that its merge applies, oldest first. -/
def appliedBy (log : Log) (round : Round) : Except BorgError (List LayerId) := do
  let dropped ← log.droppedBy round
  return round.layers.filter (· ∉ dropped)

/-- Add a layer to its author's group, keeping the authors in the order they were first seen. -/
def groupByAuthor : List (LayerAuthor × LayerId) → List (LayerAuthor × List LayerId) →
    List (LayerAuthor × List LayerId)
  | [], groups => groups
  | (author, layer) :: rest, groups => groupByAuthor rest (join author layer groups)
where
  join (author : LayerAuthor) (layer : LayerId) :
      List (LayerAuthor × List LayerId) → List (LayerAuthor × List LayerId)
    | [] => [(author, [layer])]
    | (seen, group) :: rest =>
      if seen = author then (seen, group ++ [layer]) :: rest
      else (seen, group) :: join author layer rest

/-- Land one producer's invocations as one layer; a producer that wrote nothing lands nothing. -/
def landGroup (parent : BranchId) (author : LayerAuthor) (carried : List LayerId) :
    LogM (Option LayerId) := do
  let handle ← openLayer parent .value author
  let events := carried.flatMap (← get).storage.readMembership
  includeAll handle events
  if events.isEmpty then
    abort handle
    return none
  return some (← commit handle)

def landGroups (parent : BranchId) : List (LayerAuthor × List LayerId) → LogM (List LayerId)
  | [] => pure []
  | (author, carried) :: rest => do
    let landed ← landGroup parent author carried
    return landed.toList ++ (← landGroups parent rest)

/-- Land a settled round on the branch it was settling: the invocations whose guards held are applied,
the rest are dropped, and so is everything that consumed a dropped one's output. -/
def mergeRound (round : Round) : LogM RoundOutcome := do
  if round.isEmpty then return .empty
  let rejected ← ask fun log => log.rejectedBy round
  let dropped ← ask fun log => log.droppedBy round
  let applied ← ask fun log => log.appliedBy round
  let log ← get
  let groups := groupByAuthor
    (applied.map fun layer => ((log.authorOf layer).getD .source, layer)) []
  let landed ← landGroups round.parent groups
  return { executed := 0, landed, applied := applied.length, rejected,
           cascaded := dropped.length - rejected.length }

end Log

end BorgCore
