import Mathlib.Data.List.MinMax
import Mathlib.Data.List.Sort
import BorgCore.Core.Layer

/-!
# The in-memory store

Writes stream into an invisible open layer and nothing becomes visible until commit.  The read index
maps a branch, a cell and a def-version to the layers that landed a record there; it is a projection
of layer membership, kept because a read must stay a single lookup.

A call that fails keeps what it had already done, which is what `EStateM` models.
-/

namespace BorgCore

/-- The landings of one record on one branch, in commit order: one entry for each landing layer. -/
abbrev History := List (LayerId × EventId)

abbrev ReadIndex := AssocMap (BranchId × CellRef × DefVersion) History

/-- The newest landing at or below a bound, the last of the highest where several tie.  A history is
in commit order and not in id order, so this is a maximum and not the last entry that fits. -/
def newestAt (history : History) (bound : LayerId) : Option (LayerId × EventId) :=
  (history.filter fun entry => entry.1 ≤ bound).reverse.argmax Prod.fst

/-- One entry for each landing layer, replaced where the layer is there already. -/
def History.place : History → LayerId → EventId → History
  | [], layer, event => [(layer, event)]
  | entry :: rest, layer, event =>
    if entry.1 = layer then (layer, event) :: rest else entry :: place rest layer event

/-- Record that `event` landed on `branch` at `layer`. -/
def index (into : ReadIndex) (branch : BranchId) (layer : LayerId) (event : Event) : ReadIndex :=
  let key := (branch, event.cell, event.version)
  into.insert key ((into.getD key []).place layer event.id)

structure Membership where
  branch : BranchId
  events : List EventId
deriving DecidableEq

structure StagedLayer where
  branch : BranchId
  /-- Membership in the order it was written, whether authored here or named from elsewhere. -/
  members : List EventId
  /-- The events this layer is the author of, still invisible. -/
  authored : List Event
  defs : List DefEvent
  isSealed : Bool
deriving DecidableEq

namespace StagedLayer

def fresh (branch : BranchId) : StagedLayer := ⟨branch, [], [], [], false⟩

def author (staged : StagedLayer) (event : Event) : StagedLayer :=
  { staged with members := staged.members ++ [event.id], authored := staged.authored ++ [event] }

def name (staged : StagedLayer) (event : EventId) : StagedLayer :=
  { staged with members := staged.members ++ [event] }

def define (staged : StagedLayer) (event : DefEvent) : StagedLayer :=
  { staged with defs := staged.defs ++ [event] }

end StagedLayer

structure MemoryStorage where
  /-- Every event, by identity: one entry however many layers name it. -/
  events : AssocMap EventId Event
  /-- A committed layer's membership, in order, and the branch it belongs to. -/
  members : AssocMap LayerId Membership
  reads : ReadIndex
  /-- Open and sealed layers, invisible to readers until commit. -/
  staged : AssocMap LayerId StagedLayer
  defContents : AssocMap LayerId (List DefEvent)
  layerMeta : AssocMap LayerId Layer
  branches : AssocMap BranchId Branch
  nextEvent : EventId

abbrev StoreM := EStateM BorgError MemoryStorage

namespace MemoryStorage

def new : MemoryStorage := ⟨∅, ∅, ∅, ∅, ∅, ∅, ∅, 0⟩

/-! ### Reading -/

/-- An event by identity.  A membership row naming an event that does not exist is a corrupt log and
not a miss. -/
def event (store : MemoryStorage) (id : EventId) : Except BorgError Event :=
  match store.events.lookup id with
  | some event => .ok event
  | none => .error (.storage s!"unknown event e{id}")

/-- Where a record landed last on one branch, at or below a bound. -/
def newestOn (store : MemoryStorage) (branch : BranchId) (bound : LayerId) (cell : CellRef)
    (version : DefVersion) : Option (LayerId × EventId) :=
  newestAt (store.reads.getD (branch, cell, version) []) bound

/-- `getCell` over the segments of a path: the first one holding any record wins, a tombstone
included. -/
def getCellFrom (store : MemoryStorage) (cell : CellRef) (version : DefVersion) :
    List (BranchId × LayerId) → Except BorgError (Option Landed)
  | [] => .ok none
  | (branch, bound) :: outer =>
    match store.newestOn branch bound cell version with
    | some (landedAt, id) => do return some ⟨← store.event id, landedAt⟩
    | none => getCellFrom store cell version outer

def getCell (store : MemoryStorage) (path : ReadPath) (cell : CellRef) (version : DefVersion) :
    Except BorgError (Option Landed) :=
  store.getCellFrom cell version path.segments

/-- The def-versions of a cell that one segment of a path has a record at. -/
def versionsOn (store : MemoryStorage) (cell : CellRef) (segment : BranchId × LayerId) :
    List DefVersion :=
  store.reads.toPairs.filterMap fun ((branch, indexed, version), history) =>
    if branch = segment.1 ∧ indexed = cell ∧ history.any (fun entry => entry.1 ≤ segment.2) then
      some version
    else none

def cellVersions (store : MemoryStorage) (path : ReadPath) (cell : CellRef) : List DefVersion :=
  (path.segments.flatMap (store.versionsOn cell)).dedup

/-- The newest records one segment has of a buffer's cells, those already `seen` further in aside. -/
def scanSegment (store : MemoryStorage) (buffer : BufferId) (seen : List CellRef)
    (segment : BranchId × LayerId) : List (CellRef × EventId) :=
  store.reads.toPairs.filterMap fun ((branch, cell, _), history) =>
    if branch = segment.1 ∧ cell.buffer = buffer ∧ cell ∉ seen then
      (newestAt history segment.2).map fun entry => (cell, entry.2)
    else none

/-- `scanBuffer` over the segments of a path.  Shadowing is between segments and by cell: a cell
materialized at two def-versions is two rows of one segment. -/
def scanFrom (store : MemoryStorage) (buffer : BufferId) (seen : List CellRef) :
    List (BranchId × LayerId) → List EventId
  | [] => []
  | segment :: outer =>
    let rows := store.scanSegment buffer seen segment
    rows.map Prod.snd ++ scanFrom store buffer (rows.map Prod.fst ++ seen) outer

def scanBuffer (store : MemoryStorage) (path : ReadPath) (buffer : BufferId) :
    Except BorgError (List Event) :=
  (store.scanFrom buffer [] path.segments).mapM store.event

def readMembership (store : MemoryStorage) (layer : LayerId) : List EventId :=
  match store.members.lookup layer with
  | some membership => membership.events
  | none => []

def readLayer (store : MemoryStorage) (layer : LayerId) : Except BorgError (List Event) :=
  (store.readMembership layer).mapM store.event

def readDefLayer (store : MemoryStorage) (layer : LayerId) : List DefEvent :=
  store.defContents.getD layer []

/-! ### Writing -/

/-- The staged layer a handle writes into, refusing once it is sealed. -/
def stagedFor (store : MemoryStorage) (id : LayerId) : Except BorgError StagedLayer :=
  match store.staged.lookup id with
  | none => .error (.storage s!"layer L{id} is not open")
  | some staged => if staged.isSealed then .error (.storage s!"layer L{id} is sealed") else .ok staged

/-- Rewrite the staged layer a handle writes into. -/
def restage (id : LayerId) (change : StagedLayer → StagedLayer) : StoreM Unit := fun store =>
  match store.stagedFor id with
  | .ok staged => .ok () { store with staged := store.staged.insert id (change staged) }
  | .error err => .error err store

def mint : StoreM EventId := fun store =>
  .ok (store.nextEvent + 1) { store with nextEvent := store.nextEvent + 1 }

def openLayer (branch : BranchId) (id : LayerId) : StoreM Unit := fun store =>
  if (store.staged.lookup id).isSome || (store.members.lookup id).isSome then
    .error (.storage s!"layer L{id} already exists") store
  else
    .ok () { store with staged := store.staged.insert id (.fresh branch) }

def authorEvent (layer : LayerId) (cell : CellRef) (draft : EventDraft) : StoreM EventId := do
  let id ← mint
  restage layer (·.author (draft.event id cell layer))
  return id

/-- Author an event that already has an identity: the import half.  Minting goes on above it. -/
def adoptEvent (layer : LayerId) (event : Event) : StoreM Unit := fun store =>
  if event.authored ≠ layer then
    .error (.storage <| s!"event e{event.id} says it was authored in L{event.authored}, but is being replayed " ++
      s!"into L{layer}")
      store
  else restage layer (·.author event) { store with nextEvent := max store.nextEvent event.id }

def includeEvent (layer : LayerId) (event : EventId) : StoreM Unit := fun store =>
  match store.events.lookup event with
  | none => .error (.storage s!"unknown event e{event}") store
  | some _ => restage layer (·.name event) store

def putDef (layer : LayerId) (event : DefEvent) : StoreM Unit :=
  restage layer (·.define event)

def sealLayer (layer : LayerId) : StoreM Unit := fun store =>
  match store.staged.lookup layer with
  | none => .error (.storage s!"layer L{layer} is not open") store
  | some staged =>
    .ok () { store with staged := store.staged.insert layer { staged with isSealed := true } }

def abort (layer : LayerId) : StoreM Unit := fun store =>
  .ok () { store with staged := store.staged.erase layer }

def putLayerMeta (layer : Layer) : StoreM Unit := fun store =>
  .ok () { store with layerMeta := store.layerMeta.insert layer.id layer }

def putBranch (branch : Branch) : StoreM Unit := fun store =>
  .ok () { store with branches := store.branches.insert branch.id branch }

/-- Index a layer's members in membership order, so that a layer writing one cell twice resolves to
its later event. -/
def indexMembers (branch : BranchId) (layer : LayerId) : List EventId → StoreM Unit
  | [], store => .ok () store
  | id :: rest, store =>
    match store.event id with
    | .error err => .error err store
    | .ok event =>
      indexMembers branch layer rest { store with reads := index store.reads branch layer event }

/-- Add the events of a layer to those the store holds. -/
def storeAll (events : AssocMap EventId Event) (authored : List Event) : AssocMap EventId Event :=
  authored.foldl (fun events event => events.insert event.id event) events

def commitLayer (layer : LayerId) : StoreM Unit := fun store =>
  match store.staged.lookup layer with
  | none => .error (.storage s!"layer L{layer} is not staged") store
  | some staged =>
    let store := { store with staged := store.staged.erase layer }
    if staged.isSealed = false then .error (.storage s!"layer L{layer} is not sealed") store
    else
      let stored := { store with events := storeAll store.events staged.authored }
      match indexMembers staged.branch layer staged.members stored with
      | .error err store => .error err store
      | .ok _ store =>
        .ok () { store with
          members := store.members.insert layer ⟨staged.branch, staged.members⟩
          defContents := store.defContents.insert layer staged.defs }

/-- Index the members of layers, one layer after another. -/
def indexLayers : List LayerId → StoreM Unit
  | [], store => .ok () store
  | layer :: rest, store =>
    match store.members.lookup layer with
    | none => indexLayers rest store
    | some membership =>
      match indexMembers membership.branch layer membership.events store with
      | .error err store => .error err store
      | .ok _ store => indexLayers rest store

/-- Regenerate the read index from the log, in the order of layer ids. -/
def rebuildReadIndex : StoreM Unit := fun store =>
  indexLayers (store.members.keys.insertionSort (· ≤ ·)) { store with reads := ∅ }

end MemoryStorage

end BorgCore
