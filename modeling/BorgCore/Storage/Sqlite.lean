import BorgCore.Lib.Rows
import BorgCore.Storage.Memory

/-!
# The SQLite store

`events` and `layer_events` are the log, and `cell_index` is a projection of them that is kept on the way
in.  Rows are written as they arrive, a batch at a time, and visibility is a join and not a rewrite: a read
keeps the rows of committed layers, so to commit is to update one row.

A batch is one transaction, so a batch that fails has written nothing; its rows are gone all the same.
-/

namespace BorgCore

/-! ### The tables -/

/-- The `state` column of a layer. -/
inductive RowState where
  | open | sealed | committed
deriving DecidableEq, Repr

def RowState.layerState : RowState → LayerState
  | .open => .open
  | .sealed => .sealed
  | .committed => .committed

structure LayerRow where
  branch : BranchId
  state : RowState
  /-- Absent until the layer is about to commit. -/
  metadata : Option Layer
deriving DecidableEq

/-- The primary key of the read index: `landed` is the layer of this branch that carried the event here. -/
structure IndexKey where
  branch : BranchId
  record : CellAt
  landed : LayerId
deriving DecidableEq

structure Database where
  layers : AssocMap LayerId LayerRow
  branches : AssocMap BranchId Branch
  events : AssocMap EventId Event
  /-- Membership: the events of a layer, in order. -/
  layerEvents : Rows LayerId EventId
  cellIndex : AssocMap IndexKey EventId
  defEvents : Rows LayerId DefEvent

/-- A membership row waiting to be flushed, with the event itself where the layer is its author. -/
structure PendingRow where
  seq : Nat
  event : EventId
  authored : Option Event
deriving DecidableEq

structure SqliteOpenLayer where
  id : LayerId
  branch : BranchId
  /-- How many def events it has written. -/
  defs : Nat
  seq : Nat
  pending : List PendingRow
deriving DecidableEq

structure SqliteStorage where
  conn : Database
  /-- The next event id to mint. -/
  nextEvent : EventId

abbrev SqliteM := EStateM BorgError SqliteStorage

/-- A store and the handle a call is made through. -/
structure Handled where
  storage : SqliteStorage
  handle : SqliteOpenLayer

abbrev HandleM := EStateM BorgError Handled

def batch : Nat := 512

namespace Database

def empty : Database := ⟨∅, ∅, ∅, ∅, ∅, ∅⟩

/-! ### Reading -/

/-- Whether a layer's rows are kept by a read. -/
def isCommitted (db : Database) (layer : LayerId) : Bool :=
  ((db.layers.lookup layer).map LayerRow.state) = some .committed

/-- A row of the read index, joined to its event. -/
structure Selected where
  record : CellAt
  landed : LayerId
  event : Event
deriving DecidableEq

/-- The index rows a read of one segment sees: on its branch, within its bound, of committed layers. -/
def select (db : Database) (segment : BranchId × LayerId) : List Selected :=
  db.cellIndex.toPairs.filterMap fun row =>
    if row.1.branch = segment.1 ∧ db.isCommitted row.1.landed ∧ row.1.landed ≤ segment.2 then
      (db.events.lookup row.2).map (Selected.mk row.1.record row.1.landed)
    else none

def newest (rows : List Selected) (record : CellAt) : Option Selected :=
  (rows.filter fun row => row.record = record).argmax Selected.landed

/-- One seek for each segment; the first segment holding any record wins. -/
def getCellFrom (db : Database) (record : CellAt) : List (BranchId × LayerId) → Option Landed
  | [] => none
  | segment :: outer =>
    match newest (db.select segment) record with
    | some row => some ⟨row.event, row.landed⟩
    | none => getCellFrom db record outer

def getCell (db : Database) (path : ReadPath) (cell : CellRef) (version : DefVersion) : Option Landed :=
  db.getCellFrom ⟨cell, version⟩ path.segments

def cellVersions (db : Database) (path : ReadPath) (cell : CellRef) : List DefVersion :=
  (path.segments.flatMap fun segment =>
    ((db.select segment).filter fun row => row.record.cell = cell).map fun row => row.record.version).dedup

/-- The newest row of each record of a buffer that one segment sees, those of cells already `seen` further in
aside. -/
def scanSegment (db : Database) (buffer : BufferId) (seen : List CellRef) (segment : BranchId × LayerId) :
    List Event :=
  let rows := (db.select segment).filter fun row => row.record.cell.buffer = buffer
  (((rows.map Selected.record).dedup.filterMap (newest rows)).map Selected.event).filter fun event =>
    event.cell ∉ seen

def scanFrom (db : Database) (buffer : BufferId) (seen : List CellRef) :
    List (BranchId × LayerId) → List Event
  | [] => []
  | segment :: outer =>
    let rows := db.scanSegment buffer seen segment
    rows ++ scanFrom db buffer (rows.map Event.cell ++ seen) outer

def scanBuffer (db : Database) (path : ReadPath) (buffer : BufferId) : List Event :=
  db.scanFrom buffer [] path.segments

def readMembership (db : Database) (layer : LayerId) : List EventId := db.layerEvents.ofGroup layer

/-- A layer's events in order; a membership row that names no event is dropped by the join. -/
def readLayer (db : Database) (layer : LayerId) : List Event :=
  (db.readMembership layer).filterMap db.events.lookup

def readDefLayer (db : Database) (layer : LayerId) : List DefEvent := db.defEvents.ofGroup layer

/-- A layer as its metadata has it, in the state its row is in. -/
def LayerRow.layer (row : LayerRow) : Option Layer :=
  row.metadata.map fun layer => { layer with state := row.state.layerState }

/-- Every layer that has metadata, in the order of ids. -/
def readLayers (db : Database) : List Layer :=
  (db.layers.keys.insertionSort (· ≤ ·)).filterMap fun id => (db.layers.lookup id).bind LayerRow.layer

def readBranches (db : Database) : List Branch := db.branches.values

/-! ### Writing -/

/-- The table of events with the one a row brings along. -/
def adding (events : AssocMap EventId Event) (row : PendingRow) : AssocMap EventId Event :=
  match row.authored with
  | some event => events.insert event.id event
  | none => events

/-- Write a membership row, with its event where that is not in the table yet, and its row of the read
index, which is taken from the event. -/
def insertRow (branch : BranchId) (layer : LayerId) (db : Database) (row : PendingRow) :
    Except BorgError Database :=
  if row.authored.any fun event => (db.events.lookup event.id).isSome then
    .error (.storage "UNIQUE constraint failed: events.id")
  else if (db.layerEvents.lookup (layer, row.seq)).isSome then
    .error (.storage "UNIQUE constraint failed: layer_events.layer, layer_events.seq")
  else
    match (adding db.events row).lookup row.event with
    | none => .error (.storage s!"unknown event e{row.event}")
    | some event =>
      .ok { db with
        events := adding db.events row
        layerEvents := db.layerEvents.insert (layer, row.seq) row.event
        cellIndex := db.cellIndex.insert ⟨branch, event.at, layer⟩ row.event }

/-- What an abort deletes, a statement at a time.  Each is a transaction of its own, so an abort that is cut
short has made the first of them.  The events the layer merely named belong to the layer that authored them. -/
def abortStatements (layer : LayerId) : List (Database → Database) :=
  [fun db => { db with
      cellIndex := db.cellIndex.retain fun key event => if key.landed = layer then none else some event },
    fun db => { db with layerEvents := db.layerEvents.dropGroup layer },
    fun db => { db with
      events := db.events.retain fun _ event => if event.authored = layer then none else some event },
    fun db => { db with defEvents := db.defEvents.dropGroup layer },
    fun db => { db with layers := db.layers.erase layer }]

/-- The tables after the first `done` of them. -/
def dropping (db : Database) (layer : LayerId) (done : Nat) : Database :=
  ((abortStatements layer).take done).foldl (fun db statement => statement db) db

/-- Every row of the log, joined to its event and to its layer, in the order of layers and positions. -/
def membershipRows (db : Database) : List ((LayerId × Nat) × IndexKey × EventId) :=
  (db.layerEvents.toPairs.filterMap fun row =>
    (db.events.lookup row.2).bind fun event =>
      (db.layers.lookup row.1.1).map fun layer => (row.1, ⟨layer.branch, event.at, row.1.1⟩, row.2)).insertionSort
    fun row other => row.1.1 < other.1.1 ∨ row.1.1 = other.1.1 ∧ row.1.2 ≤ other.1.2

end Database

/-! ### Reading the text columns

Values, derivations, cells, defs, metadata and branches are written as JSON text.  A row of the tables above
keeps what its text was written from, and a read goes by the text. -/

/-- How a type is written as JSON, and what is read out of a text. -/
structure Json (α : Type) where
  encode : α → String
  decode : String → Except BorgError α

/-- What is read out of a column that something was written to. -/
def Json.carry {α : Type} (json : Json α) (a : α) : Except BorgError α := json.decode (json.encode a)

structure Texts where
  buffer : Json BufferId
  key : Json CellKey
  value : Json Value
  derivation : Json Derivation
  defEvent : Json DefEvent
  layer : Json Layer
  branch : Json Branch

namespace Texts

def toEvent (texts : Texts) (event : Event) : Except BorgError Event := do
  let buffer ← texts.buffer.carry event.cell.buffer
  let key ← texts.key.carry event.cell.key
  let value ← texts.value.carry event.value
  let derivation ← event.derivation.mapM texts.derivation.carry
  return { event with cell := ⟨buffer, key⟩, value, derivation }

def toLanded (texts : Texts) (landed : Landed) : Except BorgError Landed := do
  return { landed with event := ← texts.toEvent landed.event }

def getCell (texts : Texts) (db : Database) (path : ReadPath) (cell : CellRef) (version : DefVersion) :
    Except BorgError (Option Landed) :=
  (db.getCell path cell version).mapM texts.toLanded

def scanBuffer (texts : Texts) (db : Database) (path : ReadPath) (buffer : BufferId) :
    Except BorgError (List Event) :=
  (db.scanBuffer path buffer).mapM texts.toEvent

def readLayer (texts : Texts) (db : Database) (layer : LayerId) : Except BorgError (List Event) :=
  (db.readLayer layer).mapM texts.toEvent

def readDefLayer (texts : Texts) (db : Database) (layer : LayerId) : Except BorgError (List DefEvent) :=
  (db.readDefLayer layer).mapM texts.defEvent.carry

/-- Every row that has metadata, in the order of ids, with its metadata as it was put down. -/
def describedRows (db : Database) : List (LayerRow × Layer) :=
  (db.layers.keys.insertionSort (· ≤ ·)).filterMap fun id =>
    (db.layers.lookup id).bind fun row => row.metadata.map fun layer => (row, layer)

def readLayers (texts : Texts) (db : Database) : Except BorgError (List Layer) :=
  (describedRows db).mapM fun (row, layer) => do
    return { ← texts.layer.carry layer with state := row.state.layerState }

def readBranches (texts : Texts) (db : Database) : Except BorgError (List Branch) :=
  db.readBranches.mapM texts.branch.carry

end Texts

/-! ### Through the handle of an open layer -/

namespace SqliteOpenLayer

open Database

def flush : HandleM Unit := fun state =>
  let emptied := { state.handle with pending := [] }
  match state.handle.pending.foldlM (insertRow state.handle.branch state.handle.id) state.storage.conn with
  | .ok conn => .ok () ⟨{ state.storage with conn := conn }, emptied⟩
  | .error err => .error err ⟨state.storage, emptied⟩

/-- Take a row in, and write the batch out once it is full. -/
def push (event : EventId) (authored : Option Event) : HandleM Unit := fun state =>
  let handle := { state.handle with
    seq := state.handle.seq + 1
    pending := state.handle.pending ++ [⟨state.handle.seq, event, authored⟩] }
  if batch ≤ handle.pending.length then flush ⟨state.storage, handle⟩ else .ok () ⟨state.storage, handle⟩

def authorEvent (cell : CellRef) (draft : EventDraft) : HandleM EventId := fun state =>
  let id := state.storage.nextEvent
  (do push id (some (draft.event id cell state.handle.id)); return id : HandleM EventId)
    { state with storage := { state.storage with nextEvent := id + 1 } }

/-- Author an event that already has an identity: the import half.  Minting goes on above it. -/
def adoptEvent (event : Event) : HandleM Unit := fun state =>
  if event.authored ≠ state.handle.id then
    .error (.storage <| s!"event e{event.id} says it was authored in L{event.authored}, but is being replayed " ++
      s!"into L{state.handle.id}")
      state
  else push event.id (some event)
    { state with storage := { state.storage with nextEvent := max state.storage.nextEvent (event.id + 1) } }

def includeEvent (event : EventId) : HandleM Unit := push event none

def putDef (event : DefEvent) : HandleM Unit := fun state =>
  let key := (state.handle.id, state.handle.defs)
  if (state.storage.conn.defEvents.lookup key).isSome then
    .error (.storage "UNIQUE constraint failed: def_events.layer, def_events.seq") state
  else
    let conn := { state.storage.conn with defEvents := state.storage.conn.defEvents.insert key event }
    .ok () ⟨{ state.storage with conn := conn }, { state.handle with defs := state.handle.defs + 1 }⟩

/-- Close to writes.  The handle is spent. -/
def sealLayer : HandleM Unit := fun state =>
  match flush state with
  | .error err state => .error err state
  | .ok _ state =>
    let conn := { state.storage.conn with
      layers := state.storage.conn.layers.adjust state.handle.id fun row =>
        if row.state = .open then { row with state := .sealed } else row }
    .ok () { state with storage := { state.storage with conn := conn } }

/-- What is not flushed simply goes, and then the first `done` statements run. -/
def abortFirst (done : Nat) : HandleM Unit := fun state =>
  .ok () ⟨{ state.storage with conn := state.storage.conn.dropping state.handle.id done },
    { state.handle with pending := [] }⟩

def abort : HandleM Unit := abortFirst 5

end SqliteOpenLayer

/-! ### On the store -/

namespace SqliteStorage

def new : SqliteStorage := ⟨.empty, 1⟩

/-- Open the store a process finds: ids are minted above every event that is there. -/
def fromConnection (conn : Database) : SqliteStorage := ⟨conn, conn.events.keys.foldr max 0 + 1⟩

def openLayer (branch : BranchId) (id : LayerId) : SqliteM SqliteOpenLayer := fun store =>
  if (store.conn.layers.lookup id).isSome then
    .error (.storage s!"layer {id} already exists: UNIQUE constraint failed: layers.id") store
  else
    .ok ⟨id, branch, 0, 0, []⟩ { store with
      conn := { store.conn with layers := store.conn.layers.insert id ⟨branch, .open, none⟩ } }

/-- Record a layer's metadata, in the row that is there or in a new one. -/
def putLayerMeta (layer : Layer) : SqliteM Unit := fun store =>
  let row := match store.conn.layers.lookup layer.id with
    | some row => { row with metadata := some layer }
    | none => ⟨layer.branch, .open, some layer⟩
  .ok () { store with conn := { store.conn with layers := store.conn.layers.insert layer.id row } }

def putBranch (branch : Branch) : SqliteM Unit := fun store =>
  .ok () { store with conn := { store.conn with branches := store.conn.branches.insert branch.id branch } }

/-- Make a sealed layer visible: one row is updated, whatever the size of the layer. -/
def commitLayer (layer : LayerId) : SqliteM Unit := fun store =>
  match store.conn.layers.lookup layer with
  | some row =>
    if row.state = .sealed then
      .ok () { store with conn := { store.conn with
        layers := store.conn.layers.insert layer { row with state := .committed } } }
    else .error (.storage s!"layer L{layer} is not sealed") store
  | none => .error (.storage s!"layer L{layer} is not sealed") store

/-- Regenerate the read index from the log. -/
def rebuildReadIndex : SqliteM Unit := fun store =>
  .ok () { store with conn := { store.conn with
    cellIndex := store.conn.membershipRows.foldl (fun index row => index.insert row.2.1 row.2.2) ∅ } }

end SqliteStorage

end BorgCore
