import BorgCore.Core.Address
import BorgCore.Engine.Values
import BorgCore.Ops.Push
import BorgCore.Ops.Site
import BorgCore.Storage.Process

/-!
# The export stream

A registry is written out as a list of records, one to a line, and read back into a fresh one.  What is in the
stream is the log and the files beside it that change an answer; what is a projection is not.

Order is part of the format: a `layer` record opens a block and everything until the next one belongs to it.
Layers are in ascending order, and a layer names no event that was authored above it, so one pass is enough.
-/

namespace BorgCore

namespace Stream

/-! ### The records -/

/-- A judgement about a producer's code, as the file beside the store has it. -/
structure BrokenProducer where
  branch : BranchId
  producer : ProducerId
  /-- The ClientVersion it was running at. -/
  version : ClientVersion
  error : String
  since : LayerId
deriving DecidableEq

structure GuardRow where
  cells : List String
  since : LayerId
deriving DecidableEq

structure LayerRow where
  id : LayerId
  branch : BranchId
  kind : LayerKind
  author : LayerAuthor
  parent : Option LayerId
  guards : List GuardRow
deriving DecidableEq

/-- Interned bytes: `text` when they are valid UTF-8 and `hex` otherwise. -/
structure ContentRow where
  pid : String
  text : Option String
  hex : Option String
deriving DecidableEq

inductive ValueRow where
  | int (n : Int64)
  | bool (b : Bool)
  | double (bits : UInt64)
  | ref (pid : String)
  | tombstone
deriving DecidableEq

structure ReadRow where
  cell : String
  version : DefVersion
deriving DecidableEq

structure DerivationRow where
  producer : ProducerId
  freshAsOf : LayerId
  readSet : List ReadRow
deriving DecidableEq

/-- One event.  Its layer is the block it is in. -/
structure EventRow where
  id : EventId
  cell : String
  value : ValueRow
  version : DefVersion
  origin : Origin
  derivation : Option DerivationRow
deriving DecidableEq

inductive Record where
  | header (version : Nat) (binary : String)
  | allocations (next : Nat)
  | txTimeout (seconds : Nat)
  | producer (row : Repo.Implementation)
  | poison (row : BrokenProducer)
  | paused (branch : BranchId)
  | branch (row : Branch)
  /-- Opens a layer block. -/
  | layer (row : LayerRow)
  | content (row : ContentRow)
  | define (event : DefEvent)
  /-- An event authored in this layer, which is a member of it at this position. -/
  | event (row : EventRow)
  /-- A member that was authored elsewhere. -/
  | member (event : EventId)
deriving DecidableEq

/-- How a record is written on a line, and a line read. -/
structure Codec where
  encode : Record → String
  decode : String → Except String Record

def streamVersion : Nat := 1

/-- The files beside the store, as they load. -/
structure Sidecars where
  allocations : Allocations
  transactions : Transactions
  producers : List Repo.Implementation
  paused : List BranchId
  broken : List BrokenProducer
deriving DecidableEq

instance : Inhabited Sidecars := ⟨⟨default, default, [], [], []⟩⟩

/-- What a registry has on disk. -/
structure Registry where
  conn : Database
  interned : Interned
  beside : Sidecars

inductive Failure where
  | store (err : BorgError)
  | parse (err : ParseError)
  | notContentAddressed (kind : PidKind)
  /-- A PID whose numbers are wider than their types. -/
  | unprintable
deriving DecidableEq

abbrev Failure.storage (message : String) : Failure := .store (.storage message)

/-! ### Export -/

/-- A cell as its canonical text, checked to be readable back as itself. -/
def address (cell : CellRef) : Except Failure String :=
  match cell.display with
  | none => .error .unprintable
  | some text =>
    match Parse.cellRef text 0 0 with
    | .error err => .error (.parse err)
    | .ok back =>
      if back = cell then .ok text
      else .error (.storage (s!"a cell has no canonical text form — it renders as `{text}`, which reads back as " ++
        "another. This address cannot be exported without changing it."))

/-- How a double that is no number is written. -/
def displayInfinite (bits : UInt64) : String :=
  if bits <<< 12 ≠ 0 then "NaN" else if bits >>> 63 = 0 then "inf" else "-inf"

def pidText (pid : Pid) : Except Failure String :=
  match pid.display with
  | some text => .ok text
  | none => .error .unprintable

def valueRow : Value → Except Failure ValueRow
  | .int n => .ok (.int n)
  | .bool b => .ok (.bool b)
  | .double bits =>
    if isFinite bits then .ok (.double bits)
    else .error (.storage s!"a cell holds the double `{displayInfinite bits}`, which JSON cannot represent")
  | .ref pid => do return .ref (← pidText pid)
  | .tombstone => .ok .tombstone

def readRow (read : CellAt) : Except Failure ReadRow := do return ⟨← address read.cell, read.version⟩

def derivationRow (derivation : Derivation) : Except Failure DerivationRow := do
  return ⟨derivation.producer, derivation.freshAsOf, ← derivation.readSet.mapM readRow⟩

def eventRow (event : Event) : Except Failure EventRow := do
  let cell ← address event.cell
  let value ← valueRow event.value
  match event.derivation with
  | none => return ⟨event.id, cell, value, event.version, event.origin, none⟩
  | some derivation => return ⟨event.id, cell, value, event.version, event.origin, some (← derivationRow derivation)⟩

def guardRow (guard : Guard) : Except Failure GuardRow := do return ⟨← guard.cells.mapM address, guard.since⟩

def layerRow (layer : Layer) : Except Failure LayerRow := do
  return ⟨layer.id, layer.branch, layer.kind, layer.author, layer.parent, ← layer.guards.mapM guardRow⟩

/-- The bytes as text, where they are the encoding of one. -/
def fromUtf8 (bytes : List UInt8) : Option String := String.fromUTF8? bytes.toByteArray

def contentRow (pid : String) (bytes : List UInt8) : ContentRow :=
  match fromUtf8 bytes with
  | some text => ⟨pid, some text, none⟩
  | none => ⟨pid, none, some (String.ofList (Parse.hex bytes))⟩

/-- The content an event refers to, where the store has it. -/
def contentRecords (interned : Interned) (pid : Pid) : Except Failure (List Record) := do
  match Values.readInterned interned pid with
  | .error kind => .error (.notContentAddressed kind)
  | .ok none => return []
  | .ok (some bytes) => return [.content (contentRow (← pidText pid) bytes)]

/-- The members of a layer, each content before the first event that refers to it. -/
def memberRecords (interned : Interned) (layer : LayerId) (seen : List Pid) :
    List Event → Except Failure (List Record)
  | [] => .ok []
  | event :: rest =>
    if event.authored ≠ layer then do
      return .member event.id :: (← memberRecords interned layer seen rest)
    else
      match Values.contentOf event.value with
      | some pid =>
        if pid ∈ seen then do
          let row ← eventRow event
          return .event row :: (← memberRecords interned layer seen rest)
        else do
          let content ← contentRecords interned pid
          let row ← eventRow event
          return content ++ .event row :: (← memberRecords interned layer (pid :: seen) rest)
      | none => do
        let row ← eventRow event
        return .event row :: (← memberRecords interned layer seen rest)

/-- What the store answers, or why it does not. -/
def stored {α : Type} : Except BorgError α → Except Failure α
  | .ok answer => .ok answer
  | .error err => .error (.store err)

def blockRecords (texts : Texts) (registry : Registry) (layer : Layer) : Except Failure (List Record) := do
  let row ← layerRow layer
  match layer.kind with
  | .defs => return .layer row :: (← stored (texts.readDefLayer registry.conn layer.id)).map .define
  | .value =>
    let events ← stored (texts.readLayer registry.conn layer.id)
    return .layer row :: (← memberRecords registry.interned layer.id [] events)

/-- The committed layers, in ascending order. -/
def exportedLayers (layers : List Layer) : List Layer :=
  (layers.filter fun layer => layer.state = .committed).insertionSort fun layer next => layer.id ≤ next.id

/-- What is written ahead of the layers. -/
def besideRecords (beside : Sidecars) : List Record :=
  [.allocations beside.allocations.next, .txTimeout beside.transactions.txIdleTimeout] ++
    (beside.producers.insertionSort fun row next => row.id ≤ next.id).map .producer ++
    (beside.broken.insertionSort fun row next =>
      row.branch < next.branch ∨ row.branch = next.branch ∧ row.producer ≤ next.producer).map .poison ++
    ((beside.paused.insertionSort (· ≤ ·)).destutter (· ≠ ·)).map .paused

def branchRecords (branches : List Branch) : List Record :=
  (branches.insertionSort fun branch next => branch.id ≤ next.id).map .branch

/-- Write a registry out: the whole log, wherever it stands. -/
def exported (texts : Texts) (binary : String) (registry : Registry) : Except Failure (List Record) := do
  let branches ← stored (texts.readBranches registry.conn)
  let layers ← stored (texts.readLayers registry.conn)
  let blocks ← (exportedLayers layers).mapM (blockRecords texts registry)
  return .header streamVersion binary :: (besideRecords registry.beside ++ branchRecords branches ++ blocks.flatten)

/-! ### Import -/

/-- A reader of the stream remembers what line it is at. -/
def wrong (line : Nat) (expected : String) : Failure := .storage s!"line {line}: expected {expected}"

def bad (line : Nat) (what : String) : Failure := .storage s!"line {line}: {what}"

/-- As many characters as fit in a number of bytes. -/
def within : Nat → List Char → List Char
  | _, [] => []
  | room, c :: rest => if c.utf8Size ≤ room then c :: within (room - c.utf8Size) rest else []

/-- Enough of an offending line to recognise it. -/
def clip (line : List Char) : String :=
  if (within 200 line).length = line.length then String.ofList line
  else String.ofList (within 200 line ++ ['…'])

def cellAt (line : Nat) (text : String) : Except Failure CellRef :=
  match Parse.cellRef text 0 0 with
  | .ok cell => .ok cell
  | .error err => .error (bad line <| s!"`{text}` is not a cell address: cannot parse {err.kind} " ++
      s!"`{err.input}`: {err.reason}")

def pidAt (line : Nat) (text : String) : Except Failure Pid :=
  match Pid.fromStr text with
  | .ok pid => .ok pid
  | .error err => .error (bad line s!"`{text}` is not a pid: cannot parse {err.kind} `{err.input}`: {err.reason}")

def valueOf (line : Nat) : ValueRow → Except Failure Value
  | .int n => .ok (.int n)
  | .bool b => .ok (.bool b)
  | .double bits => .ok (.double bits)
  | .ref text => do return .ref (← pidAt line text)
  | .tombstone => .ok .tombstone

def readOf (line : Nat) (row : ReadRow) : Except Failure CellAt := do return ⟨← cellAt line row.cell, row.version⟩

def derivationOf (line : Nat) (row : DerivationRow) : Except Failure Derivation := do
  return ⟨row.producer, row.freshAsOf, ← row.readSet.mapM (readOf line)⟩

/-- The event of a record: it was authored in the block it is in. -/
def eventOf (line : Nat) (layer : LayerId) (row : EventRow) : Except Failure Event := do
  let cell ← cellAt line row.cell
  let value ← valueOf line row.value
  match row.derivation with
  | none => return ⟨row.id, cell, value, row.version, row.origin, none, layer⟩
  | some derivation => return ⟨row.id, cell, value, row.version, row.origin,
      some (← derivationOf line derivation), layer⟩

def guardOf (line : Nat) (row : GuardRow) : Except Failure Guard := do
  return ⟨← row.cells.mapM (cellAt line), row.since⟩

/-- The layer of a record.  Committed is the only state a stream carries. -/
def layerOf (line : Nat) (row : LayerRow) : Except Failure Layer := do
  return ⟨row.id, row.branch, row.kind, row.author, .committed, row.parent, ← row.guards.mapM (guardOf line)⟩

/-- Where an import stands: the store it writes, what it is to put beside it, and the layer it is filling. -/
structure Importing where
  process : SqliteProcess
  interned : Interned
  beside : Sidecars
  block : Option Layer
  layers : Nat
  events : Nat
  branches : Nat
  /-- The highest layer the stream carried. -/
  head : LayerId

abbrev ImportM := EStateM Failure Importing

/-- What needs no store. -/
def lifted {α : Type} (answer : Except Failure α) : ImportM α := fun state =>
  match answer with
  | .ok a => .ok a state
  | .error err => .error err state

def onProcess {α : Type} (call : ProcessM α) : ImportM α := fun state =>
  match call state.process with
  | .ok a process => .ok a { state with process := process }
  | .error err process => .error (.store err) { state with process := process }

/-- Seal, record the metadata, commit: a layer never becomes visible before its metadata is there. -/
def close (layer : Layer) : ImportM Unit := do
  onProcess (SqliteProcess.sealLayer layer.id)
  onProcess (SqliteProcess.onStorage (SqliteStorage.putLayerMeta layer))
  onProcess (SqliteProcess.commitLayer layer.id)

/-- Close the block that is open, if one is. -/
def closeBlock : ImportM Unit := do
  match (← get).block with
  | none => return
  | some layer =>
    modify fun state => { state with block := none }
    close layer

def openBlock (line : Nat) (row : LayerRow) : ImportM Unit := do
  let layer ← lifted (layerOf line row)
  onProcess (SqliteProcess.openLayer layer.branch layer.id)
  modify fun state => { state with block := some layer }

/-- How a kind of layer is named in an error. -/
def kindName : LayerKind → String
  | .value => "Value"
  | .defs => "Def"

/-- The block that is open, for what belongs to its kind of layer. -/
def inBlock (line : Nat) (kind : LayerKind) : ImportM LayerId := do
  match (← get).block with
  | none => throw (wrong line "a `layer` record before anything that belongs to one")
  | some layer =>
    if layer.kind = kind then return layer.id
    else throw (bad line
      s!"layer {layer.id} is a {kindName layer.kind} layer, and a layer holds value events xor def events")

def bytesOf (line : Nat) (row : ContentRow) : Except Failure (List UInt8) :=
  match row.text, row.hex with
  | some text, none => .ok text.toByteArray.data.toList
  | none, some digits =>
    match Parse.unhex digits.toList with
    | some bytes => .ok bytes
    | none => .error (bad line "`hex` is not an even run of hex digits")
  | _, _ => .error (wrong line "exactly one of `text` and `hex`")

variable (hash : List UInt8 → Vector UInt8 32)

/-- Intern the bytes of a content record; the PID they get is to be the one the record names. -/
def takeContent (line : Nat) (row : ContentRow) : ImportM Unit := do
  let pid ← lifted (pidAt line row.pid)
  let bytes ← lifted (bytesOf line row)
  match Values.contentPid hash pid.kind bytes with
  | .error kind => throw (.notContentAddressed kind)
  | .ok again =>
    modify fun state => { state with
      interned := if (state.interned.lookup again).isSome then state.interned else state.interned.insert again bytes }
    if again = pid then return
    else
      let claimed := pid.display.getD ""
      let interned := again.display.getD ""
      throw (bad line s!"content claims to be `{claimed}` but its bytes intern as `{interned}` — the line is corrupt")

def take (line : Nat) : Record → ImportM Unit
  | .header .. => throw (wrong line "one header, on line 1")
  | .allocations next => modify fun state => { state with beside := { state.beside with allocations := ⟨next⟩ } }
  | .txTimeout seconds => modify fun state => { state with
      beside := { state.beside with transactions := { state.beside.transactions with txIdleTimeout := seconds } } }
  | .producer row => modify fun state => { state with
      beside := { state.beside with producers := state.beside.producers ++ [row] } }
  | .poison row => modify fun state => { state with
      beside := { state.beside with broken := state.beside.broken ++ [row] } }
  | .paused branch => modify fun state => { state with
      beside := { state.beside with paused := state.beside.paused ++ [branch] } }
  | .branch row => do
    onProcess (SqliteProcess.onStorage (SqliteStorage.putBranch row))
    modify fun state => { state with branches := state.branches + 1 }
  | .layer row => do
    closeBlock
    modify fun state => { state with layers := state.layers + 1, head := max state.head row.id }
    openBlock line row
  | .content row => takeContent hash line row
  | .define event => do
    let layer ← inBlock line .defs
    onProcess (SqliteProcess.through layer (SqliteOpenLayer.putDef event))
  | .event row => do
    let layer ← inBlock line .value
    let event ← lifted (eventOf line layer row)
    onProcess (SqliteProcess.through layer (SqliteOpenLayer.adoptEvent event))
    modify fun state => { state with events := state.events + 1 }
  | .member event => do
    let layer ← inBlock line .value
    onProcess (SqliteProcess.through layer (SqliteOpenLayer.includeEvent event))

def parsed (codec : Codec) (line : Nat) (text : String) : Except Failure Record :=
  match codec.decode text with
  | .ok record => .ok record
  | .error err => .error (.storage s!"line {line}: {err} — in: {clip (Utf8.trimmed text)}")

/-- Read on from a line; blank lines are skipped. -/
def readOn (codec : Codec) : Nat → List String → ImportM Unit
  | _, [] => return
  | line, text :: rest =>
    if Utf8.trimmed text = [] then readOn codec (line + 1) rest
    else do
      let record ← lifted (parsed codec line text)
      take hash line record
      readOn codec (line + 1) rest

/-- The header, which is the first line that is not blank, and then the rest. -/
def restore (codec : Codec) : Nat → List String → ImportM String
  | _, [] => throw (.storage "the stream is empty — expected a `header` record on line 1")
  | line, text :: rest =>
    if Utf8.trimmed text = [] then restore codec (line + 1) rest
    else do
      match ← lifted (parsed codec line text) with
      | .header version binary =>
        if version ≠ streamVersion then
          throw (.storage (s!"this stream is format version {version}, and this binary reads version " ++
            s!"{streamVersion} — export it again with the release that wrote it, or upgrade that release first"))
        readOn hash codec (line + 1) rest
        closeBlock
        return binary
      | _ => throw (wrong line "a `header` record")

structure Imported where
  layers : Nat
  events : Nat
  branches : Nat
  head : LayerId
  writtenBy : String
deriving DecidableEq

/-- An import begins on a store that is there already, or on a new one. -/
def Importing.start (existing : Option Registry) : Importing where
  process := ⟨.fromConnection (existing.map Registry.conn |>.getD .empty), ∅, []⟩
  interned := existing.map Registry.interned |>.getD ∅
  beside := default
  block := none
  layers := 0
  events := 0
  branches := 0
  head := 0

/-- Read a stream into a registry that holds nothing yet, and say what is on disk afterwards.  The files beside
the store are written last; a failed import takes its store with it, if it made one. -/
def imported (codec : Codec) (path : String) (existing : Option Registry) (lines : List String) :
    Except Failure Imported × Option Registry :=
  let start := Importing.start existing
  if start.process.conn.readLayers ≠ [] ∨ start.process.conn.readBranches ≠ [] then
    (.error (.storage (s!"{path} already holds a registry — import creates one, so restore is create-then-import " ++
      "and never `borg init` first")), existing)
  else
    match restore hash codec 1 lines start with
    | .ok binary state =>
      (.ok ⟨state.layers, state.events, state.branches, state.head, binary⟩,
        some ⟨state.process.conn, state.interned, state.beside⟩)
    | .error err state =>
      (.error err, existing.map fun registry => ⟨state.process.conn, state.interned, registry.beside⟩)

end Stream

end BorgCore
