import Mathlib.Data.List.Sort
import BorgCore.Engine.Frontier
import BorgCore.Engine.Touch
import BorgCore.Lib.Calls
import BorgCore.Storage.Memory

/-!
# The log

A layer is opened, written, sealed and then committed or aborted.  Its id is assigned at open and its
place on the branch is established at commit, so layers of one branch may commit in any order.

Branches live here as well: validating a guard needs the ancestry.  The projections a commit brings
up to date are the touch index and the watermarks; a derived layer's dependency edges reach the index
from the engine, before the layer commits.
-/

namespace BorgCore

/-- An open layer, exclusive to its owner. -/
structure LayerHandle where
  layer : Layer
deriving DecidableEq

abbrev LayerHandle.id (handle : LayerHandle) : LayerId := handle.layer.id

/-- Make this layer contingent on a condition, validated at seal. -/
def LayerHandle.guard (handle : LayerHandle) (guard : Guard) : LayerHandle :=
  ⟨{ handle.layer with guards := handle.layer.guards ++ [guard] }⟩

structure Log where
  storage : MemoryStorage
  /-- The next id the sequencer hands out; one counter serves every branch. -/
  nextLayer : LayerId
  /-- The next id the branch manager tries. -/
  nextBranch : BranchId
  layers : AssocMap LayerId Layer
  heads : AssocMap BranchId LayerId
  branches : AssocMap BranchId Branch
  /-- Committed def layers per branch. -/
  defLayers : AssocMap BranchId (List LayerId)
  touches : CellTouchIndex
  frontier : FrontierTracker

/-- A call on the log: what it had already done stays done when it fails. -/
abbrev LogM := EStateM BorgError Log

/-- The log a call leaves behind, whether it succeeded or not. -/
def after {α : Type} : EStateM.Result BorgError Log α → Log
  | .ok _ log => log
  | .error _ log => log

@[simp] theorem after_ok {α : Type} (a : α) (log : Log) : after (.ok a log) = log := rfl

@[simp] theorem after_error {α : Type} (err : BorgError) (log : Log) :
    after (.error err log : EStateM.Result BorgError Log α) = log := rfl

def returned {α : Type} : EStateM.Result BorgError Log α → Option α
  | .ok a _ => some a
  | .error _ _ => none

theorem eq_after {α : Type} {a : α} {result : EStateM.Result BorgError Log α}
    (h : returned result = some a) : result = .ok a (after result) := by
  cases result with
  | ok b log =>
    cases h
    rfl
  | error err log => cases h

def failure {α : Type} : EStateM.Result BorgError Log α → Option BorgError
  | .ok _ _ => none
  | .error err _ => some err

theorem error_after {α : Type} {err : BorgError} {result : EStateM.Result BorgError Log α}
    (h : failure result = some err) : result = .error err (after result) := by
  cases result with
  | ok a log => cases h
  | error found log =>
    cases h
    rfl

namespace Log

def new : Log := ⟨.new, 1, 1, ∅, ∅, ∅, ∅, .new, .new⟩

/-- A call on the storage behind the log. -/
def store {α : Type} (call : StoreM α) : LogM α := fun log =>
  match call log.storage with
  | .ok a storage => .ok a { log with storage := storage }
  | .error err storage => .error err { log with storage := storage }

/-- A question the log answers without moving. -/
def ask {α : Type} (question : Log → Except BorgError α) : LogM α := fun log =>
  match question log with
  | .ok a => .ok a log
  | .error err => .error err log

/-! ### Questions -/

def head (log : Log) (branch : BranchId) : Option LayerId := log.heads.lookup branch

def layer (log : Log) (id : LayerId) : Option Layer := log.layers.lookup id

def branch (log : Log) (id : BranchId) : Option Branch := log.branches.lookup id

def authorOf (log : Log) (id : LayerId) : Option LayerAuthor := (log.layer id).map Layer.author

/-- The segments of a read path from one branch outward.  An ancestor is bounded at the fork point,
clamped further only where the caller named a layer.  A parent has a lower id than its fork, so the
branch's own id bounds the walk. -/
def segmentsFrom (log : Log) (requested : Option LayerId) :
    Nat → BranchId → LayerId → List (BranchId × LayerId)
  | 0, _, _ => []
  | fuel + 1, current, bound =>
    (current, bound) ::
      match (log.branch current).bind Branch.origin with
      | none => []
      | some origin =>
        match log.layer origin with
        | none => []
        | some parentLayer =>
          log.segmentsFrom requested fuel parentLayer.branch
            (match requested with
             | some layer => min layer origin
             | none => origin)

/-- The ancestry a read resolves through. -/
def readPath (log : Log) (branch : BranchId) (layer : Option LayerId) : ReadPath :=
  ⟨log.segmentsFrom layer (branch + 1) branch ((layer <|> log.head branch).getD 0)⟩

def layersOf (log : Log) (branch : BranchId) : List Layer :=
  log.layers.values.filter fun layer => layer.branch = branch ∧ layer.state = .committed

/-- The committed def layers on a branch at or below a bound, oldest first. -/
def defLayersOf (log : Log) (branch : BranchId) (bound : LayerId) : List LayerId :=
  ((log.defLayers.getD branch []).filter (· ≤ bound)).insertionSort (· ≤ ·)

/-- The highest source layer visible anywhere along a path. -/
def highestSourceLayer (log : Log) (path : ReadPath) : Option LayerId :=
  ((log.layers.values.filter fun layer =>
    layer.state = .committed ∧ layer.author.isSource ∧
      path.segments.any fun (branch, bound) => layer.branch = branch ∧ layer.id ≤ bound).map
    Layer.id).max?

/-- Whether a cell holds a derived record at any version it is materialized at. -/
def isDerivedAnywhere (log : Log) (path : ReadPath) (cell : CellRef) : Except BorgError Bool :=
  (log.storage.cellVersions path cell).anyM fun version => do
    return match ← log.storage.getCell path cell version with
      | some found => decide (found.event.origin = .derived)
      | none => false

/-- The one question both guard checks ask: has anything touched these cells since that layer? -/
def checkTouched (log : Log) (path : ReadPath) (cells : List CellRef) (since : LayerId) :
    Except BorgError Unit :=
  match log.touches.firstTouchedSince path cells since with
  | some (cell, mutatedAt) => .error (.guardViolated cell since mutatedAt)
  | none => .ok ()

def checkGuardCells (log : Log) (path : ReadPath) : List CellRef → Except BorgError Unit
  | [] => .ok ()
  | cell :: rest => do
    if ← log.isDerivedAnywhere path cell then throw (.guardOnDerivedCell cell)
    log.checkGuardCells path rest

def checkGuardList (log : Log) (path : ReadPath) (since : Option LayerId) :
    List Guard → Except BorgError Unit
  | [] => .ok ()
  | guard :: rest => do
    log.checkGuardCells path guard.cells
    log.checkTouched path guard.cells (since.getD guard.since)
    log.checkGuardList path since rest

/-- Check a set of guards against a branch's history: each guard's own `since` at seal, the fork
point at merge. -/
def checkGuards (log : Log) (branch : BranchId) (guards : List Guard) (since : Option LayerId) :
    Except BorgError Unit :=
  log.checkGuardList (log.readPath branch none) since guards

/-- Check an automatic guard set, a transaction's read-set, against a branch's history. -/
def checkReads (log : Log) (branch : BranchId) (cells : List CellRef) (since : LayerId) :
    Except BorgError Unit :=
  log.checkTouched (log.readPath branch none) cells since

def touchedSince (log : Log) (branch : BranchId) (since : LayerId) : Bool :=
  log.touches.movedSince (log.readPath branch none) since

/-! ### Lifecycle -/

/-- Open a layer.  Many may be open on a branch at once. -/
def openLayer (branch : BranchId) (kind : LayerKind) (author : LayerAuthor) : LogM LayerHandle :=
  fun log =>
    let layer : Layer :=
      { id := log.nextLayer, branch, kind, author, state := .open, parent := log.head branch,
        guards := [] }
    let log := { log with
      nextLayer := log.nextLayer + 1
      layers := log.layers.insert layer.id layer }
    match store (MemoryStorage.openLayer branch layer.id) log with
    | .ok _ log => .ok ⟨layer⟩ log
    | .error err log => .error err log

def put (handle : LayerHandle) (cell : CellRef) (draft : EventDraft) : LogM EventId :=
  store (MemoryStorage.authorEvent handle.id cell draft)

/-- Name an event that already exists as a member of a layer: the merge path, and the only caller. -/
def includeEvent (handle : LayerHandle) (event : EventId) : LogM Unit :=
  store (MemoryStorage.includeEvent handle.id event)

/-- Append a def mutation.  A layer holds value events or def events, never both. -/
def putDef (handle : LayerHandle) (event : DefEvent) : LogM Unit := fun log =>
  if handle.layer.kind ≠ .value then store (MemoryStorage.putDef handle.id event) log
  else .error .mixedLayerKind log

def transition (id : LayerId) (expected next : LayerState) : LogM Unit := fun log =>
  match log.layer id with
  | none => .error (.storage s!"unknown layer L{id}") log
  | some layer =>
    if layer.state ≠ expected then .error (.layerStateViolation id expected layer.state) log
    else .ok () { log with layers := log.layers.insert id { layer with state := next } }

/-- Copy a handle's guards onto the stored layer, so that a merge can evaluate them again. -/
def keepGuards (layer : Layer) : LogM Unit := fun log =>
  .ok () { log with
    layers := log.layers.adjust layer.id fun stored => { stored with guards := layer.guards } }

/-- Move the head of a branch up to a layer, never down, and index a def layer. -/
def moveHead (layer : Layer) : LogM Unit := fun log =>
  .ok () { log with
    heads := log.heads.insert layer.branch (max layer.id ((log.head layer.branch).getD layer.id))
    defLayers :=
      if layer.kind = .defs then
        log.defLayers.insert layer.branch (log.defLayers.getD layer.branch [] ++ [layer.id])
      else log.defLayers }

/-- The live half of the fold: a layer just committed.  Only a source layer is read back. -/
def project (layer : Layer) : LogM Unit := fun log =>
  match layer.author with
  | .source =>
    match log.storage.readLayer layer.id with
    | .ok events => .ok () { log with touches := log.touches.apply layer events }
    | .error err => .error err log
  | .derived producer reflects =>
    .ok () { log with frontier := log.frontier.advance layer.branch producer reflects }

/-- Make a sealed layer visible: its guards and its metadata first, then the store, the state, the
head and the projections. -/
def land (layer : Layer) : LogM LayerId := do
  keepGuards layer
  store (MemoryStorage.sealLayer layer.id)
  store (MemoryStorage.putLayerMeta { layer with state := .committed })
  store (MemoryStorage.commitLayer layer.id)
  transition layer.id .sealed .committed
  moveHead layer
  project { layer with state := .committed }
  return layer.id

/-- Seal, then commit.  Guards are validated at seal, before anything becomes visible. -/
def commit (handle : LayerHandle) : LogM LayerId := do
  transition handle.id .open .sealed
  let log ← get
  match log.checkGuards handle.layer.branch handle.layer.guards none with
  | .error violation => do
    store (MemoryStorage.abort handle.id)
    transition handle.id .sealed .aborted
    throw violation
  | .ok () => land handle.layer

/-- Discard: the layer never becomes visible. -/
def abort (handle : LayerHandle) : LogM Unit := do
  store (MemoryStorage.abort handle.id)
  transition handle.id .open .aborted

end Log

end BorgCore
