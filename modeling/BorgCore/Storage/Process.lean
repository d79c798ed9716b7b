import Mathlib.Logic.Relation
import BorgCore.Lib.Calls
import BorgCore.Storage.Runs
import BorgCore.Storage.Tables

/-!
# A process that has the tables open

A handle belongs to who opened the layer, and is spent when the layer is sealed or aborted; a sealed layer
can then be committed.  A process that stops takes its handles, what was pending in them and its count of
event ids with it, and leaves the tables; the next one opens those.

A call is one statement or one transaction, but for two: to seal is to write out what is pending and then to
update a row, and to abort is to run five statements.  A failure or the end of the process can come between.
-/

namespace BorgCore

/-- A process that has a store open, the layers it is writing and the ones it has sealed. -/
structure SqliteProcess where
  storage : SqliteStorage
  opened : AssocMap LayerId SqliteOpenLayer
  sealedLayers : List LayerId

abbrev ProcessM := EStateM BorgError SqliteProcess

namespace SqliteProcess

def new : SqliteProcess := ⟨.new, ∅, []⟩

abbrev conn (process : SqliteProcess) : Database := process.storage.conn

def onStorage {α : Type} (call : SqliteM α) : ProcessM α := fun process =>
  match call process.storage with
  | .ok a storage => .ok a { process with storage := storage }
  | .error err storage => .error err { process with storage := storage }

/-- A call through the handle of an open layer; there is none to make where nobody has the handle. -/
def through {α : Type} (layer : LayerId) (call : HandleM α) : ProcessM α := fun process =>
  match process.opened.lookup layer with
  | none => .error (.storage s!"layer L{layer} is not open") process
  | some handle =>
    match call ⟨process.storage, handle⟩ with
    | .ok a state =>
      .ok a { process with storage := state.storage, opened := process.opened.insert layer state.handle }
    | .error err state =>
      .error err { process with storage := state.storage, opened := process.opened.insert layer state.handle }

def openLayer (branch : BranchId) (layer : LayerId) : ProcessM Unit := fun process =>
  match SqliteStorage.openLayer branch layer process.storage with
  | .ok handle storage =>
    .ok () { process with storage := storage, opened := process.opened.insert layer handle }
  | .error err storage => .error err { process with storage := storage }

/-- Seal a layer; the handle is spent whether that succeeds or not. -/
def sealLayer (layer : LayerId) : ProcessM Unit := fun process =>
  match through layer SqliteOpenLayer.sealLayer process with
  | .ok _ process =>
    .ok () { process with opened := process.opened.erase layer, sealedLayers := layer :: process.sealedLayers }
  | .error err process => .error err { process with opened := process.opened.erase layer }

/-- A call that spends the handle, and is not a seal that went through. -/
def spending (layer : LayerId) (call : HandleM Unit) : ProcessM Unit := fun process =>
  match through layer call process with
  | .ok _ process => .ok () { process with opened := process.opened.erase layer }
  | .error err process => .error err { process with opened := process.opened.erase layer }

def abort (layer : LayerId) : ProcessM Unit := spending layer SqliteOpenLayer.abort

/-- Commit a sealed layer, which is spent as well. -/
def commitLayer (layer : LayerId) : ProcessM Unit := fun process =>
  onStorage (SqliteStorage.commitLayer layer)
    { process with sealedLayers := process.sealedLayers.filter (· ≠ layer) }

/-- A call, with the identity it mints if it mints one. -/
def call : StoreCall → ProcessM (Option EventId)
  | .openLayer branch layer => do openLayer branch layer; return none
  | .authorEvent layer cell draft => do return some (← through layer (SqliteOpenLayer.authorEvent cell draft))
  | .adoptEvent layer event => do through layer (SqliteOpenLayer.adoptEvent event); return none
  | .includeEvent layer event => do through layer (SqliteOpenLayer.includeEvent event); return none
  | .putDef layer event => do through layer (SqliteOpenLayer.putDef event); return none
  | .sealLayer layer => do sealLayer layer; return none
  | .abort layer => do abort layer; return none
  | .putLayerMeta layer => do onStorage (SqliteStorage.putLayerMeta layer); return none
  | .putBranch branch => do onStorage (SqliteStorage.putBranch branch); return none
  | .commitLayer layer => do commitLayer layer; return none
  | .rebuildReadIndex => do onStorage SqliteStorage.rebuildReadIndex; return none

/-- The process stops, wherever it is, and another one opens the tables. -/
def crash (process : SqliteProcess) : SqliteProcess := ⟨.fromConnection process.conn, ∅, []⟩

/-- No event of this identity is in the tables or waits in an open layer. -/
def Unheard (process : SqliteProcess) (id : EventId) : Prop :=
  process.conn.events.lookup id = none ∧ ∀ layer handle, process.opened.lookup layer = some handle →
    ∀ event ∈ handle.pending.filterMap PendingRow.authored, event.id ≠ id

/-- What a call asks of its caller: whoever writes a layer has its handle, an event is replayed under an
identity nothing has, only an event that has committed is named, and metadata is put down, on the layer's own
branch, for a layer that is about to be committed. -/
def Permits (process : SqliteProcess) : StoreCall → Prop
  | .authorEvent layer .. | .putDef layer _ | .sealLayer layer | .abort layer =>
    (process.opened.lookup layer).isSome
  | .adoptEvent layer event => (process.opened.lookup layer).isSome ∧ process.Unheard event.id
  | .includeEvent layer id => (process.opened.lookup layer).isSome ∧
    ∃ event, process.conn.events.lookup id = some event ∧ process.conn.isCommitted event.authored
  | .putLayerMeta layer => layer.id ∈ process.sealedLayers ∧ process.conn.branchOf layer.id = some layer.branch
  | .commitLayer layer => layer ∈ process.sealedLayers
  | .openLayer .. | .putBranch _ | .rebuildReadIndex => True

/-- What befalls a store: a call, a call that stops half way, or the end of the process that has it open. -/
inductive Step (process : SqliteProcess) : SqliteProcess → Prop where
  | call (made : StoreCall) (hp : process.Permits made) : Step process (Calls.left (call made process))
  /-- What is pending is written out, and the layer is not sealed. -/
  | sealCut (layer : LayerId) (hp : process.Permits (.sealLayer layer)) :
    Step process (Calls.left (spending layer SqliteOpenLayer.flush process))
  /-- Some of the statements of an abort have run. -/
  | abortCut (layer : LayerId) (done : Nat) (hp : process.Permits (.abort layer)) :
    Step process (Calls.left (spending layer (SqliteOpenLayer.abortFirst done) process))
  | crash : Step process process.crash

abbrev Steps : SqliteProcess → SqliteProcess → Prop := Relation.ReflTransGen Step

def Reachable (process : SqliteProcess) : Prop := Steps new process

def after (process : SqliteProcess) (calls : List StoreCall) : SqliteProcess :=
  calls.foldl (fun process made => Calls.left (call made process)) process

/-- Each call of a run is permitted when it is made. -/
def PermitsAll (process : SqliteProcess) : List StoreCall → Prop
  | [] => True
  | made :: rest => process.Permits made ∧ (Calls.left (call made process)).PermitsAll rest

theorem Steps.calls {process : SqliteProcess} {calls : List StoreCall} (hp : process.PermitsAll calls) :
    Steps process (process.after calls) := by
  induction calls generalizing process with
  | nil => exact .refl
  | cons made rest ih => exact .head (.call made hp.1) (ih hp.2)

end SqliteProcess

end BorgCore
