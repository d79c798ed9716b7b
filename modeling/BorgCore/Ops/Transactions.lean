import BorgCore.Engine.Restart
import BorgCore.Ops.Site

/-!
# A transaction, one operation at a time

Each operation loads the table, works on the store and saves the table, and not all in that order: a
read is saved before it is answered, a write is committed before what it read is saved, and a merge is
done before the handle is retired.  A transaction's branch is created paused.
-/

namespace BorgCore

def serverAllocator : AllocatorId := 1

/-- What every operation needs to know, however it was asked. -/
structure Ops where
  /-- The branch to operate on; `none` is the store's default branch. -/
  branch : Option String
  /-- A pinned ClientVersion; `none` means the branch's current def-version. -/
  version : Option LayerId
  freshness : FreshnessRequirement
deriving DecidableEq

namespace Log

/-- The branch a bare command operates on: the first root. -/
def defaultBranch (log : Log) : Option BranchId :=
  ((log.branches.values.filter fun branch => branch.origin.isNone).map Branch.id).min?

def allocationBranch (log : Log) : Except BorgError BranchId :=
  match log.defaultBranch with
  | some branch => .ok branch
  | none => .error (.storage "store has no branches — run `borg init`")

/-- Resolve a branch name, falling back to the root. -/
def branchNamed (log : Log) : Option String → Except BorgError BranchId
  | some name =>
    match log.branches.values.find? fun branch => branch.name = some name with
    | some branch => .ok branch.id
    | none => .error (.storage s!"no branch named `{name}`")
  | none => log.allocationBranch

/-- The ClientVersion an operation acts at: the branch's current def-version, unless pinned. -/
def clientVersion (log : Log) (args : Ops) (branch : BranchId) : ClientVersion :=
  args.version.getD (log.defHead (log.readPath branch none))

/-- The layer a transaction landed in on its parent; one that wrote nothing says head. -/
def landingOf (log : Log) (tx : Transaction) (replayed : List LayerId) : LayerId :=
  replayed.getLast?.getD ((log.head tx.parent).getD 0)

/-- A merge the process stops in, once some of the layers are replayed. -/
def mergeUntil (tx : Transaction) (count : Nat) : LogM (List LayerId) := do
  let staged ← ask fun log =>
    log.validateReplay tx.parent tx.forkPoint (log.replayableLayers tx.branch .defAndData) tx.guards
  replayLayers tx.parent (staged.take count)

end Log

/-- The same duration spelled for a sentence rather than for a config file. -/
def spellDuration (seconds : Nat) : String :=
  let (count, unit) :=
    match [(86400, "day"), (3600, "hour"), (60, "minute")].find? fun (scale, _) =>
      scale ≤ seconds ∧ seconds % scale = 0 with
    | some (scale, unit) => (seconds / scale, unit)
    | none => (seconds, "second")
  let plural := if count = 1 then "" else "s"
  s!"{count} {unit}{plural}"

namespace Ops

def setPaused (faults : Mishaps) (branch : BranchId) (pause : Bool) : OpM Unit := do
  let paused := (← get).derivation.load.paused.filter (· ≠ branch)
  saveDerivation (faults.derivation branch) ⟨if pause then paused ++ [branch] else paused⟩

/-- Whether a transaction has been idle for too long. -/
def expired (now timeout : Nat) (found : Open) : Bool := ¬ (now - found.touched ≤ timeout)

def reapTransactions (now : Nat) (faults : Mishaps) : OpM Unit := do
  let table := (← get).transactions.load
  let reaped := table.opened.filter (expired now table.txIdleTimeout)
  if reaped.isEmpty then return
  let kept := table.opened.filter fun found => !expired now table.txIdleTimeout found
  let fate := s!"expired after {spellDuration table.txIdleTimeout} idle"
  release (reaped.map fun found => found.state.branch)
  saveTransactions faults.transactions
    (reaped.foldl (fun table found => table.retire found.id fate) { table with opened := kept })
where
  release : List BranchId → OpM Unit
    | [] => pure ()
    | branch :: rest => do
      setPaused faults branch false
      release rest

def txBegin (args : Ops) (now : Nat) (faults : Mishaps) : OpM String := do
  let log := (← get).log
  let branch ← require (log.branchNamed args.branch)
  let table := (← get).transactions.load
  let id := s!"tx-{table.next}"
  let state ← engine (Log.txBegin branch (some id))
  setPaused faults state.branch true
  saveTransactions faults.transactions
    { table with next := table.next + 1, opened := table.opened ++ [⟨id, now, state⟩] }
  return id

/-- Read through a transaction, and record the read before it is answered. -/
def txGet (args : Ops) (now : Nat) (faults : Mishaps)
    (computeNow : BranchId → CellRef → DefVersion → LogM Unit) (recorded : List Poisoning)
    (tx : String) (cell : CellRef) : OpM Resolved := do
  let table := (← get).transactions.load
  let index ← require (table.index tx)
  let state := table.opened[index].state
  let version := (← get).log.clientVersion args state.branch
  let (state, resolved) ← engine (Log.txGet computeNow recorded state cell version args.freshness)
  saveTransactions faults.transactions (table.amend index state now)
  return resolved

/-- Write through a transaction.  Returns the layer it landed in on the transaction's own branch. -/
def txSet (args : Ops) (now : Nat) (faults : Mishaps) (tx : String) (cell : CellRef) (value : Value) :
    OpM LayerId := do
  let table := (← get).transactions.load
  let index ← require (table.index tx)
  let state := table.opened[index].state
  let version := (← get).log.clientVersion args state.branch
  let session ← engine (clientWrite state.branch version [(cell, value)])
  saveTransactions faults.transactions (table.amend index (Log.absorb state session) now)
  return session.layer

/-- Take the next PID for an object of any struct on this store; saved before it is used. -/
def allocate (faults : Mishaps) (branch : BranchId) : OpM Pid := do
  let table := (← get).allocations.load
  saveAllocations faults.allocations ⟨table.next + 1⟩
  return .allocated .object branch serverAllocator table.next

/-- Allocate an object and write its existence cell, in one step. -/
def txCreate (args : Ops) (now : Nat) (faults : Mishaps) (tx : String) (structName : ObjectTypeName) :
    OpM Pid := do
  let table := (← get).transactions.load
  let index ← require (table.index tx)
  let state := table.opened[index].state
  let branch ← require (← get).log.allocationBranch
  let pid ← allocate faults branch
  let version := (← get).log.clientVersion args state.branch
  let session ← engine (clientWrite state.branch version [(.existence structName pid, .bool true)])
  saveTransactions faults.transactions (table.amend index (Log.absorb state session) now)
  return pid

/-- The merge of a transaction: replayed, refused, or stopped in. -/
def merging (stop : Option Nat) (state : Transaction) : OpM (Except BorgError (List LayerId)) :=
  fun site =>
    match stop with
    | none =>
      match Log.mergeTransaction state .defAndData site.log with
      | .ok replayed log => .ok (.ok replayed) { site with log := log }
      | .error rejection log => .ok (.error rejection) { site with log := log }
    | some count =>
      match Log.mergeUntil state count site.log with
      | .ok _ log => .error .stopped { site with log := log }
      | .error rejection log => .ok (.error rejection) { site with log := log }

/-- Catch a branch up after a commit, unless it is paused.  What goes wrong is reported, not raised. -/
def catchUp (stops : Bool) (derive : LogM Unit) (branch : BranchId) : OpM Unit := fun site =>
  if branch ∈ site.derivation.load.paused then .ok () site
  else
    let site := { site with log := after (derive site.log) }
    if stops then .error .stopped site else .ok () site

/-- Merge, guarded by everything the transaction read.  Where the merge is refused the transaction
stays open. -/
def txCommit (now : Nat) (faults : Mishaps) (derive : LogM Unit) (tx : String) : OpM LayerId := do
  let table := (← get).transactions.load
  let index ← require (table.index tx)
  let state := table.opened[index].state
  match ← merging faults.merge state with
  | .error rejection =>
    saveTransactions faults.transactions (table.amend index state now)
    throw (.refused rejection)
  | .ok replayed =>
    saveTransactions faults.transactions ((table.remove index).retire tx "already committed")
    setPaused faults state.branch false
    let landed := (← get).log.landingOf state replayed
    catchUp faults.derive derive state.parent
    return landed

def txAbort (faults : Mishaps) (tx : String) : OpM Unit := do
  let table := (← get).transactions.load
  let index ← require (table.index tx)
  setPaused faults table.opened[index].state.branch false
  saveTransactions faults.transactions ((table.remove index).retire tx "was aborted")

end Ops

/-! ### Requests -/

/-- What a client may ask of a store's transactions. -/
inductive Request where
  | txBegin
  | txGet (tx : String) (cell : CellRef)
  | txSet (tx : String) (cell : CellRef) (value : Value)
  | txCreate (tx : String) (structName : ObjectTypeName)
  | txCommit (tx : String)
  | txAbort (tx : String)
  | reap

inductive Answer where
  | handle (id : String)
  | read (resolved : Resolved)
  | layer (id : LayerId)
  | object (pid : Pid)
  | done

/-- What the derivation engine does on a store's behalf: for a read that wants what is current, and
after a commit. -/
structure Engine where
  computeNow : BranchId → CellRef → DefVersion → LogM Unit
  recorded : List Poisoning
  derive : LogM Unit
  computes : ∀ branch cell version, Log.Derives (computeNow branch cell version)
  derives : Log.Derives derive

/-- An engine with no producers. -/
def Engine.idle : Engine :=
  ⟨fun _ _ _ => pure (), [], pure (), fun _ _ _ => Log.derives_pure, Log.derives_pure⟩

def serve (args : Ops) (now : Nat) (faults : Mishaps) (engine : Engine) : Request → OpM Answer
  | .txBegin => do return .handle (← Ops.txBegin args now faults)
  | .txGet tx cell => do
    return .read (← Ops.txGet args now faults engine.computeNow engine.recorded tx cell)
  | .txSet tx cell value => do return .layer (← Ops.txSet args now faults tx cell value)
  | .txCreate tx structName => do return .object (← Ops.txCreate args now faults tx structName)
  | .txCommit tx => do return .layer (← Ops.txCommit now faults engine.derive tx)
  | .txAbort tx => do
    Ops.txAbort faults tx
    return .done
  | .reap => do
    Ops.reapTransactions now faults
    return .done

end BorgCore
