import BorgCore.Engine.Transactions

/-!
# The files beside the store

Operational state, not log data: the open transactions, the PID counter and the pause flags each have
a file of their own.  Reading one is total: a file that is missing or cannot be parsed reads as the
default.  A file is truncated and rewritten in place, so that a write which does not run to its end may
leave a part of the new contents, and a part of a JSON object is nothing that can be parsed.
-/

namespace BorgCore

/-- A file beside the store, as far as it can be read. -/
abbrev Sidecar (α : Type) := Option α

/-- Read a sidecar, or the default where there is nothing usable to read. -/
def Sidecar.load {α : Type} [Inhabited α] (file : Sidecar α) : α := file.getD default

/-- What a write leaves in a file: what was there, a part of what was to be there, or all of it. -/
inductive Left where
  | old | torn | new
deriving DecidableEq, Repr

/-- How the write of a file goes: it is done, it fails, or the process stops in it. -/
inductive Fate where
  | done
  | failed (reason : String) (left : Left)
  | stopped (left : Left)
deriving DecidableEq, Repr

/-- Why an operation has no answer to give: an error it reports, or a process that is no more. -/
inductive Halt where
  | refused (err : BorgError)
  | stopped
deriving DecidableEq

namespace Fate

def left : Fate → Left
  | done => .new
  | failed _ left => left
  | stopped left => left

def leaves {α : Type} (fate : Fate) (file : Sidecar α) (value : α) : Sidecar α :=
  match fate.left with
  | .old => file
  | .torn => none
  | .new => some value

def result {σ : Type} (fate : Fate) (state : σ) : EStateM.Result Halt σ Unit :=
  match fate with
  | done => .ok () state
  | failed reason _ => .error (.refused (.storage reason)) state
  | stopped _ => .error .stopped state

end Fate

/-! ### The tables -/

/-- Seconds a transaction may sit untouched before it is reaped. -/
def defaultTxIdleTimeout : Nat := 24 * 60 * 60

def rememberedTransactions : Nat := 64

structure Open where
  id : String
  /-- When this transaction was last used. -/
  touched : Nat
  state : Transaction
deriving DecidableEq

structure Spent where
  id : String
  fate : String
deriving DecidableEq

/-- The open transactions, beside the store. -/
structure Transactions where
  txIdleTimeout : Nat
  /-- The next handle to hand out. -/
  next : Nat
  opened : List Open
  spent : List Spent
deriving DecidableEq

instance : Inhabited Transactions := ⟨⟨defaultTxIdleTimeout, 1, [], []⟩⟩

/-- The PID counter of a store. -/
structure Allocations where
  /-- The next counter the server's allocator will issue. -/
  next : Nat
deriving DecidableEq

instance : Inhabited Allocations := ⟨⟨1⟩⟩

/-- Which branches are not derived on. -/
structure DerivationConfig where
  paused : List BranchId
deriving DecidableEq

instance : Inhabited DerivationConfig := ⟨⟨[]⟩⟩

namespace Transactions

/-- Remember how a transaction ended; the oldest are forgotten. -/
def retire (table : Transactions) (id fate : String) : Transactions :=
  let spent := table.spent ++ [⟨id, fate⟩]
  { table with spent := spent.drop (spent.length - rememberedTransactions) }

/-- Find an open transaction by id; one that has ended is said to have. -/
def index (table : Transactions) (id : String) : Except BorgError (Fin table.opened.length) :=
  match table.opened.findFinIdx? (·.id = id) with
  | some index => .ok index
  | none =>
    match table.spent.find? (·.id = id) with
    | some spent => .error (.storage s!"transaction {id} {spent.fate}")
    | none => .error (.storage s!"unknown transaction {id}")

/-- Put back what a transaction has become, and when. -/
def amend (table : Transactions) (index : Fin table.opened.length) (state : Transaction) (now : Nat) :
    Transactions :=
  { table with
    opened := table.opened.set index { table.opened[index] with touched := now, state := state } }

def remove (table : Transactions) (index : Fin table.opened.length) : Transactions :=
  { table with opened := table.opened.eraseIdx index }

end Transactions

/-! ### Operations -/

/-- A store and what is beside it. -/
structure Site where
  log : Log
  transactions : Sidecar Transactions
  allocations : Sidecar Allocations
  derivation : Sidecar DerivationConfig

/-- A store nobody has used. -/
def Site.new : Site := ⟨Log.new, none, none, none⟩

/-- What befalls one operation: how each file it writes fares, how many layers of a merge are replayed
before the process stops, and whether it stops while it catches up. -/
structure Mishaps where
  transactions : Fate
  allocations : Fate
  derivation : BranchId → Fate
  merge : Option Nat
  derive : Bool

/-- An operation: what it had already done stays done when it fails, and when the process stops. -/
abbrev OpM := EStateM Halt Site

def engine {α : Type} (call : LogM α) : OpM α := fun site =>
  match call site.log with
  | .ok a log => .ok a { site with log := log }
  | .error err log => .error (.refused err) { site with log := log }

def require {α : Type} (check : Except BorgError α) : OpM α := fun site =>
  match check with
  | .ok a => .ok a site
  | .error err => .error (.refused err) site

def saveTransactions (fate : Fate) (table : Transactions) : OpM Unit := fun site =>
  fate.result { site with transactions := fate.leaves site.transactions table }

def saveAllocations (fate : Fate) (table : Allocations) : OpM Unit := fun site =>
  fate.result { site with allocations := fate.leaves site.allocations table }

def saveDerivation (fate : Fate) (config : DerivationConfig) : OpM Unit := fun site =>
  fate.result { site with derivation := fate.leaves site.derivation config }

end BorgCore
