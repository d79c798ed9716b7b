import Mathlib.Data.List.Nodup
import Mathlib.Logic.Function.Basic
import BorgCore.Lib.Machine

/-!
# The lock on a served store

A server records itself beside every store it hosts, and the socket the record names is the lock: whoever
finds a record whose socket does not answer clears it and goes on.  Processes share the records and the
socket files and nothing else.  Each takes its steps in its own order, one file operation or one connection
at a time, and between any two of them the steps of the others may fall.  A record keeps the path of its
socket as the server was given it, and every process resolves a path in the directory it works in.
-/

namespace BorgCore

namespace Lock

abbrev ProcessId := Nat

variable {Store Directory Address : Type*}

/-- `Serving`: the record beside a store. -/
structure Record where
  socket : String
  pid : Nat
  registry : Option String
deriving DecidableEq

/-- The stores a process is to work on, under the names their registries have.  Each registry has a directory
of its own, so no store is there twice. -/
structure Slots (Store : Type*) where
  slots : List (Store × String)
  distinct : (slots.map Prod.fst).Nodup

/-- What a one-shot command works on. -/
def Slots.single (store : Store) : Slots Store := ⟨[(store, "")], List.nodup_singleton _⟩

inductive Phase (Store : Type*) where
  /-- at `served_on` of the next store: read its record -/
  | arriving (rest : List (Store × String))
  /-- a record is read: connect to its socket -/
  | probing (slot : Store × String) (socket : String) (rest : List (Store × String))
  /-- the socket is silent: remove the record -/
  | clearing (slot : Store × String) (rest : List (Store × String))
  /-- at `claim`, which opens the record and empties it -/
  | claiming (slot : Store × String) (rest : List (Store × String))
  /-- the record is emptied: write it -/
  | writing (slot : Store × String) (rest : List (Store × String))
  /-- every store is claimed: connect to the address that is to be bound -/
  | looking
  /-- nothing answers there: remove the socket file -/
  | unlinking
  | binding
  | serving
  /-- in `release_all`; the socket file goes with the records where it was bound -/
  | releasing (rest : List Store) (bound : Bool)
  /-- the locks are given up and the process has not exited: open connections are threads it does not join -/
  | leaving
  /-- a command past `refuse_if_served` -/
  | working
  | ended

namespace Phase

def isServing : Phase Store → Bool
  | .serving => true
  | _ => false

def isUp : Phase Store → Bool
  | .releasing .. | .leaving | .working | .ended => false
  | _ => true

end Phase

/-- A server or a one-shot command, and the directory it works in.  `claimed` are the stores it is done with
checking, and a server with claiming; a command has no socket of its own. -/
structure Process (Store Directory : Type*) where
  pid : Nat
  directory : Directory
  serves : Bool
  socket : String
  hosted : Slots Store
  claimed : List (Store × String)
  phase : Phase Store

namespace Process

def server (pid : Nat) (directory : Directory) (socket : String) (hosted : Slots Store) : Process Store Directory :=
  ⟨pid, directory, true, socket, hosted, [], .arriving hosted.slots⟩

def command (pid : Nat) (directory : Directory) (store : Store) : Process Store Directory :=
  ⟨pid, directory, false, "", Slots.single store, [], .arriving (Slots.single store).slots⟩

/-- What `claim` writes. -/
def record (proc : Process Store Directory) (slot : Store × String) : Record := ⟨proc.socket, proc.pid, some slot.2⟩

/-- The check of a store is behind a process, which has not ended. -/
def Past (proc : Process Store Directory) (store : Store) : Prop :=
  match proc.phase with
  | .ended => False
  | .claiming slot _ | .writing slot _ => store = slot.1 ∨ store ∈ proc.claimed.map Prod.fst
  | _ => store ∈ proc.claimed.map Prod.fst

end Process

/-- What the processes share, and where each of them is.  A record that cannot be parsed reads as none; a
socket file is bound by a process, which may be gone. -/
structure State (Store Directory Address : Type*) where
  records : Store → Option Record
  sockets : Address → Option ProcessId
  processes : ProcessId → Option (Process Store Directory)

namespace State

variable (resolve : Directory → String → Address)

def put (s : State Store Directory Address) (id : ProcessId) (proc : Process Store Directory) :
    State Store Directory Address :=
  { s with processes := Function.update s.processes id (some proc) }

def enter (s : State Store Directory Address) (id : ProcessId) (proc : Process Store Directory)
    (phase : Phase Store) : State Store Directory Address :=
  s.put id { proc with phase := phase }

variable [DecidableEq Address]

/-- Whether a server is listening on this socket right now: what the path leads to in this directory.  An
empty path leads nowhere. -/
def isListening (s : State Store Directory Address) (directory : Directory) (socket : String) : Bool :=
  if socket = "" then false
  else
    match s.sockets (resolve directory socket) with
    | none => false
    | some id =>
      match s.processes id with
      | none => false
      | some proc =>
        proc.phase.isServing && proc.socket != "" &&
          resolve proc.directory proc.socket == resolve directory socket

def unlink (s : State Store Directory Address) (directory : Directory) (socket : String) :
    State Store Directory Address :=
  if socket = "" then s else { s with sockets := Function.update s.sockets (resolve directory socket) none }

variable [DecidableEq Store]

/-- Remove a record, or leave nothing in it that can be read. -/
def erase (s : State Store Directory Address) (store : Store) : State Store Directory Address :=
  { s with records := Function.update s.records store none }

/-- Nobody serves the store: a server claims it, a command goes on. -/
def pass (s : State Store Directory Address) (id : ProcessId) (proc : Process Store Directory)
    (slot : Store × String) (rest : List (Store × String)) : State Store Directory Address :=
  if proc.serves then s.enter id proc (.claiming slot rest)
  else s.put id { proc with claimed := proc.claimed ++ [slot], phase := .arriving rest }

def bind (s : State Store Directory Address) (id : ProcessId) (proc : Process Store Directory) :
    State Store Directory Address :=
  { s with
    sockets := Function.update s.sockets (resolve proc.directory proc.socket) (some id) }.enter id proc .serving

/-- One step of a process.  `ok` is how a write or a bind of its own ends. -/
def advance (s : State Store Directory Address) (id : ProcessId) (proc : Process Store Directory) (ok : Bool) :
    State Store Directory Address :=
  match proc.phase with
  | .arriving [] => s.enter id proc (if proc.serves then .looking else .working)
  | .arriving (slot :: rest) =>
    match s.records slot.1 with
    | none => s.pass id proc slot rest
    | some record =>
      if record.socket = "" then s.pass id proc slot rest else s.enter id proc (.probing slot record.socket rest)
  | .probing slot socket rest =>
    -- refused: what was claimed before is not given back
    if s.isListening resolve proc.directory socket then s.enter id proc .ended
    else s.enter id proc (.clearing slot rest)
  | .clearing slot rest => (s.erase slot.1).pass id proc slot rest
  | .claiming slot rest =>
    if ok then (s.erase slot.1).enter id proc (.writing slot rest) else s.enter id proc .ended
  | .writing slot rest =>
    if ok then
      { s with records := Function.update s.records slot.1 (some (proc.record slot)) }.put id
        { proc with claimed := proc.claimed ++ [slot], phase := .arriving rest }
    else s.enter id proc .ended
  | .looking =>
    if s.isListening resolve proc.directory proc.socket then
      s.enter id proc (.releasing (proc.hosted.slots.map Prod.fst) false)
    else s.enter id proc .unlinking
  | .unlinking => (s.unlink resolve proc.directory proc.socket).enter id proc .binding
  | .binding =>
    if !ok then s.enter id proc (.releasing (proc.hosted.slots.map Prod.fst) false)
    -- the empty path binds an address without a name, and leaves no file
    else if proc.socket = "" then s.enter id proc .serving
    else
      match s.sockets (resolve proc.directory proc.socket) with
      | none => s.bind resolve id proc
      | some _ => s.enter id proc (.releasing (proc.hosted.slots.map Prod.fst) false)
  | .releasing [] bound => (if bound then s.unlink resolve proc.directory proc.socket else s).enter id proc .leaving
  | .releasing (store :: rest) bound => (s.erase store).enter id proc (.releasing rest bound)
  | .leaving | .working => s.enter id proc .ended
  | .serving | .ended => s

end State

/-- What may happen: a server or a command is started, a process takes its next step, a server is asked to
stop and its listener goes, a process dies where it stands. -/
inductive Action (Store Directory : Type*) where
  | start (id : ProcessId) (pid : Nat) (directory : Directory) (socket : String) (hosted : Slots Store)
  | command (id : ProcessId) (pid : Nat) (directory : Directory) (store : Store)
  | advance (id : ProcessId) (ok : Bool)
  | stop (id : ProcessId)
  | crash (id : ProcessId)

variable (resolve : Directory → String → Address) [DecidableEq Address] [DecidableEq Store]

/-- What an action leaves.  One that asks for what cannot be leaves everything as it is. -/
def next (s : State Store Directory Address) : Action Store Directory → State Store Directory Address
  | .start id pid directory socket hosted =>
    match s.processes id with
    | none => s.put id (.server pid directory socket hosted)
    | some _ => s
  | .command id pid directory store =>
    match s.processes id with
    | none => s.put id (.command pid directory store)
    | some _ => s
  | .advance id ok =>
    match s.processes id with
    | none => s
    | some proc => s.advance resolve id proc ok
  | .stop id =>
    match s.processes id with
    | none => s
    | some proc =>
      if proc.phase.isServing then s.enter id proc (.releasing (proc.hosted.slots.map Prod.fst) true) else s
  | .crash id =>
    match s.processes id with
    | none => s
    | some proc => s.enter id proc .ended

/-- A data directory before the first process: any records, any socket files, nobody there. -/
def State.Start (s : State Store Directory Address) : Prop := ∀ id, s.processes id = none

end Lock

end BorgCore
