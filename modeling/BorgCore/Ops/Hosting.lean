import Mathlib.Logic.Function.Basic
import BorgCore.Core.Layer
import BorgCore.Lib.AssocMap

/-!
# A server and the registries it hosts

One process serves a directory of stores.  Requests come over any number of connections and each runs
in a thread of its own; between any two steps of one, any step of another may fall.  A registry is made
in several steps, and no lock is held across them: the name is looked up, the store file is looked for,
the store is opened and filled, and only then is the registry put where requests are routed.
-/

namespace BorgCore

abbrev ThreadId := Nat
abbrev SlotId := Nat
abbrev FileId := Nat

/-! ### Stores -/

inductive RowKind where
  | branch | layer | other
deriving DecidableEq

structure Row where
  kind : RowKind
  id : Nat
  text : String
deriving DecidableEq

/-- Write a row, in place of the one there is. -/
def putRow (rows : List Row) (row : Row) : List Row :=
  rows.filter (fun old => ¬ (old.kind = row.kind ∧ old.id = row.id)) ++ [row]

/-- A store file: the rows it was made with, and what requests have written since. -/
structure StoreFile where
  made : List Row
  later : List Row
deriving DecidableEq

namespace StoreFile

def empty : StoreFile := ⟨[], []⟩

def rows (file : StoreFile) : List Row := file.made ++ file.later

/-- Whether a store holds a registry: a layer or a branch. -/
def holdsRegistry (file : StoreFile) : Bool := file.rows.any fun row => row.kind ≠ .other

def branches (file : StoreFile) : List Row := file.rows.filter fun row => row.kind = .branch

/-- The branch a registry on this store makes next. -/
def nextBranch (file : StoreFile) : Nat := ((file.branches.map Row.id).max?.getD 0) + 1

end StoreFile

/-- The root branch of a store nobody has used. -/
def rootRow (id : Nat) : Row := ⟨.branch, id, "main"⟩

/-- The directory of a registry: its store, and how many of an import's files are beside it. -/
structure Directory where
  store : Option FileId
  beside : Nat
deriving DecidableEq

/-- How many files an import writes beside a store. -/
def sidecarCount : Nat := 4

/-! ### Requests -/

/-- One hosted registry: its gate, and the store once something has needed it. -/
structure Slot where
  name : String
  gate : Option ThreadId
  held : Option FileId
deriving DecidableEq

/-- What a registry is made of: nothing, or an export stream. -/
inductive Maker where
  | create
  | restore (stream : List Row)
deriving DecidableEq

/-- How far the making of a registry has got.  `existed` is whether the store file was there before. -/
inductive Stage where
  | arrived
  | prepared
  | looked (existed : Bool)
  | opened (existed : Bool) (file : FileId) (next : Nat)
  | writing (existed : Bool) (file : FileId) (rest : List Row)
  | saving (existed : Bool) (file : FileId) (saved : Nat)
  | undoing (existed : Bool) (err : BorgError)
  | finished (file : FileId)
  | claimed (file : FileId)
  | hosted (slot : SlotId)
  | refused (err : BorgError)
deriving DecidableEq

/-- How far an ordinary request has got. -/
inductive Asking where
  | arrived (named : Option String)
  | routed (slot : SlotId)
  | entered (slot : SlotId)
  | holding (slot : SlotId) (file : FileId)
  | answered
  | refused (err : BorgError)
deriving DecidableEq

inductive Thread where
  | idle
  | making (maker : Maker) (name : String) (stage : Stage)
  | asking (writes : List Row) (step : Asking)
deriving DecidableEq

/-- How a step on the file system goes: well, or badly, with or without what it was to leave. -/
inductive Ending where
  | well
  | failed (reason : String) (left : Bool)
deriving DecidableEq

/-- One step of the whole system. -/
inductive Action where
  | make (thread : ThreadId) (maker : Maker) (name : String)
  | ask (thread : ThreadId) (named : Option String) (writes : List Row)
  | advance (thread : ThreadId) (ending : Ending)
deriving DecidableEq

structure Server where
  dataDir : String
  /-- Where requests are routed. -/
  table : AssocMap String SlotId
  slots : SlotId → Slot
  nextSlot : SlotId
  dirs : String → Directory
  files : FileId → StoreFile
  nextFile : FileId
  threads : ThreadId → Thread

/-! ### Names -/

/-- Letters, digits, `-` and `_`. -/
def nameIsValid (name : String) : Bool :=
  ¬ name.isEmpty ∧ name.toList.all fun c => c.isAlphanum ∨ c = '-' ∨ c = '_'

/-- How hosted registries are listed for a misrouted client. -/
def listed (names : List String) : String :=
  let all := ", ".intercalate names
  match names.length with
  | 0 => "nothing"
  | 1 => s!"1 registry ({all})"
  | count => s!"{count} registries ({all})"

namespace Server

def names (s : Server) : List String := s.table.keys.mergeSort

/-- Which registry a request is for: the one it names, or the only one. -/
def route (s : Server) : Option String → Except BorgError SlotId
  | some name =>
    match s.table.lookup name with
    | some slot => .ok slot
    | none => .error (.storage s!"no registry named `{name}` — this server hosts {listed s.names}")
  | none =>
    match s.table.values with
    | [slot] => .ok slot
    | [] => .error (.storage <|
        s!"this server hosts no registries — create one with `borg-server create <name> --data-dir " ++
          s!"{s.dataDir}`")
    | _ => .error (.storage <|
        s!"this server hosts {listed s.names} — name one in the handshake, because there is no obvious " ++
          "default with more than one")

def storePath (s : Server) (name : String) : String := s!"{s.dataDir}/{name}/borg.db"

/-! ### Steps -/

def setThread (s : Server) (t : ThreadId) (thread : Thread) : Server :=
  { s with threads := Function.update s.threads t thread }

def setStage (s : Server) (t : ThreadId) (maker : Maker) (name : String) (stage : Stage) : Server :=
  s.setThread t (.making maker name stage)

def setDir (s : Server) (name : String) (dir : Directory) : Server :=
  { s with dirs := Function.update s.dirs name dir }

def setFile (s : Server) (file : FileId) (contents : StoreFile) : Server :=
  { s with files := Function.update s.files file contents }

def setSlot (s : Server) (slot : SlotId) (contents : Slot) : Server :=
  { s with slots := Function.update s.slots slot contents }

/-- The store file of a registry, which opening makes where there is none. -/
def storeOf (s : Server) (name : String) : FileId := (s.dirs name).store.getD s.nextFile

def openStore (s : Server) (name : String) : Server :=
  match (s.dirs name).store with
  | some _ => s
  | none =>
    { (s.setDir name { s.dirs name with store := some s.nextFile }).setFile s.nextFile .empty with
      nextFile := s.nextFile + 1 }

/-- What a step that fails leaves of a store it was to open. -/
def openBadly (s : Server) (name : String) (left : Bool) : Server :=
  if left then s.openStore name else s

/-- Add a row to a store that is being made. -/
def fill (s : Server) (file : FileId) (row : Row) : Server :=
  s.setFile file { s.files file with made := putRow (s.files file).made row }

/-- Where a maker goes when it fails: a restore has what it made to remove. -/
def failing (maker : Maker) (existed : Bool) (reason : String) : Stage :=
  match maker with
  | .create => .refused (.storage reason)
  | .restore _ => .undoing existed (.storage reason)

def makerStep (s : Server) (t : ThreadId) (maker : Maker) (name : String) (ending : Ending) :
    Stage → Server
  | .arrived =>
    if ¬ nameIsValid name then
      s.setStage t maker name (.refused (.storage
        s!"`{name}` is not a registry name — letters, digits, `-` and `_`"))
    else if (s.table.lookup name).isSome then
      s.setStage t maker name (.refused (.storage s!"a registry named `{name}` already exists"))
    else s.setStage t maker name .prepared
  | .prepared =>
    match maker, ending with
    | .create, _ =>
      if (s.dirs name).store.isSome then
        s.setStage t maker name (.refused (.storage s!"{s.storePath name} already exists"))
      else s.setStage t maker name (.looked false)
    -- The stream is a file of its own, which may not be there to open.
    | .restore _, .failed reason _ => s.setStage t maker name (.refused (.storage reason))
    | .restore _, .well => s.setStage t maker name (.looked (s.dirs name).store.isSome)
  | .looked existed =>
    match ending with
    | .well =>
      let file := s.storeOf name
      let s := s.openStore name
      s.setStage t maker name (.opened existed file (s.files file).nextBranch)
    | .failed reason left => (s.openBadly name left).setStage t maker name (failing maker existed reason)
  | .opened existed file next =>
    match maker, ending with
    | .create, .well => (s.fill file (rootRow next)).setStage t maker name (.finished file)
    | .restore stream, .well =>
      if (s.files file).holdsRegistry then
        s.setStage t maker name (.undoing existed (.storage <|
          s!"{s.storePath name} already holds a registry — import creates one, so restore is " ++
            "create-then-import and never `borg init` first"))
      else s.setStage t maker name (.writing existed file stream)
    | _, .failed reason _ => s.setStage t maker name (failing maker existed reason)
  | .writing existed file rest =>
    match ending, rest with
    | .well, row :: rest => (s.fill file row).setStage t maker name (.writing existed file rest)
    | .well, [] => s.setStage t maker name (.saving existed file 0)
    | .failed reason true, row :: _ =>
      (s.fill file row).setStage t maker name (.undoing existed (.storage reason))
    | .failed reason _, _ => s.setStage t maker name (.undoing existed (.storage reason))
  | .saving existed file saved =>
    let written := s.setDir name { s.dirs name with beside := max (s.dirs name).beside (saved + 1) }
    match ending with
    | .well =>
      written.setStage t maker name
        (if saved + 1 = sidecarCount then .finished file else .saving existed file (saved + 1))
    | .failed reason left =>
      (if left then written else s).setStage t maker name (.undoing existed (.storage reason))
  | .undoing existed err =>
    if existed then s.setStage t maker name (.refused err)
    else
      match ending with
      | .well =>
        (s.setDir name { s.dirs name with store := none }).setStage t maker name (.refused err)
      | .failed _ _ => s.setStage t maker name (.refused err)
  | .finished file =>
    match ending with
    | .well => s.setStage t maker name (.claimed file)
    | .failed reason _ => s.setStage t maker name (.refused (.storage reason))
  | .claimed _ =>
    { (s.setSlot s.nextSlot ⟨name, none, none⟩).setStage t maker name (.hosted s.nextSlot) with
      nextSlot := s.nextSlot + 1
      table := s.table.insert name s.nextSlot }
  | .hosted _ => s
  | .refused _ => s

def leave (s : Server) (slot : SlotId) : Server := s.setSlot slot { s.slots slot with gate := none }

def askerStep (s : Server) (t : ThreadId) (writes : List Row) (ending : Ending) : Asking → Server
  | .arrived named =>
    match s.route named with
    | .ok slot => s.setThread t (.asking writes (.routed slot))
    | .error err => s.setThread t (.asking writes (.refused err))
  | .routed slot =>
    if (s.slots slot).gate = none then
      (s.setSlot slot { s.slots slot with gate := some t }).setThread t (.asking writes (.entered slot))
    else s
  | .entered slot =>
    match (s.slots slot).held with
    | some file => s.setThread t (.asking writes (.holding slot file))
    | none =>
      let name := (s.slots slot).name
      match ending with
      | .failed reason left =>
        ((s.openBadly name left).leave slot).setThread t (.asking writes (.refused (.storage reason)))
      | .well =>
        let file := s.storeOf name
        let s := s.openStore name
        if (s.files file).branches.isEmpty then
          (s.leave slot).setThread t (.asking writes (.refused (.storage
            "store has no branches — run `borg init` — a store has to exist before it can be served")))
        else
          (s.setSlot slot { s.slots slot with held := some file }).setThread t
            (.asking writes (.holding slot file))
  | .holding slot file =>
    match ending with
    | .well =>
      ((s.setFile file { s.files file with later := (s.files file).later ++ writes }).leave
        slot).setThread t (.asking writes .answered)
    | .failed reason _ => (s.leave slot).setThread t (.asking writes (.refused (.storage reason)))
  | .answered => s
  | .refused _ => s

/-- What an action makes of the server. -/
def next (s : Server) : Action → Server
  | .make t maker name =>
    match s.threads t with
    | .idle => s.setThread t (.making maker name .arrived)
    | _ => s
  | .ask t named writes =>
    match s.threads t with
    | .idle => s.setThread t (.asking writes (.arrived named))
    | _ => s
  | .advance t ending =>
    match s.threads t with
    | .idle => s
    | .making maker name stage => s.makerStep t maker name ending stage
    | .asking writes step => s.askerStep t writes ending step

end Server

end BorgCore
