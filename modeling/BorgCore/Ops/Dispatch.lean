import Mathlib.Data.String.Basic
import BorgCore.Ops.Hosting
import BorgCore.Ops.Keys
import BorgCore.Ops.Transactions

/-!
# Handshakes, scopes and requests

A connection presents a credential, settles on a registry and then asks.  What the credential may reach is
applied at the handshake, where a request is routed, and where a request names a registry of its own.

What a server does with one registry is given: each of those calls works on the files of that registry's
directory, on what the server holds open of it, and on what its process keeps for all of them.  What is
written out here is who gets to make which call, on which registry, and which files the server itself reads
and writes.
-/

namespace BorgCore

namespace Tenancy

/-! ### Files -/

/-- Where a path leads: a file in the directory of a registry, a file of the server's own, or elsewhere. -/
inductive Place where
  | registry (name file : String)
  | keys
  | admin
  | elsewhere (path : String)
deriving DecidableEq

abbrev Files := Place → Option String

/-- The files in one registry's directory. -/
abbrev RegistryDir := String → Option String

/-- What a process keeps for all the registries it serves: its number, where it puts temporary files, and how
many worker sockets it has named. -/
structure Process where
  pid : Nat
  tempDir : String
  workerSockets : Nat

def Process.nextSocketPath (process : Process) : String × Process :=
  (s!"{process.tempDir}/borg-w{process.pid}-{process.workerSockets}.sock",
    { process with workerSockets := process.workerSockets + 1 })

/-- What a call on one registry works on: what its process keeps, and the files of the registry. -/
structure Around (P : Type) where
  process : P
  dir : RegistryDir

/-- How the disk answers: where a path leads, and what comes of opening or creating a file there. -/
structure Disk where
  resolve : String → Place
  opening : String → Files → Except String String
  creating : String → Files → Except String Unit
  /-- What the text of a keys file holds. -/
  keysFile : String → KeysFile

/-! ### Requests and responses -/

/-- What a restore turned out to be. -/
structure Imported where
  layers : Nat
  events : Nat
  branches : Nat
  head : LayerId
  writtenBy : String

/-- What a push turned out to be. -/
structure Pushed where
  layer : Option LayerId
  report : List String

/-- What an export turned out to be. -/
structure Exported where
  layers : Nat
  events : Nat
  interned : Nat
  head : LayerId
  settled : LayerId

/-- A request: about the server, about another registry, or an ordinary one about the registry the
handshake settled. -/
inductive Request (Q : Type) where
  | registries
  | registryCreate (name : String)
  | importStream (name path : String)
  | repoPush (registry branch path : Option String)
  | exportStream (registry : Option String) (path : String)
  | ordinary (request : Q)

/-- An error is a sentence of the server's own, or what an operation failed with. -/
inductive Response (A : Type) where
  | registries (hosted : List (String × Bool))
  | ok
  | imported (name : String) (report : Imported)
  | pushed (report : Pushed)
  | exported (path : String) (report : Exported)
  | answered (answer : A)
  | error (message : String)
  | failed (err : BorgError)

/-- What comes over a connection: a request, or a message that cannot be read as one. -/
inductive Message (Q : Type) where
  | request (request : Request Q)
  | unreadable (err : String)

structure ClientHello where
  version : Nat
  clientVersion : Option String
  codec : String
  registry : Option String
  credential : Option String

inductive HelloAck where
  | accepted (version : Nat) (server codec : String) (registry : Option String) (auth : String)
  | refused (reason : String)
  | unrouted (err : BorgError)

/-! ### One registry -/

/-- The calls a server makes on one registry, which is open or yet to be opened.  `P` is what a process keeps,
`H` an open registry, `Q` an ordinary request with all that it is asked with, and `A` its answer. -/
structure Library (P H Q A : Type) where
  init : Ops → (store : String) → Around P → Except BorgError Unit × Around P
  restore : Ops → (store stream : String) → Around P → Except BorgError Imported × Around P
  claim : (store socket name : String) → Around P → Except BorgError Unit × Around P
  hold : Ops → (store : String) → Around P → Except BorgError H × Around P
  reapTransactions : Ops → H → Around P → Except BorgError Unit × H × Around P
  ordinary : Ops → Q → H → Around P → A × H × Around P
  /-- A push reads code off the server's disk. -/
  repoPush : Ops → (path : String) → Files → H → Around P → Except BorgError Pushed × H × Around P
  /-- What an export comes to, what it has written, and the process it leaves. -/
  exportStream : Ops → H → Around P → Except BorgError Exported × String × P

structure Slot (H : Type) where
  name : String
  held : Option H

/-- The hosted registries, in the order of their names. -/
structure SlotMap (H : Type) where
  slots : List (Slot H)
  sorted : slots.Pairwise fun slot other => slot.name < other.name

namespace SlotMap

variable {H : Type}

def get (registries : SlotMap H) (name : String) : Option (Slot H) :=
  registries.slots.find? fun slot => slot.name = name

/-- Put a slot in its place, instead of the one of that name. -/
def place (slot : Slot H) : List (Slot H) → List (Slot H)
  | [] => [slot]
  | other :: rest =>
    if slot.name < other.name then slot :: other :: rest
    else if slot.name = other.name then slot :: rest
    else other :: place slot rest

theorem mem_place {slot other : Slot H} {slots : List (Slot H)} (h : other ∈ place slot slots) :
    other = slot ∨ other ∈ slots := by
  induction slots with
  | nil => exact .inl (List.mem_singleton.1 h)
  | cons first rest ih =>
    unfold place at h
    split_ifs at h
    · exact List.mem_cons.1 h
    · exact (List.mem_cons.1 h).imp_right (List.mem_cons_of_mem _)
    · obtain rfl | h := List.mem_cons.1 h
      · exact .inr (List.mem_cons_self ..)
      · exact (ih h).imp_right (List.mem_cons_of_mem _)

theorem pairwise_place {slot : Slot H} {slots : List (Slot H)}
    (h : slots.Pairwise fun slot other => slot.name < other.name) :
    (place slot slots).Pairwise fun slot other => slot.name < other.name := by
  induction slots with
  | nil => exact List.pairwise_singleton ..
  | cons first rest ih =>
    obtain ⟨hfirst, hrest⟩ := List.pairwise_cons.1 h
    unfold place
    split_ifs with hlt heq
    · refine List.pairwise_cons.2 ⟨?_, h⟩
      intro other hother
      obtain rfl | hother := List.mem_cons.1 hother
      · exact hlt
      · exact hlt.trans (hfirst other hother)
    · refine List.pairwise_cons.2 ⟨?_, hrest⟩
      intro other hother
      rw [heq]
      exact hfirst other hother
    · refine List.pairwise_cons.2 ⟨?_, ih hrest⟩
      intro other hother
      obtain rfl | hother := mem_place hother
      · exact lt_of_le_of_ne (not_lt.1 hlt) (Ne.symm heq)
      · exact hfirst other hother

def insert (registries : SlotMap H) (slot : Slot H) : SlotMap H :=
  ⟨place slot registries.slots, pairwise_place registries.sorted⟩

def keep (registries : SlotMap H) (name : String) (held : H) : SlotMap H where
  slots := registries.slots.map fun slot => if slot.name = name then { slot with held := some held } else slot
  sorted := by
    refine List.pairwise_map.2 (registries.sorted.imp ?_)
    intro slot other hlt
    split_ifs <;> exact hlt

end SlotMap

/-! ### The host -/

/-- Every registry under one data directory, the disk they are on, and the process that serves them. -/
structure Host (P H : Type) where
  process : P
  dataDir : String
  socket : String
  /-- Whether this process is serving these registries. -/
  serving : Bool
  registries : SlotMap H
  files : Files

namespace Host

variable {P H Q A : Type}

def storePath (host : Host P H) (name : String) : String := s!"{host.dataDir}/{name}/borg.db"

def dir (host : Host P H) (name : String) : RegistryDir := fun file => host.files (.registry name file)

def around (host : Host P H) (name : String) : Around P := ⟨host.process, host.dir name⟩

def setAround (host : Host P H) (name : String) (around : Around P) : Host P H :=
  { host with
    process := around.process
    files := fun
      | .registry other file => if other = name then around.dir file else host.files (.registry other file)
      | place => host.files place }

def put (host : Host P H) (place : Place) (contents : String) : Host P H :=
  { host with files := Function.update host.files place (some contents) }

def keep (host : Host P H) (name : String) (held : H) : Host P H :=
  { host with registries := host.registries.keep name held }

/-- The registries a credential may see, and which of them are open. -/
def hostedWithin (host : Host P H) (scope : Scope) : List (String × Bool) :=
  (host.registries.slots.filter fun slot => scope.allows slot.name).map fun slot =>
    (slot.name, slot.held.isSome)

def visible (host : Host P H) (scope : Scope) : List String :=
  scope.visible (host.registries.slots.map Slot.name)

/-- Which registry a request is for, inside what a credential may reach. -/
def routeWithin (host : Host P H) (named : Option String) (scope : Scope) : Except BorgError String :=
  match named with
  | some name =>
    match (host.registries.get name).filter fun slot => scope.allows slot.name with
    | some slot => .ok slot.name
    | none => .error <| .storage <|
        s!"no registry named `{name}` — this server hosts {listed (host.visible scope)}"
  | none =>
    match host.registries.slots.filter fun slot => scope.allows slot.name with
    | [only] => .ok only.name
    | [] => .error <| .storage <|
        s!"this server hosts no registries — create one with `borg-server create <name> --data-dir " ++
          s!"{host.dataDir}`"
    | _ => .error <| .storage <|
        s!"this server hosts {listed (host.visible scope)} — name one in the handshake, because there is " ++
          "no obvious default with more than one"

/-- Check that a registry can be made under this name. -/
def prepare (host : Host P H) (name : String) : Except BorgError Unit :=
  if ¬ nameIsValid name then
    .error (.storage s!"`{name}` is not a registry name — letters, digits, `-` and `_`")
  else if (host.registries.get name).isSome then
    .error (.storage s!"a registry named `{name}` already exists")
  else .ok ()

/-- Take a finished store into the hosted set; it is claimed if this process is serving. -/
def adopt (lib : Library P H Q A) (host : Host P H) (name : String) : Except BorgError Unit × Host P H :=
  if host.serving then
    let (claimed, around) := lib.claim (host.storePath name) host.socket name (host.around name)
    let host := host.setAround name around
    match claimed with
    | .ok () => (.ok (), { host with registries := host.registries.insert ⟨name, none⟩ })
    | .error err => (.error err, host)
  else (.ok (), { host with registries := host.registries.insert ⟨name, none⟩ })

def create (lib : Library P H Q A) (host : Host P H) (base : Ops) (name : String) :
    Except BorgError Unit × Host P H :=
  match host.prepare name with
  | .error err => (.error err, host)
  | .ok () =>
    let (made, around) := lib.init base (host.storePath name) (host.around name)
    let host := host.setAround name around
    match made with
    | .ok () => host.adopt lib name
    | .error err => (.error err, host)

/-- Make a registry and fill it from an export stream. -/
def restore (disk : Disk) (lib : Library P H Q A) (host : Host P H) (base : Ops) (name path : String) :
    Except BorgError Imported × Host P H :=
  match host.prepare name with
  | .error err => (.error err, host)
  | .ok () =>
    match disk.opening path host.files with
    | .error err => (.error (.storage s!"{path}: {err}"), host)
    | .ok stream =>
      let (made, around) := lib.restore base (host.storePath name) stream (host.around name)
      let host := host.setAround name around
      match made with
      | .error err => (.error err, host)
      | .ok report =>
        match host.adopt lib name with
        | (.ok (), host) => (.ok report, host)
        | (.error err, host) => (.error err, host)

/-- The registry an operation works through, opened if this is the first time anything has asked. -/
def ops (lib : Library P H Q A) (host : Host P H) (base : Ops) (name : String) :
    Except BorgError H × Host P H :=
  match (host.registries.get name).bind Slot.held with
  | some held => (.ok held, host)
  | none =>
    let (held, around) := lib.hold base (host.storePath name) (host.around name)
    let host := host.setAround name around
    match held with
    | .ok held => (.ok held, host.keep name held)
    | .error err => (.error err, host)

end Host

/-! ### A request -/

section Requests

variable {P H Q A : Type} (disk : Disk) (lib : Library P H Q A)

/-- One request, answered against one registry. -/
def answer (host : Host P H) (base : Ops) (name : String) (held : H) (request : Request Q) :
    Response A × Host P H :=
  let (reaped, held, around) := lib.reapTransactions base held (host.around name)
  let host := (host.setAround name around).keep name held
  match reaped with
  | .error err => (.failed err, host)
  | .ok () =>
    match request with
    | .ordinary request =>
      let (answer, held, around) := lib.ordinary base request held (host.around name)
      (.answered answer, (host.setAround name around).keep name held)
    | .repoPush _ _ none => (.error "repo_push needs a `path` — a repo directory on the server", host)
    | .repoPush _ branch (some path) =>
      let (pushed, held, around) := lib.repoPush { base with branch } path host.files held (host.around name)
      let host := (host.setAround name around).keep name held
      match pushed with
      | .ok report => (.pushed report, host)
      | .error err => (.failed err, host)
    | .exportStream _ path =>
      match disk.creating path host.files with
      | .error err => (.error s!"{path}: {err}", host)
      | .ok () =>
        -- The file is there, and empty, before the export begins.
        let host := host.put (disk.resolve path) ""
        let (report, written, process) := lib.exportStream base held (host.around name)
        let host := { host.put (disk.resolve path) written with process }
        match report with
        | .ok report => (.exported path report, host)
        | .error err => (.failed err, host)
    | .registries | .registryCreate _ | .importStream _ _ =>
      (.error "this request is answered by the host, not by a registry", host)

/-- The registry a request names, if it is one of the two that may. -/
def Request.named : Request Q → Option String
  | .repoPush registry _ _ => registry
  | .exportStream registry _ => registry
  | _ => none

/-- Find the registry a request is for, take that registry, answer. -/
def answerRouted (host : Host P H) (target : Except BorgError String) (base : Ops) (request : Request Q)
    (scope : Scope) : Response A × Host P H :=
  let routed :=
    match request.named with
    | some name => host.routeWithin (some name) scope
    | none => target
  match routed with
  | .error err => (.failed err, host)
  | .ok name =>
    match host.ops lib base name with
    | (.error err, host) => (.failed err, host)
    | (.ok held, host) => answer disk lib host base name held request

/-- One request, inside what the handshake's credential earned. -/
def dispatch (host : Host P H) (target : Except BorgError String) (base : Ops) (request : Request Q)
    (scope : Scope) : Response A × Host P H :=
  match request with
  | .registries => (.registries (host.hostedWithin scope), host)
  | .registryCreate name =>
    match Keys.permit scope name with
    | .error refusal => (.error refusal, host)
    | .ok () =>
      match host.create lib base name with
      | (.ok (), host) => (.ok, host)
      | (.error err, host) => (.failed err, host)
  | .importStream name path =>
    match Keys.permit scope name with
    | .error refusal => (.error refusal, host)
    | .ok () =>
      match host.restore disk lib base name path with
      | (.ok report, host) => (.imported name report, host)
      | (.error err, host) => (.failed err, host)
  | request => answerRouted disk lib host target base request scope

end Requests

/-! ### A connection -/

def protocolVersion : Nat := 2

/-- Decimal digits, below 2⁶⁴, with a sign that may only be a plus. -/
def parseUnsigned (text : List Char) : Option Nat :=
  let digits := if text.head? = some '+' then text.tail else text
  if digits ≠ [] ∧ digits.all Char.isDigit then
    let value := digits.foldl (fun value digit => 10 * value + (digit.toNat - '0'.toNat)) 0
    if value < 2 ^ 64 then some value else none
  else none

def parseLayer (text : String) : Option LayerId := parseUnsigned (text.toList.dropWhile (· = 'L'))

/-- What a handshake settled: where requests go, the defaults they vary from, and what they may reach. -/
structure Connection where
  target : Except BorgError String
  base : Ops
  scope : Scope

/-- What a server is started with. -/
structure Setup where
  digest : String → String
  /-- The server's own version. -/
  server : String
  base : Ops

def Host.authorize {P H : Type} (setup : Setup) (disk : Disk) (host : Host P H) (presented : Option String) :
    Except Refusal Access :=
  Keys.authorize setup.digest host.dataDir ((host.files .keys).map disk.keysFile) (host.files .admin)
    presented

/-- The ClientVersion a hello states, if it states one. -/
def statedVersion (clientVersion : Option String) : Except String (Option LayerId) :=
  match clientVersion with
  | none => .ok none
  | some text =>
    match parseLayer text with
    | some layer => .ok (some layer)
    | none => .error s!"client_version `{text}` is not a layer id — try L7"

/-- A handshake: authentication comes before anything that could name a registry. -/
def handshake {P H : Type} (setup : Setup) (disk : Disk) (host : Host P H) :
    Except String ClientHello → HelloAck × Option Connection
  | .error err => (.refused err, none)
  | .ok hello =>
    if hello.version ≠ protocolVersion then
      (.refused (s!"this server speaks client protocol {protocolVersion}, and the client said " ++
        s!"{hello.version} — " ++
        if hello.version < protocolVersion then
          "protocol 2 answers every hello before the first request, which protocol 1 does not wait for; " ++
            "upgrade the client"
        else "upgrade the server"), none)
    else
      match statedVersion hello.clientVersion with
      | .error reason => (.refused reason, none)
      | .ok version =>
        match host.authorize setup disk hello.credential with
        | .error refusal => (.refused refusal, none)
        | .ok access =>
          let permitted :=
            match hello.registry with
            | some named => Keys.permit access.scope named
            | none => .ok ()
          match permitted with
          | .error refusal => (.refused refusal, none)
          | .ok () =>
            let base := { setup.base with version := version <|> setup.base.version }
            let target := host.routeWithin hello.registry access.scope
            let connection : Connection := ⟨target, base, access.scope⟩
            match target, hello.registry with
            | .ok name, _ =>
              (.accepted protocolVersion setup.server hello.codec (some name) access.mode, some connection)
            | .error err, some _ => (.unrouted err, none)
            | .error _, none =>
              (.accepted protocolVersion setup.server hello.codec none access.mode, some connection)

/-- A server and the connections to it. -/
structure Served (P H : Type) where
  host : Host P H
  connections : Nat → Option Connection

/-- What clients do: connect, or send over a connection. -/
inductive Arrival (Q : Type) where
  | connect (id : Nat) (hello : Except String ClientHello)
  | send (id : Nat) (message : Message Q)

/-- What comes back.  Nothing does where there is no such connection. -/
inductive Reply (A : Type) where
  | ack (ack : HelloAck)
  | response (response : Response A)
  | silence

/-- What an arrival is answered with, and the server it leaves. -/
def Served.next {P H Q A : Type} (setup : Setup) (disk : Disk) (lib : Library P H Q A) (s : Served P H) :
    Arrival Q → Reply A × Served P H
  | .connect id hello =>
    match s.connections id with
    | some _ => (.silence, s)
    | none =>
      let (ack, connection) := handshake setup disk s.host hello
      (.ack ack, { s with connections := Function.update s.connections id connection })
  | .send id message =>
    match s.connections id with
    | none => (.silence, s)
    | some connection =>
      match message with
      | .unreadable err => (.response (.error err), s)
      | .request request =>
        let (response, host) :=
          dispatch disk lib s.host connection.target connection.base request connection.scope
        (.response response, { s with host })

end Tenancy

end BorgCore
