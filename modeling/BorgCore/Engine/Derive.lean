import BorgCore.Core.Transaction
import BorgCore.Engine.Branch
import BorgCore.Engine.Index
import BorgCore.Engine.Resolve
import BorgCore.Engine.Span
import BorgCore.Engine.Write

/-!
# Settling a round

A round forks the branch at the top of a range, runs producers on the fork until nothing is dirty, and
merges what settled.  It runs in waves: the layers of one wave are turned into the invocations they
dirty, those run concurrently, and the layers they commit are the next wave.  Scheduling runs no user
code; between any two calls of one run, any call of another run of its wave may fall.
-/

namespace BorgCore

/-! ### Producer code -/

/-- What a run of producer code does: the calls it makes on the world it is handed, what it goes on with after
each answer, and how it ends.  Only runs that end are such: a round waits for every run, however long. -/
inductive Code where
  | done
  | fail (err : BorgError)
  | panic
  | get (cell : CellRef) (next : Except BorgError (Option Value) → Code)
  | getAt (cell : CellRef) (version : DefVersion) (next : Except BorgError (Option Value) → Code)
  | getInput (cell : CellRef) (next : Except BorgError (Option Value) → Code)
  | set (cell : CellRef) (value : Value) (next : Except BorgError Unit → Code)

/-! ### The engine -/

structure DerivationEngine where
  log : Log
  index : DependencyIndex
  poison : AssocMap (BranchId × ProducerId) Poisoning
  producers : AssocMap ProducerId ProducerDef
  /-- The ClientVersions somebody is connected at. -/
  liveVersions : List ClientVersion
  /-- What a producer's code does over one entity.  Code need not do the same twice: the layer a run
  writes tells one run of it from another. -/
  executor : ProducerId → ClientVersion → Pid → LayerId → Code
  /-- How many invocations of one wave run at once. -/
  parallelism : Nat
  parallelism_pos : 0 < parallelism

/-- How many times one invocation may re-run at a fixed branch head before it is judged to be cycling. -/
def cycleRerunLimit : Nat := 8

/-- Where the runs of a round write and what their output claims, and the definitions they are run under. -/
structure RunAt where
  /-- The branch being settled. -/
  home : BranchId
  /-- The round's own branch. -/
  on : BranchId
  reflects : LayerId
  /-- The definitions in force at home when the round forked. -/
  defs : DefView

namespace DerivationEngine

variable (engine : DerivationEngine) (scope : RunAt)

def versionOf (producer : ProducerId) : Option LayerId :=
  (engine.producers.lookup producer).map ProducerDef.version

/-- A record stands where its producer cannot be shown to have moved. -/
def stands (poisoning : Poisoning) : Bool :=
  match engine.versionOf poisoning.producer with
  | none => true
  | some version => poisoning.appliesTo version

/-- Whether this producer is poisoned on this branch, at the version it stands at now. -/
def isBroken (branch : BranchId) (producer : ProducerId) : Option Poisoning :=
  (engine.poison.lookup (branch, producer)).filter engine.stands

/-- Judge a producer broken, against the ClientVersion it was running at. -/
def recordPoisoning (branch : BranchId) (producer : ProducerId) (since : LayerId) (err : BorgError) :
    DerivationEngine :=
  { engine with
    poison := engine.poison.insert (branch, producer)
      ⟨producer, (engine.versionOf producer).getD 0, err, since⟩ }

/-- Where a layer stands in the source stream. -/
def position (layer : LayerId) : LayerId :=
  match engine.log.authorOf layer with
  | some (.derived _ reflects) => reflects
  | _ => layer

/-- A committed layer's changeset, and which producer wrote each cell of it. -/
def cellsOf (layer : LayerId) : Except BorgError (List (CellAt × Option ProducerId)) := do
  let events ← engine.log.storage.readLayer layer
  return events.map fun event => (event.at, event.derivation.map Derivation.producer)

/-- Whether this producer's output is worth materializing. -/
def isMaterializedVersion (definition : ProducerDef) : Bool :=
  match scope.defs.migrationRole definition with
  | none => true
  | some role => engine.liveVersions.isEmpty || decide (role.output ∈ engine.liveVersions)

/-- Whether what stands at a source position is passed over for a producer: it has incorporated the
position, it has nothing to bridge on this branch, or nobody is connected at the version it writes. -/
def passesAt (position : LayerId) (definition : ProducerDef) : Bool :=
  decide (position ≤ engine.log.frontier.watermark scope.home definition.id) ||
  (match definition.kind with
    | .pipeline => false
    | .migration _ => (scope.defs.migrationRole definition).isNone) ||
  !engine.isMaterializedVersion scope definition

/-- Whether a layer is passed over for a producer. -/
def passesOver (layer : LayerId) (definition : ProducerDef) : Bool :=
  engine.passesAt scope (engine.position layer) definition

/-- Whether a cell was written by either half of a migration's own step. -/
def peer (role : Option MigrationRole) (author : Option ProducerId) : Bool :=
  match author, role with
  | some producer, some role => decide (producer ∈ role.step)
  | _, _ => false

/-- The invocations of a producer that a changeset dirties: those that read a cell of it, and those of
the entities it names in the producer's source buffer. -/
def invalidatedBy (cells : List (CellAt × Option ProducerId)) (definition : ProducerDef) :
    List Invocation :=
  let role := scope.defs.migrationRole definition
  let written := (cells.filter fun (_, author) => !peer role author).map Prod.fst
  let dirty := (engine.index.dependentsOf scope.home written).filter (·.producer = definition.id)
  let named := cells.filter fun (cell, author) =>
    !peer role author && decide (author ≠ some definition.id) &&
      decide (cell.cell.buffer = definition.source) &&
      role.all fun role => cell.version == role.input
  (dirty ++ named.map fun entry => Invocation.mk definition.id entry.1.cell.pid).dedup

/-- Whether a migration has something to bridge here: a value at its input version, not written by the
other half of its own step. -/
def usable (path : ReadPath) (role : Option MigrationRole) (cell : CellRef) : Except BorgError Bool :=
  match role with
  | none => .ok true
  | some role => do
    match ← engine.log.storage.getCell path cell role.input with
    | none => return false
    | some found =>
      return found.event.derivation.all fun derivation => decide (derivation.producer ∉ role.step)

/-- The whole of a producer's source buffer, as work, for a producer that has never run here at this
ClientVersion. -/
def backfill (definition : ProducerDef) : Except BorgError (List Invocation) := do
  let watermark := engine.log.frontier.watermark scope.home definition.id
  if watermark ≠ 0 ∧ definition.version ≤ watermark then return []
  let path := engine.log.readPath scope.on none
  let rows ← engine.log.storage.scanBuffer path definition.source
  let usable ← ((rows.map Event.cell).dedup).filterM
    (engine.usable path (scope.defs.migrationRole definition))
  return usable.map fun cell => ⟨definition.id, cell.pid⟩

end DerivationEngine

/-! ### Scheduling a wave -/

/-- The order a hash set is walked in. -/
structure Walk where
  order : List Invocation → List Invocation
  perm : ∀ invocations, (order invocations).Perm invocations

/-- In the order it stands. -/
def Walk.plain : Walk := ⟨id, fun _ => .refl _⟩

/-- Where scheduling stands: what it has counted in this round, and what of this wave it has decided. -/
structure Scheduling where
  engine : DerivationEngine
  /-- How often each invocation was scheduled in this round. -/
  reruns : AssocMap Invocation Nat
  /-- Producers already given their whole source buffer in this round. -/
  seeded : List ProducerId
  /-- One run per invocation per wave. -/
  scheduled : List Invocation
  work : List (ProducerDef × Invocation)

abbrev ScheduleM := EStateM BorgError Scheduling

namespace Scheduling

variable (scope : RunAt)

/-- How often an invocation was scheduled in this round. -/
def runs (s : Scheduling) (invocation : Invocation) : Nat := s.reruns.getD invocation 0

def count (s : Scheduling) (invocation : Invocation) : Scheduling :=
  { s with
    scheduled := invocation :: s.scheduled
    reruns := s.reruns.insert invocation (s.runs invocation + 1) }

/-- Schedule what a layer dirties of one producer.  An invocation that has run too often poisons its
producer, and the producer's other candidates are left. -/
def take (definition : ProducerDef) : List Invocation → Scheduling → Scheduling
  | [], s => s
  | invocation :: rest, s =>
    if invocation ∈ s.scheduled then take definition rest s
    else
      let s := s.count invocation
      if cycleRerunLimit < s.runs invocation then
        { s with
          engine := s.engine.recordPoisoning scope.home definition.id scope.reflects
            (.producerCycle definition.id (s.runs invocation)) }
      else take definition rest { s with work := s.work ++ [(definition, invocation)] }

/-- Offer one layer to one producer. -/
def offer (walk : Walk) (layer : LayerId) (cells : List (CellAt × Option ProducerId))
    (definition : ProducerDef) : ScheduleM Unit := fun s =>
  -- a poisoned producer is not scheduled at all
  if (s.engine.isBroken scope.home definition.id).isSome then .ok () s
  else if s.engine.passesOver scope layer definition then .ok () s
  else
    let candidates := s.engine.invalidatedBy scope cells definition
    if definition.id ∈ s.seeded then .ok () (take scope definition (walk.order candidates) s)
    else
      let s := { s with seeded := definition.id :: s.seeded }
      match s.engine.backfill scope definition with
      | .error err => .error err s
      | .ok seeds => .ok () (take scope definition (walk.order (candidates ++ seeds).dedup) s)

def offerAll (walk : ProducerId → Walk) (layer : LayerId) (cells : List (CellAt × Option ProducerId)) :
    List ProducerDef → ScheduleM Unit
  | [] => pure ()
  | definition :: rest => do
    offer scope (walk definition.id) layer cells definition
    offerAll walk layer cells rest

/-- Turn one wave of committed layers into the invocations they dirty. -/
def schedule (walk : LayerId → ProducerId → Walk) : List LayerId → ScheduleM Unit
  | [] => pure ()
  | layer :: rest => do
    let s ← get
    match s.engine.cellsOf layer with
    | .error err => throw err
    | .ok cells =>
      offerAll scope (walk layer) layer cells s.engine.producers.values
      schedule walk rest

end Scheduling

/-! ### One run -/

/-- A producer run under way: the world it is handed, and what it read and wrote so far. -/
structure Running where
  definition : ProducerDef
  input : Pid
  session : WriteSession
  /-- The round's ancestry, resolved once. -/
  path : ReadPath
  /-- The version a migration takes its input at. -/
  inputVersion : Option DefVersion
  readSet : List CellAt
  writeSet : List CellAt
  code : Code

/-- What one call of a run comes to. -/
inductive Turned where
  | goes (run : Running)
  | ends (derived : Except BorgError LayerId)
  | panics

/-- Add a record to a set that is kept in the order of first mention. -/
def noted (record : CellAt) (records : List CellAt) : List CellAt :=
  if record ∈ records then records else records ++ [record]

namespace Running

def invocation (run : Running) : Invocation := ⟨run.definition.id, run.input⟩

def versionOf (run : Running) (cell : CellRef) : DefVersion := run.session.defs.versionOf cell

/-- Open the layer a run writes into. -/
def begin (scope : RunAt) (engine : DerivationEngine) (definition : ProducerDef) (input : Pid) :
    LogM Running := do
  let role := scope.defs.migrationRole definition
  let version := match role with
    | some role => role.output
    | none => definition.version
  let session ← WriteSession.openOn scope.on scope.home version (.producer definition.id)
    (.derived definition.id scope.reflects)
  let log ← get
  return {
    definition, input, session
    path := log.readPath scope.on none
    inputVersion := role.map MigrationRole.input
    readSet := []
    writeSet := []
    code := engine.executor definition.id version input session.layer }

/-- Read a record.  It is a dependency before it is looked up, so a read that finds nothing is one too. -/
def readAt (run : Running) (log : Log) (record : CellAt)
    (next : Except BorgError (Option Value) → Code) : Running :=
  { run with
    readSet := noted record run.readSet
    code := next ((log.storage.getCell run.path record.cell record.version).map
      (Option.map fun found => found.event.value)) }

/-- The next call of a run. -/
def advance (scope : RunAt) (run : Running) (engine : DerivationEngine) : Turned × DerivationEngine :=
  match run.code with
  | .get cell next => (.goes (run.readAt engine.log ⟨cell, run.versionOf cell⟩ next), engine)
  | .getAt cell version next => (.goes (run.readAt engine.log ⟨cell, version⟩ next), engine)
  | .getInput cell next =>
    (.goes (run.readAt engine.log ⟨cell, run.inputVersion.getD (run.versionOf cell)⟩ next), engine)
  | .set cell value next =>
    let derivation : Derivation := ⟨run.definition.id, scope.reflects, run.readSet⟩
    match run.session.put cell value (some derivation) engine.log with
    | .ok session log =>
      (.goes { run with
        session
        writeSet := noted ⟨cell, run.versionOf cell⟩ run.writeSet
        code := next (.ok ()) }, { engine with log })
    | .error err log => (.goes { run with code := next (.error err) }, { engine with log })
  | .done =>
    -- recorded before the layer commits, against the branch that owns the data
    let index := engine.index.record scope.home run.invocation run.readSet run.writeSet
    match run.session.commit engine.log with
    | .ok layer log => (.ends (.ok layer), { engine with index, log })
    | .error err log => (.ends (.error err), { engine with index, log })
  | .fail err =>
    match run.session.abort engine.log with
    | .ok _ log => (.ends (.error err), { engine with log })
    | .error err log => (.ends (.error err), { engine with log })
  | .panic => (.panics, engine)

end Running

/-! ### A round -/

inductive Failure where
  | error (err : BorgError)
  /-- a producer run did not finish -/
  | unfinished
deriving DecidableEq

/-- A round between its fork and its merge. -/
structure Settling where
  engine : DerivationEngine
  scope : RunAt
  round : Round
  /-- The layers the next wave is scheduled from. -/
  wave : List LayerId
  /-- Scheduled, and waiting for a permit. -/
  waiting : List (ProducerDef × Invocation)
  running : List Running
  reruns : AssocMap Invocation Nat
  seeded : List ProducerId
  executed : Nat
  failed : Option Failure

/-- What may happen next in a round: a wave whose runs are over is turned into the next one, a run that
waits is given a permit, a run makes its next call. -/
inductive Turn where
  | schedule (walk : LayerId → ProducerId → Walk)
  | start (index : Nat)
  | advance (index : Nat)

namespace Settling

/-- Fork at the top of the range. -/
def begin (engine : DerivationEngine) (branch : BranchId) (span : Span) : Except BorgError Settling :=
  match engine.log.layer span.forkAt with
  | none => .error (.storage s!"unknown layer L{span.forkAt}")
  | some layer =>
    match Log.fork layer.branch span.forkAt none engine.log with
    | .error err _ => .error err
    | .ok on log =>
      match log.view (log.readPath branch none) with
      | .error err => .error err
      | .ok defs => .ok {
          engine := { engine with log }
          scope := ⟨branch, on, span.reflects, defs⟩
          round := .new on branch span.forkAt
          wave := span.layers
          waiting := []
          running := []
          reruns := ∅
          seeded := []
          executed := 0
          failed := none }

/-- A run failed: its producer is poisoned, and nobody else. -/
def poisoned (s : Settling) (producer : ProducerId) (err : BorgError) : Settling :=
  { s with engine := s.engine.recordPoisoning s.scope.home producer s.scope.reflects err }

def start (s : Settling) (index : Nat) : Settling :=
  match s.waiting[index]? with
  | none => s
  | some (definition, invocation) =>
    if s.engine.parallelism ≤ s.running.length then s
    else
      let s := { s with waiting := s.waiting.eraseIdx index }
      match Running.begin s.scope s.engine definition invocation.input s.engine.log with
      | .ok run log => { s with engine := { s.engine with log }, running := s.running ++ [run] }
      | .error err log => { s with engine := { s.engine with log } }.poisoned definition.id err

def advance (s : Settling) (index : Nat) : Settling :=
  match s.running[index]? with
  | none => s
  | some run =>
    match run.advance s.scope s.engine with
    | (.goes run, engine) => { s with engine, running := s.running.set index run }
    | (.ends (.ok layer), engine) => { s with
        engine
        running := s.running.eraseIdx index
        round := s.round.ran layer run.readSet run.writeSet
        executed := s.executed + 1
        wave := s.wave ++ [layer] }
    | (.ends (.error err), engine) =>
      { s with engine, running := s.running.eraseIdx index }.poisoned run.definition.id err
    | (.panics, engine) => { s with engine, failed := some .unfinished }

def schedule (s : Settling) (walk : LayerId → ProducerId → Walk) : Settling :=
  match Scheduling.schedule s.scope walk s.wave ⟨s.engine, s.reruns, s.seeded, [], []⟩ with
  | .ok _ out => { s with
      engine := out.engine
      reruns := out.reruns
      seeded := out.seeded
      waiting := out.work
      wave := [] }
  | .error err out => { s with engine := out.engine, failed := some (.error err) }

/-- What a turn leaves.  A wave is scheduled when every run of the last one is over. -/
def next (s : Settling) (turn : Turn) : Settling :=
  if s.failed.isSome then s
  else
    match turn with
    | .schedule walk =>
      if s.wave = [] ∨ s.waiting ≠ [] ∨ s.running ≠ [] then s else s.schedule walk
    | .start index => s.start index
    | .advance index => s.advance index

def Settled (s : Settling) : Prop := s.failed = none ∧ s.wave = [] ∧ s.waiting = [] ∧ s.running = []

/-- Merge what settled.  Every producer's watermark advances, whether or not its runs landed. -/
def finish (s : Settling) : EStateM.Result BorgError Log (RoundOutcome × DerivationEngine) :=
  match Log.mergeRound s.round s.engine.log with
  | .error err log => .error err log
  | .ok outcome log =>
    let log := { log with
      frontier := s.engine.producers.keys.foldl
        (fun frontier producer => frontier.advance s.scope.home producer s.scope.reflects) log.frontier }
    .ok ({ outcome with executed := s.executed }, { s.engine with log }) log

end Settling

end BorgCore
