import BorgCore.Core.Literal
import BorgCore.Ops.Transactions

/-!
# Pushing a repo

A repo is a directory of executables, and each describes what it implements: structs, pipelines, migrations.
A push is a diff of the whole description against the definitions in force on a branch, gathered before
anything is emitted; what it emits is one def layer, or none.

The descriptions are what running the executables has answered, and where a repo's files are is the
machine's affair: both are given.
-/

namespace BorgCore

namespace Repo

/-- How a worker wants to be spoken to. -/
inductive Transport where
  | stdio
  | socket
deriving DecidableEq

/-- A migration an executable implements. -/
structure MigrationSpec where
  name : String
  fingerprint : Option String
deriving DecidableEq

/-- A pipeline an executable implements. -/
structure ProducerSpec where
  name : String
  /-- The struct it maps over. -/
  source : ObjectTypeName
  /-- What its code currently is. -/
  fingerprint : Option String
deriving DecidableEq

structure FieldSpec where
  name : FieldName
  ty : String
  /-- The producer that writes this field, by its name; `none` is source data. -/
  derivedBy : Option String
  /-- The migration that carries values forward when the type changes. -/
  up : Option String
  /-- The migration that carries them back. -/
  down : Option String
deriving DecidableEq

structure StructSpec where
  name : ObjectTypeName
  fields : List FieldSpec
deriving DecidableEq

structure Description where
  structs : List StructSpec
  producers : List ProducerSpec
  transport : Transport
  /-- The repo it believes it belongs to, if it says. -/
  repo : Option RepoId
  migrations : List MigrationSpec
deriving DecidableEq

/-- An executable, by its path, and what it describes. -/
abbrev Script := String × Description

/-- Where a producer's implementation lives. -/
structure Implementation where
  id : ProducerId
  name : String
  source : String
  command : String
  transport : Transport
deriving DecidableEq

/-- The files of the machine a push runs on. -/
structure Files where
  /-- The digest of a file, where it can be read. -/
  digest : String → Option String
  canonicalize : String → String

/-- The id a name hashes to: FNV-1a, away from the small ids. -/
def producerId (name : String) : ProducerId :=
  let hash := (Utf8.encode name.toList).foldl
    (fun hash byte => (hash ^^^ byte.toUInt64) * 0x100000001b3) (0xcbf29ce484222325 : UInt64)
  (hash ||| 0x100000000).toNat

def valueType : String → ValueType
  | "Int" => .int
  | "Bool" => .bool
  | "Double" => .double
  | "String" => .string
  | "Binary" => .binary
  | "BigInt" => .bigInt
  | "Any" => .any
  | other => .object other

/-- A field is source data unless a producer is named as its writer. -/
def ownership : Option ProducerId → Ownership
  | some producer => .derived producer
  | none => .source

/-! ### One producer -/

/-- What a push does to one producer's definition. -/
inductive ProducerChange where
  /-- Nothing in force names it. -/
  | new
  | unchanged
  /-- The code moved; `first` where there was no fingerprint to compare with. -/
  | implementation (first : Bool)
  /-- Its buffer, its kind or its repo moved. -/
  | definition
deriving DecidableEq

/-- Diff one producer against what is in force.  One without a fingerprint is never invalidated by its code. -/
def producerChange (existing : Option ProducerDef) (next : ProducerDef) : ProducerChange :=
  match existing with
  | none => .new
  | some existing =>
    if existing.kind ≠ next.kind ∨ existing.source ≠ next.source ∨
        existing.declaringRepo ≠ next.declaringRepo then .definition
    else
      match existing.fingerprint, next.fingerprint with
      | some before, some after => if before = after then .unchanged else .implementation false
      | none, some _ => .implementation true
      | _, none => .unchanged

/-- What a push has turned out to be, so far. -/
structure Tally where
  recomputing : Nat
  firstSeen : Nat
  unchanged : Nat
deriving DecidableEq

/-- A push that is being gathered. -/
structure Draft where
  impls : List Implementation
  events : List DefEvent
  report : List String
  tally : Tally
deriving DecidableEq

/-- Add one producer's definition to the push, or account for its absence. -/
def land (change : ProducerChange) (next : ProducerDef) (name : String) (draft : Draft) : Draft :=
  let { impls, events, report, tally } := draft
  match change with
  | .unchanged => { draft with tally := { tally with unchanged := tally.unchanged + 1 } }
  | .new => ⟨impls, events ++ [.pushProducer next], report ++ [s!"{name} -> P{next.id}"], tally⟩
  | .definition =>
    ⟨impls, events ++ [.pushProducer next], report ++ [s!"{name} -> P{next.id} (definition changed)"],
      { tally with recomputing := tally.recomputing + 1 }⟩
  | .implementation false =>
    ⟨impls, events ++ [.pushProducer next], report ++ [s!"{name} -> P{next.id} (implementation changed)"],
      { tally with recomputing := tally.recomputing + 1 }⟩
  | .implementation true =>
    ⟨impls, events ++ [.pushProducer next],
      report ++ [s!"{name} -> P{next.id} (implementation changed, first fingerprint)"],
      { tally with firstSeen := tally.firstSeen + 1 }⟩

/-- Record where a producer's code lives, in place of where it was. -/
def remember (impls : List Implementation) (impl : Implementation) : List Implementation :=
  impls.filter (fun known => known.id ≠ impl.id) ++ [impl]

def Draft.remember (draft : Draft) (impl : Implementation) : Draft :=
  { draft with impls := Repo.remember draft.impls impl }

/-- The fingerprint to record: what was described, or the digest of the command. -/
def fingerprintOf (files : Files) (supplied : Option String) (command : String) : Option String :=
  match supplied with
  | some supplied => some supplied
  | none => files.digest command

/-! ### The whole description -/

/-- Why a push did not go through. -/
inductive Failure where
  | refused (err : BorgError)
  | panicked (message : String)
deriving DecidableEq

def Failure.storage (message : String) : Failure := .refused (.storage message)

/-- The pipelines of a repo, in the order they are described. -/
def pipelines (scripts : List Script) : List (Script × ProducerSpec) :=
  scripts.flatMap fun script => script.2.producers.map fun spec => (script, spec)

def fields (scripts : List Script) : List (ObjectTypeName × FieldSpec) :=
  scripts.flatMap fun script =>
    script.2.structs.flatMap fun spec => spec.fields.map fun field => (spec.name, field)

def known (scripts : List Script) : List String :=
  scripts.flatMap fun script =>
    script.2.producers.map ProducerSpec.name ++ script.2.migrations.map MigrationSpec.name

/-- The first script that describes a migration, and its description of it. -/
def findMigration (scripts : List Script) (name : String) : Option (Script × MigrationSpec) :=
  scripts.findSome? fun script =>
    (script.2.migrations.find? fun spec => spec.name = name).map fun spec => (script, spec)

/-- Every executable that says which repo it belongs to says this one. -/
def checkClaims (dir : String) (repo : RepoId) : List Script → Except Failure Unit
  | [] => .ok ()
  | (command, description) :: rest =>
    match description.repo with
    | some claimed =>
      if claimed ≠ repo then
        .error (.storage s!"{command} describes itself as repo {claimed}, but {dir}/borg.toml says {repo}")
      else checkClaims dir repo rest
    | none => checkClaims dir repo rest

/-- The id of a producer that is named as an owner or a migration. -/
def resolve (scripts : List Script) (owner what : String) : Except Failure ProducerId :=
  if owner ∈ known scripts then .ok (producerId owner)
  else .error (.storage (s!"{what} names `{owner}`, which this repo does not implement (it implements: " ++
    ", ".intercalate (known scripts) ++ ")"))

/-- The owner a field names, if it names one. -/
def resolveOwner (scripts : List Script) (what : String) : Option String → Except Failure (Option ProducerId)
  | some name => some <$> resolve scripts name what
  | none => .ok none

section Diff

variable (files : Files) (repo : RepoId) (scripts : List Script) (view : DefView)

def pipelineDef (script : Script) (spec : ProducerSpec) : ProducerDef :=
  ⟨producerId spec.name, .pipeline, .object spec.source, 0, repo,
    fingerprintOf files spec.fingerprint script.1⟩

def pushPipeline (draft : Draft) (script : Script) (spec : ProducerSpec) : Draft :=
  let next := pipelineDef files repo script spec
  (land (producerChange (view.producers.lookup next.id) next) next spec.name draft).remember
    ⟨next.id, spec.name, spec.source, files.canonicalize script.1, script.2.transport⟩

/-- A migration's definition names the field it maps over and its direction. -/
def migrationDef (structName : ObjectTypeName) (field : FieldName) (direction : MigrationDirection)
    (script : Script) (spec : MigrationSpec) (name : String) : ProducerDef :=
  ⟨producerId name, .migration direction, .objectProp structName field, 0, repo,
    fingerprintOf files spec.fingerprint script.1⟩

/-- Push the migration a field names, if it names one. -/
def pushMigration (structName : ObjectTypeName) (field : FieldName) (direction : MigrationDirection)
    (draft : Draft) : Option String → Except Failure (Option ProducerId × Draft)
  | none => .ok (none, draft)
  | some name => do
    let id ← resolve scripts name s!"{structName}.{field}"
    match findMigration scripts name with
    | none => throw (.panicked "resolve() accepted the name, so some script described it")
    | some (script, spec) =>
      let next := migrationDef files repo structName field direction script spec name
      return (some id,
        (land (producerChange (view.producers.lookup id) next) next name draft).remember
          ⟨id, name, structName, files.canonicalize script.1, script.2.transport⟩)

/-- Declare a field, unless that is how it is declared.  One whose ownership or repo moved is emitted to be
rejected. -/
def declareField (structName : ObjectTypeName) (field : FieldSpec) (draft : Draft) : Except Failure Draft := do
  let owner ← resolveOwner scripts s!"{structName}.{field.name}" field.derivedBy
  let ty := valueType field.ty
  let repeated := (view.fieldOf structName field.name).any fun existing =>
    existing.ty = ty ∧ existing.declaringRepo = repo ∧ existing.ownership = ownership owner
  if repeated then
    return { draft with tally := { draft.tally with unchanged := draft.tally.unchanged + 1 } }
  else
    return { draft with
      events := draft.events ++ [.declareField structName field.name ty repo (ownership owner)]
      report := draft.report ++ [s!"{structName}.{field.name} {field.ty}"] }

/-- Diff one field, and the migrations it names. -/
def pushField (draft : Draft) (structName : ObjectTypeName) (field : FieldSpec) : Except Failure Draft := do
  let ty := valueType field.ty
  let (up, draft) ← pushMigration files repo scripts view structName field.name .up draft field.up
  let (down, draft) ← pushMigration files repo scripts view structName field.name .down draft field.down
  match view.fieldOf structName field.name with
  | some existing =>
    if existing.ty ≠ ty then
      -- No migration can be appointed for a derived field, so this is asked before `up` is.
      match existing.ownership with
      | .derived owner => throw (.refused (.migrationOnDerivedField structName field.name owner))
      | .source =>
        match up with
        | none =>
          throw (.storage (s!"{structName}.{field.name} changes from {existing.ty.display} to {ty.display}, " ++
            "which needs an `up` migration to carry the existing values forward"))
        | some up =>
          return { draft with
            events := draft.events ++ [.mutateField structName field.name ty repo up down]
            report := draft.report ++
              [s!"{structName}.{field.name} {existing.ty.display} -> {field.ty}"] }
    else declareField repo scripts view structName field draft
  | none => declareField repo scripts view structName field draft

/-- Diff a repo's whole schema against a view.  A migration that nothing names is an error. -/
def diff (impls : List Implementation) : Except Failure Draft := do
  let draft := (pipelines scripts).foldl (fun draft (script, spec) =>
    pushPipeline files repo view draft script spec) ⟨impls, [], [], ⟨0, 0, 0⟩⟩
  let draft ← (fields scripts).foldlM (fun draft (structName, field) =>
    pushField files repo scripts view draft structName field) draft
  match (scripts.flatMap fun script => script.2.migrations).find? fun spec =>
      !draft.impls.any fun impl => impl.name = spec.name with
  | some spec =>
    throw (.storage s!"`{spec.name}` is implemented but no field names it as its `up` or `down`")
  | none => return draft

end Diff

/-! ### The push -/

def plural (count : Nat) (noun : String) : String :=
  if count = 1 then s!"{count} {noun}" else s!"{count} {noun}s"

/-- The lines a push is told in: what moved, and then the consequences. -/
def Draft.lines (draft : Draft) : List String :=
  let { report, tally, .. } := draft
  let report := if 0 < tally.recomputing then
    report ++ ["implementation changed, recomputing " ++ plural tally.recomputing "producer"] else report
  let report := if 0 < tally.firstSeen then
    report ++ ["implementation changed (first fingerprint), recomputing " ++
      plural tally.firstSeen "producer"] else report
  if report.isEmpty then
    ["unchanged: " ++ plural tally.unchanged "definition" ++ " already in force, nothing pushed"]
  else report

/-- A store, and the table of implementations beside it. -/
structure Store where
  log : Log
  impls : List Implementation

/-- What a push turned out to be. -/
structure Push where
  /-- The def layer it landed, if it landed one. -/
  layer : Option LayerId
  report : List String
deriving DecidableEq

def onLog {α : Type} (call : LogM α) : EStateM Failure Store α := fun store =>
  match call store.log with
  | .ok a log => .ok a { store with log }
  | .error err log => .error (.refused err) { store with log }

/-- No events, no layer. -/
def pushEvents (branch : BranchId) (events : List DefEvent) : EStateM Failure Store (Option LayerId) :=
  if events.isEmpty then pure none else some <$> onLog (Log.push branch events)

/-- What was answered, or the failure it was answered with. -/
def answered {α : Type} (answer : Except Failure α) : EStateM Failure Store α := fun store =>
  match answer with
  | .ok a => .ok a store
  | .error err => .error err store

/-- Push a repo into a branch.  The round that catches the branch up comes after. -/
def repoPush (files : Files) (dir : String) (repo : RepoId) (scripts : List Script)
    (branchName : Option String) : EStateM Failure Store Push := do
  let branch ← onLog (Log.ask fun log => log.branchNamed branchName)
  answered (checkClaims dir repo scripts)
  let view ← onLog (Log.ask fun log => log.view (log.readPath branch none))
  let draft ← answered (diff files repo scripts view (← get).impls)
  let layer ← pushEvents branch draft.events
  modify fun store => { store with impls := draft.impls }
  return ⟨layer, draft.lines⟩

end Repo

end BorgCore
