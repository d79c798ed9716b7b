import BorgCore.Engine.Defs

/-!
# The read path

Resolving a cell: translate the reader's ClientVersion into the def-version of the field, locate the
record, validate its watermark, and say what the value reflects.  A value that is absent and a value
that has not been migrated to the reader's version are different facts.

The engine's side of a `current` read is a parameter: bring this cell up to date, and nothing else.
-/

namespace BorgCore

inductive Freshness where
  | current | unvalidated | stale | broken | tombstoned
deriving DecidableEq, Repr

inductive FreshnessRequirement where
  | any | validated | current
deriving DecidableEq, Repr

structure Resolved where
  value : Option Value
  origin : Origin
  event : Option EventId
  authoredAt : LayerId
  landedAt : LayerId
  freshAsOf : LayerId
  state : Freshness
  producedBy : Option ProducerId
deriving DecidableEq

structure Poisoning where
  producer : ProducerId
  /-- The producer's ClientVersion when it failed. -/
  version : LayerId
  /-- What went wrong. -/
  error : BorgError
  /-- The source layer the round that poisoned it was settling. -/
  since : LayerId
deriving DecidableEq

/-- Whether this record still speaks about a producer standing at `version`. -/
def Poisoning.appliesTo (poisoning : Poisoning) (version : LayerId) : Bool :=
  poisoning.version = version

/-- What validation has found out about each dependency so far; `none` while it is under way. -/
abbrev Composed := AssocMap CellAt (Option LayerId)

namespace Log

/-- One dependency after another: stop where one has moved, else take the least bound.  `recurse`
validates the record behind a derived dependency. -/
def validateSet (log : Log) (path : ReadPath) (freshAsOf : LayerId)
    (recurse : List CellAt → LayerId → Composed → Except BorgError (LayerId × Composed)) :
    List CellAt → LayerId → Composed → Except BorgError (LayerId × Composed)
  | [], watermark, composed => .ok (watermark, composed)
  | dependency :: rest, watermark, composed => do
    match ← log.storage.getCell path dependency.cell dependency.version with
    | none => log.validateSet path freshAsOf recurse rest watermark composed
    | some found =>
      if freshAsOf < found.reflects then return (freshAsOf, composed)
      match found.event.derivation with
      | none => log.validateSet path freshAsOf recurse rest watermark composed
      | some upstream =>
        let (bound, composed) ←
          match composed.lookup dependency with
          | some (some known) => pure (known, composed)
          | some none => pure (upstream.freshAsOf, composed)
          | none => do
            let (bound, composed) ←
              recurse upstream.readSet upstream.freshAsOf (composed.insert dependency none)
            pure (bound, composed.insert dependency (some bound))
        log.validateSet path freshAsOf recurse rest (min watermark bound) composed

/-- How far a value can honestly claim to be correct.  Each level of the recursion marks a record
that was not marked, so the number of records bounds its depth. -/
def validate (log : Log) (path : ReadPath) (target : LayerId) :
    Nat → List CellAt → LayerId → Composed → Except BorgError (LayerId × Composed)
  | 0, _, freshAsOf, composed => .ok (freshAsOf, composed)
  | fuel + 1, readSet, freshAsOf, composed =>
    log.validateSet path freshAsOf (log.validate path target fuel) readSet target composed

def watermarkOf (log : Log) (path : ReadPath) (readSet : List CellAt) (freshAsOf target : LayerId) :
    Except BorgError LayerId := do
  return (← log.validate path target (log.storage.reads.keys.length + 1) readSet freshAsOf ∅).1

/-- The cell is not materialized at the reader's version. -/
def resolveUnmaterialized (log : Log) (path : ReadPath) (cell : CellRef) (version : DefVersion) :
    Except BorgError Resolved := do
  let available := log.storage.cellVersions path cell
  let defs ← log.view path
  let reachable := available.any fun source => (defs.path cell.buffer source version).isSome
  return {
    value := none, origin := .derived, event := none, authoredAt := 0, landedAt := 0, freshAsOf := 0
    state := if available.isEmpty then .current else if reachable then .stale else .broken
    producedBy := none }

/-- Whether the producer that owns a cell is poisoned on this branch, as the branch now stands. -/
def poisoning (log : Log) (recorded : List Poisoning) (branch : BranchId) (producer : ProducerId) :
    Except BorgError (Option Poisoning) :=
  match recorded.find? fun poisoning => poisoning.producer = producer with
  | none => .ok none
  | some poisoning => do
    let view ← log.view (log.readPath branch none)
    return match view.producers.lookup producer with
      | some definition => if poisoning.appliesTo definition.version then some poisoning else none
      | none => some poisoning

/-- Whether computing inline could change a read's answer: not for one pinned below the head. -/
def canComputeAt (log : Log) (branch : BranchId) (layer : Option LayerId) : Bool :=
  match layer with
  | none => true
  | some requested => (log.readPath branch none).ceiling ≤ requested

/-- Whether this cell is already correct as of the layer being read. -/
def settledHere (log : Log) (branch : BranchId) (cell : CellRef) (version : DefVersion)
    (layer : Option LayerId) : Except BorgError Bool := do
  let path := log.readPath branch layer
  let ceiling := layer.getD path.ceiling
  match ← log.storage.getCell path cell version with
  | none => return false
  | some found =>
    match found.event.derivation with
    | none => return true
    | some derivation =>
      return ceiling ≤ (← log.watermarkOf path derivation.readSet derivation.freshAsOf ceiling)

def versionFor (log : Log) (branch : BranchId) (cell : CellRef) (layer : Option LayerId)
    (version : ClientVersion) : Except BorgError DefVersion := do
  return (← log.viewAt (log.readPath branch layer) version).versionOf cell

/-- The answer to a read, from what is stored. -/
def answer (log : Log) (recorded : List Poisoning) (branch : BranchId) (cell : CellRef)
    (layer : Option LayerId) (version : DefVersion) (requirement : FreshnessRequirement) :
    Except BorgError Resolved := do
  let path := log.readPath branch layer
  let layer := layer.getD path.ceiling
  match ← log.storage.getCell path cell version with
  | none => log.resolveUnmaterialized path cell version
  | some found =>
    let record := found.event
    let value := if record.value.isTombstone then none else some record.value
    match record.derivation with
    | none => return {
        value, origin := .source, event := some record.id, authoredAt := record.authored
        landedAt := found.landedAt, freshAsOf := layer
        state := if record.value.isTombstone then .tombstoned else .current, producedBy := none }
    | some derivation =>
      let (state, freshAsOf) ←
        match requirement with
        | .any => pure (
            if layer ≤ derivation.freshAsOf then (.current, layer)
            else (.unvalidated, derivation.freshAsOf))
        | .validated | .current => do
          let watermark ← log.watermarkOf path derivation.readSet derivation.freshAsOf layer
          pure (if layer ≤ watermark then (Freshness.current, layer) else (.stale, watermark))
      let poisoning ← log.poisoning recorded branch derivation.producer
      let state := if poisoning.isSome then .broken else state
      return {
        value, origin := .derived, event := some record.id, authoredAt := record.authored
        landedAt := found.landedAt, freshAsOf
        state := if record.value.isTombstone then .tombstoned else state
        producedBy := some derivation.producer }

/-- Read one cell, with provenance.  `computeNow` is what the engine does to the log for a `current`
read that is not settled. -/
def resolve (computeNow : BranchId → CellRef → DefVersion → LogM Unit) (recorded : List Poisoning)
    (branch : BranchId) (cell : CellRef) (layer : Option LayerId) (version : ClientVersion)
    (requirement : FreshnessRequirement) : LogM Resolved := do
  let defVersion ← ask fun log => log.versionFor branch cell layer version
  if requirement = .current ∧ (← get).canComputeAt branch layer then
    if ¬ (← ask fun log => log.settledHere branch cell defVersion layer) then
      computeNow branch cell defVersion
  ask fun log => log.answer recorded branch cell layer defVersion requirement

end Log

end BorgCore
