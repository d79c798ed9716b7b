import BorgCore.Engine.Defs

/-!
# The write path

A cell cannot be written without consulting definitions.  A session folds the definitions once, when
it opens: at the writer's ClientVersion, for shape and for the version a record is keyed at, and as
they stand on the branch, for permission.  One session is one layer.
-/

namespace BorgCore

/-- An open layer that validates every write against the definitions in force on its branch. -/
structure WriteSession where
  /-- The definitions the writer's own code was built against. -/
  defs : DefView
  /-- The definitions in force on the branch. -/
  authority : DefView
  /-- The ancestry this session's data reads resolve through. -/
  path : ReadPath
  writer : Writer
  handle : LayerHandle
  /-- Existence cells this session has already written or probed. -/
  touched : List CellRef
  /-- What a client session read, for the transaction that owns it. -/
  observed : List CellAt
  /-- Every cell a client session wrote, implied existence cells included. -/
  authored : List CellRef

namespace WriteSession

def layer (session : WriteSession) : LayerId := session.handle.id

/-- Open a session whose layer and data reads are on `branch` and whose definitions come from
`definitions`; the two differ only for a producer inside a round. -/
def openOn (branch definitions : BranchId) (version : ClientVersion) (writer : Writer)
    (author : LayerAuthor) : LogM WriteSession := do
  let log ← get
  let path := log.readPath branch none
  let defPath := log.readPath definitions none
  let authority ← Log.ask fun log => log.view defPath
  let view ← Log.ask fun log => log.viewAt defPath version
  let handle ← Log.openLayer branch .value author
  return ⟨view, authority, path, writer, handle, [], [], []⟩

def openClient (branch : BranchId) (version : ClientVersion) : LogM WriteSession :=
  openOn branch branch version .client .source

/-- Writing a property implies the object exists.  Client writes only; the probe is recorded whatever
it finds, and reads committed data, so the objects this session has touched are remembered. -/
def implyExistence (session : WriteSession) (cell : CellRef) : LogM WriteSession := do
  if session.writer ≠ .client then return session
  let existence := cell.existenceOf
  if existence ∈ session.touched then return session
  let session := { session with touched := existence :: session.touched }
  if existence = cell then return session
  let version := session.defs.versionOf existence
  let session := { session with observed := session.observed ++ [⟨existence, version⟩] }
  match ← Log.ask fun log => log.storage.getCell session.path existence version with
  | some _ => return session
  | none =>
    let _ ← Log.put session.handle existence ⟨.bool true, version, session.writer.origin, none⟩
    return { session with authored := session.authored ++ [existence] }

def put (session : WriteSession) (cell : CellRef) (value : Value) (derivation : Option Derivation) :
    LogM WriteSession := do
  Log.ask fun _ => session.defs.checkWrite cell value session.writer session.authority
  let session ← session.implyExistence cell
  let _ ← Log.put session.handle cell
    ⟨value, session.defs.versionOf cell, session.writer.origin, derivation⟩
  if session.writer = .client then
    return { session with authored := session.authored ++ [cell] }
  return session

def commit (session : WriteSession) : LogM LayerId := Log.commit session.handle

def abort (session : WriteSession) : LogM Unit := Log.abort session.handle

/-- The writes of one session, in order.  The first one refused discards the layer. -/
def putAll (session : WriteSession) : List (CellRef × Value) → LogM WriteSession
  | [] => pure session
  | (cell, value) :: rest => fun log =>
    match session.put cell value none log with
    | .ok session log => putAll session rest log
    | .error rejection log =>
      match session.abort log with
      | .ok _ log => .error rejection log
      | .error err log => .error err log

end WriteSession

def clientWrite (branch : BranchId) (version : ClientVersion) (writes : List (CellRef × Value)) :
    LogM WriteSession := do
  let session ← WriteSession.openClient branch version
  let session ← session.putAll writes
  let _ ← session.commit
  return session

end BorgCore
