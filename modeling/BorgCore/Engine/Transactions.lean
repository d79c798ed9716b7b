import Mathlib.Data.List.Dedup
import BorgCore.Core.Transaction
import BorgCore.Engine.Branch
import BorgCore.Engine.Resolve
import BorgCore.Engine.Write

/-!
# A client's transaction

A transaction forks the branch at its ceiling, reads and writes on the fork, and merges back into the
branch it was opened on, guarded by what it read.  Its fork is of whichever branch the ceiling layer
belongs to: a branch with no layers of its own is forked at the layer it was itself forked at.
-/

namespace BorgCore

namespace Transaction

variable {tx : Transaction}

theorem mem_guards {cell : CellRef} : cell ∈ tx.guards ↔ ∃ read ∈ tx.reads, read.cell = cell := by
  rw [guards, List.mem_dedup, List.mem_map]

theorem observe_eq (read : CellAt) :
    ∃ reads, tx.observe read = { tx with reads := reads } ∧ (∀ other ∈ tx.reads, other ∈ reads) ∧
      (read.cell ∉ tx.writes → read ∈ reads) := by
  unfold observe
  split
  · exact ⟨tx.reads, rfl, fun _ h => h, fun h => absurd ‹_› h⟩
  · exact ⟨tx.reads.insert read, rfl, fun _ h => List.mem_insert_of_mem h,
      fun _ => List.mem_insert_self⟩

theorem observeAll_eq (reads : List CellAt) :
    ∃ known, reads.foldl observe tx = { tx with reads := known } ∧ (∀ other ∈ tx.reads, other ∈ known) ∧
      ∀ read ∈ reads, read.cell ∉ tx.writes → read ∈ known := by
  induction reads generalizing tx with
  | nil => exact ⟨tx.reads, rfl, fun _ h => h, fun read h => by cases h⟩
  | cons read rest ih =>
    obtain ⟨first, hfirst, hkept, hread⟩ := tx.observe_eq read
    obtain ⟨known, hknown, hkept', hrest⟩ := @ih { tx with reads := first }
    refine ⟨known, ?_, fun other h => hkept' other (hkept other h), fun other h hw => ?_⟩
    · rw [List.foldl_cons, hfirst, hknown]
    · rcases List.mem_cons.1 h with rfl | h
      · exact hkept' _ (hread hw)
      · exact hrest other h hw

theorem wroteAll_eq (cells : List CellRef) :
    ∃ written, cells.foldl wrote tx = { tx with writes := written } ∧
      ∀ cell, cell ∈ written ↔ cell ∈ tx.writes ∨ cell ∈ cells := by
  induction cells generalizing tx with
  | nil => exact ⟨tx.writes, rfl, fun cell => by simp⟩
  | cons head rest ih =>
    obtain ⟨written, hw, hmem⟩ := @ih (tx.wrote head)
    refine ⟨written, by rw [List.foldl_cons, hw]; rfl, fun cell => ?_⟩
    rw [hmem]
    simp only [wrote, List.mem_insert_iff, List.mem_cons]
    tauto

end Transaction

namespace Log

/-- The highest layer a branch can see; `none` where the whole ancestry is empty. -/
def forkPointOf (log : Log) (branch : BranchId) : Option LayerId :=
  let ceiling := (log.readPath branch none).ceiling
  if ceiling ≠ 0 then some ceiling else none

def ownerOf (log : Log) (layer : LayerId) : Except BorgError BranchId :=
  match log.layer layer with
  | some layer => .ok layer.branch
  | none => .error (.storage s!"unknown layer L{layer}")

def txBegin (branch : BranchId) (name : Option String) : LogM Transaction := do
  match (← get).forkPointOf branch with
  | none => throw (.storage "nothing to fork from — the branch is empty")
  | some forkPoint =>
    let owner ← ask fun log => log.ownerOf forkPoint
    let forked ← fork owner forkPoint name
    return .new forked branch forkPoint

/-- Fold a finished session's reads and writes into the transaction that owns it: reads first, since
every probe a session makes comes before any write it makes to the same cell. -/
def absorb (tx : Transaction) (session : WriteSession) : Transaction :=
  session.authored.foldl Transaction.wrote (session.observed.foldl Transaction.observe tx)

theorem absorb_eq (tx : Transaction) (session : WriteSession) :
    ∃ reads writes, absorb tx session = { tx with reads := reads, writes := writes } ∧
      (∀ read ∈ tx.reads, read ∈ reads) ∧
      (∀ read ∈ session.observed, read.cell ∉ tx.writes → read ∈ reads) ∧
      ∀ cell, cell ∈ writes ↔ cell ∈ tx.writes ∨ cell ∈ session.authored := by
  obtain ⟨reads, hr, hkept, hread⟩ := tx.observeAll_eq session.observed
  obtain ⟨writes, hw, hmem⟩ := @Transaction.wroteAll_eq { tx with reads := reads } session.authored
  exact ⟨reads, writes, by rw [absorb, hr, hw], hkept, hread, hmem⟩

/-- Read through a transaction, and record the read at the def-version of the cell in the reader's own
view. -/
def txGet (computeNow : BranchId → CellRef → DefVersion → LogM Unit) (recorded : List Poisoning)
    (tx : Transaction) (cell : CellRef) (version : ClientVersion)
    (requirement : FreshnessRequirement) : LogM (Transaction × Resolved) := do
  let defVersion ← ask fun log => log.versionFor tx.branch cell none version
  let resolved ← resolve computeNow recorded tx.branch cell none version requirement
  return (tx.observe ⟨cell, defVersion⟩, resolved)

end Log

end BorgCore
