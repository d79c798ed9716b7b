import Mathlib.Data.List.Sort
import BorgCore.Core.Layer
import BorgCore.Lib.Worklist

/-!
# Transactions and rounds

A transaction records what it read and what it wrote; at commit its reads are its guards.  A round is
the same shape for derivation: a client transaction is one intent and lands whole or not at all,
while a round is many independent computations and lands the ones whose guards held.

The read and write sets are lists without repetition.
-/

namespace BorgCore

/-- One client transaction: where it forked, what it read there, and what it wrote. -/
structure Transaction where
  /-- The branch this transaction writes into, forked at its fork point. -/
  branch : BranchId
  /-- The branch it merges back into; not inferred from the fork point. -/
  parent : BranchId
  /-- Where the snapshot was taken, and the `since` of every guard. -/
  forkPoint : LayerId
  reads : List CellAt
  writes : List CellRef
deriving DecidableEq

namespace Transaction

def new (branch parent : BranchId) (forkPoint : LayerId) : Transaction :=
  ⟨branch, parent, forkPoint, [], []⟩

/-- Record a read made through this transaction, one that found nothing included.  A read of a cell
this transaction has already written is not recorded; a read before the write is. -/
def observe (tx : Transaction) (read : CellAt) : Transaction :=
  if read.cell ∈ tx.writes then tx else { tx with reads := tx.reads.insert read }

def wrote (tx : Transaction) (cell : CellRef) : Transaction :=
  { tx with writes := tx.writes.insert cell }

/-- The cells this transaction's commit is contingent on, however many versions of each it read. -/
def guards (tx : Transaction) : List CellRef := (tx.reads.map CellAt.cell).dedup

end Transaction

/-- What one invocation touched. -/
structure Accesses where
  reads : List CellAt
  writes : List CellAt
deriving DecidableEq

/-- A derivation round, as a transaction: its invocations, keyed by the layer each one committed. -/
structure Round where
  /-- The branch the producers write to, forked at the fork point. -/
  branch : BranchId
  /-- The branch this round merges back into. -/
  parent : BranchId
  forkPoint : LayerId
  invocations : AssocMap LayerId Accesses

namespace Round

def new (branch parent : BranchId) (forkPoint : LayerId) : Round := ⟨branch, parent, forkPoint, ∅⟩

/-- Record what one invocation read and wrote, and which layer it committed. -/
def ran (round : Round) (layer : LayerId) (reads writes : List CellAt) : Round :=
  { round with invocations := round.invocations.insert layer ⟨reads, writes⟩ }

def layers (round : Round) : List LayerId := round.invocations.keys.insertionSort (· ≤ ·)

def isEmpty (round : Round) : Bool := round.invocations.keys.isEmpty

def accesses (round : Round) (layer : LayerId) : Accesses :=
  round.invocations.getD layer ⟨[], []⟩

def produced (round : Round) : List CellAt := round.invocations.values.flatMap Accesses.writes

/-- What one layer is contingent on: the records it read and the round did not produce, named as the
cells a guard is asked about.  The subtraction is over records and the result is over cells. -/
def guardsOf (round : Round) (layer : LayerId) : List CellRef :=
  ((round.accesses layer).reads.filter (· ∉ round.produced)).map CellAt.cell

def guards (round : Round) : List (LayerId × List CellRef) :=
  round.layers.map fun layer => (layer, round.guardsOf layer)

def readersOf (round : Round) (cell : CellRef) : List LayerId :=
  round.layers.filter fun layer => (round.accesses layer).reads.any fun read => read.cell = cell

/-- The layers that read a cell this one wrote. -/
def consumers (round : Round) (layer : LayerId) : List LayerId :=
  (round.accesses layer).writes.flatMap fun write => round.readersOf write.cell

/-- Everything that must be dropped once these layers are: keyed on the cell and not on the record,
so that nothing derived from a dropped layer is published. -/
def cascade (round : Round) (failed : List LayerId) : List LayerId :=
  Worklist.close round.consumers (failed.length + round.invocations.keys.length) failed.reverse failed

end Round

end BorgCore
