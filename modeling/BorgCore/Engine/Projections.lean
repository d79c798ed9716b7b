import Mathlib.Data.List.Sort
import BorgCore.Engine.Frontier
import BorgCore.Engine.Index
import BorgCore.Engine.Touch
import BorgCore.Storage.Memory

/-!
# Projections of the log

The touch index, the dependency index and the watermarks are folds over committed layers, and each
knows how far it has got.  A registry that has just been opened brings them to head from nothing; one
that has been held open feeds them a layer at a time.
-/

namespace BorgCore

/-- The projections one registry maintains. -/
inductive Projection where
  | touchIndex
  | dependencyIndex
  | watermarks
deriving DecidableEq, Repr

/-- What the projections hold, and the committed layer each is up to date through. -/
structure Projections where
  touches : CellTouchIndex
  index : DependencyIndex
  frontier : FrontierTracker
  position : Projection → LayerId

namespace Projections

def new : Projections := ⟨.new, .new, .new, fun _ => 0⟩

def members : List Projection := [.touchIndex, .dependencyIndex, .watermarks]

/-- Whether folding this layer's events would tell a projection anything. -/
def wants : Projection → Layer → Bool
  | .touchIndex, layer => layer.author.isSource
  | .dependencyIndex, layer => !layer.author.isSource
  | .watermarks, _ => false

/-- Advance a position, never backwards. -/
def reached (projections : Projections) (member : Projection) (layer : LayerId) : Projections :=
  { projections with
    position := fun other =>
      if other = member then max (projections.position member) layer else projections.position other }

/-- What a derived layer's events say was read and written, folded under the branch the layer belongs
to. -/
def foldEdges (index : DependencyIndex) (branch : BranchId) (producer : ProducerId)
    (events : List Event) : DependencyIndex :=
  events.foldl (fun index event =>
    match event.derivation with
    | none => index
    | some derivation =>
      index.record branch ⟨producer, event.cell.pid⟩ derivation.readSet [event.at]) index

/-- Fold one committed layer into one projection. -/
def apply (projections : Projections) (member : Projection) (layer : Layer) (events : List Event) :
    Projections :=
  let folded :=
    match member, layer.author with
    | .touchIndex, _ => { projections with touches := projections.touches.apply layer events }
    | .dependencyIndex, .derived producer _ =>
      { projections with index := foldEdges projections.index layer.branch producer events }
    | .watermarks, .derived producer reflects =>
      { projections with frontier := projections.frontier.advance layer.branch producer reflects }
    | _, .source => projections
  folded.reached member layer.id

/-- Fold one layer into the projections that are behind it, reading its events only where one of them
wants them.  Counts the layers folded. -/
def foldLayer (storage : MemoryStorage) (state : Projections × Nat) (layer : Layer) :
    Except BorgError (Projections × Nat) := do
  let behind := members.filter fun member => state.1.position member < layer.id
  if behind.isEmpty then return state
  let events ← if behind.any fun member => wants member layer then storage.readLayer layer.id else pure []
  return (behind.foldl (fun projections member => projections.apply member layer events) state.1,
    state.2 + 1)

/-- Bring every projection up to the head of the log: the committed layers in id order, which is
replay order across every branch.  Returns how many layers it had to fold. -/
def bringToHead (projections : Projections) (storage : MemoryStorage) (known : List Layer) :
    Except BorgError (Projections × Nat) :=
  ((known.filter fun layer => layer.state = .committed).insertionSort
    fun layer other => layer.id ≤ other.id).foldlM (foldLayer storage) (projections, 0)

/-- The live half of the fold: a layer just committed in this process.  A source layer is read back; what
a derived layer says reached the index from the engine that wrote it. -/
def committed (projections : Projections) (storage : MemoryStorage) (layer : Layer) :
    Except BorgError Projections := do
  let events ← if layer.author.isSource && members.any (fun member => wants member layer) then
      storage.readLayer layer.id
    else pure []
  return members.foldl (fun projections member => projections.apply member layer events) projections

@[simp] theorem position_apply (projections : Projections) (member other : Projection) (layer : Layer)
    (events : List Event) :
    (projections.apply member layer events).position other =
      if other = member then max (projections.position member) layer.id else projections.position other := by
  obtain ⟨id, branch, kind, author, state, parent, guards⟩ := layer
  cases member <;> cases author <;> rfl

end Projections

end BorgCore
