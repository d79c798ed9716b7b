import BorgCore.Engine.Log

/-!
# The range a round settles

Work is discovered, never queued: the layers of a branch between a producer's watermark and the head
are what remains to do.  The range stops at a source layer that may still commit, and passes over one
that never will.
-/

namespace BorgCore

/-- The layers a round would settle, where it forks, and the source position it stands at. -/
structure Span where
  layers : List LayerId
  reflects : LayerId
  forkAt : LayerId
deriving DecidableEq

/-- What a walk over a range has gathered. -/
structure Gathered where
  layers : List LayerId
  forkAt : Option LayerId
  topSource : Option LayerId
  hasWork : Bool
deriving DecidableEq

namespace Log

/-- One layer of the range; `none` where the range stops. -/
def gatherLayer (since : LayerId) (layer : Layer) (found : Gathered) : Option Gathered :=
  match layer.author with
  | .source =>
    match layer.state with
    | .committed => some ⟨found.layers ++ [layer.id], some layer.id, some layer.id, true⟩
    | .aborted => some found
    | .open | .sealed => none
  | .derived _ reflects =>
    if layer.state ≠ .committed then some found
    else some { found with
      layers := found.layers ++ [layer.id]
      forkAt := some layer.id
      hasWork := found.hasWork || decide (since < reflects) }

def gather (log : Log) (branch : BranchId) (since : LayerId) : List LayerId → Gathered → Gathered
  | [], found => found
  | id :: rest, found =>
    match log.layer id with
    | none => log.gather branch since rest found
    | some layer =>
      if layer.branch ≠ branch then log.gather branch since rest found
      else
        match gatherLayer since layer found with
        | none => found
        | some next => log.gather branch since rest next

/-- Everything on a branch above a watermark, up to head.  Where every layer of the range is derived,
the source position is an ancestor's. -/
def span (log : Log) (branch : BranchId) (since : LayerId) : Option Span := do
  let head ← log.head branch
  let found := log.gather branch since (List.range' (since + 1) (head - since)) ⟨[], none, none, false⟩
  let forkAt ← if found.hasWork then found.forkAt else none
  let reflects ← found.topSource <|> log.highestSourceLayer (log.readPath branch (some forkAt))
  return ⟨found.layers, reflects, forkAt⟩

variable {log : Log} {branch : BranchId} {since id : LayerId} {layer : Layer}

/-- A layer that will never commit is passed over. -/
theorem gather_aborted (hl : log.layer id = some layer) (hs : layer.state = .aborted)
    (rest : List LayerId) (found : Gathered) :
    log.gather branch since (id :: rest) found = log.gather branch since rest found := by
  have hpass : gatherLayer since layer found = some found := by
    unfold gatherLayer
    cases layer.author <;> simp [hs]
  simp only [gather, hl, hpass]
  split <;> rfl

/-- A source layer that is still sealed is as far as a range goes. -/
theorem gather_sealed (hl : log.layer id = some layer) (hb : layer.branch = branch)
    (ha : layer.author = .source) (hs : layer.state = .sealed) (rest : List LayerId)
    (found : Gathered) : log.gather branch since (id :: rest) found = found := by
  have hstop : gatherLayer since layer found = none := by
    simp [gatherLayer, ha, hs]
  simp [gather, hl, hb, hstop]

end Log

end BorgCore
