import BorgCore.Engine.Log
import BorgCore.Storage.Steps

/-!
# What the log keeps true

The abstract log is a timeline: at each layer id at most one committed layer, with its branch, its
author and what it holds.  Everything else the log carries, heads, def layers, the touch index and
the read index below it, is a projection of that timeline, and `Sound` says so.  A layer that is not
committed yet is pending, and is no part of it.
-/

namespace BorgCore

/-- A layer as the timeline holds it. -/
structure Commit where
  branch : BranchId
  kind : LayerKind
  author : LayerAuthor
  guards : List Guard
  events : List Event
  defs : List DefEvent
deriving DecidableEq

namespace Commit

/-- Whether a layer is a client's write to a cell, which is what a guard is about. -/
def Touches (commit : Commit) (cell : CellRef) : Prop :=
  commit.author.isSource ∧ ∃ event ∈ commit.events, event.cell = cell

end Commit

namespace Log

def commitAt (log : Log) (id : LayerId) : Option Commit :=
  match log.layers.lookup id with
  | some layer =>
    if layer.state = .committed then
      some ⟨layer.branch, layer.kind, layer.author, layer.guards, log.storage.contents id,
        log.storage.readDefLayer id⟩
    else none
  | none => none

/-- What an open layer would hold if it were committed now, without guards. -/
def pendingAt (log : Log) (id : LayerId) : Option Commit :=
  match log.layers.lookup id, log.storage.staged.lookup id with
  | some layer, some staged =>
    some ⟨layer.branch, layer.kind, layer.author, [], log.storage.stagedContents staged, staged.defs⟩
  | _, _ => none

/-- The branch a layer belongs to, whatever its state. -/
def branchOf (log : Log) (id : LayerId) : Option BranchId := (log.layer id).map Layer.branch

/-- The highest of the layers a property picks. -/
def IsTop (p : LayerId → Prop) (top : LayerId) : Prop := p top ∧ ∀ id, p id → id ≤ top

def CommittedOn (log : Log) (branch : BranchId) (id : LayerId) : Prop :=
  ∃ commit, log.commitAt id = some commit ∧ commit.branch = branch

def SourceOn (log : Log) (branch : BranchId) (id : LayerId) : Prop :=
  ∃ commit, log.commitAt id = some commit ∧ commit.branch = branch ∧ commit.author.isSource

def DefOn (log : Log) (branch : BranchId) (id : LayerId) : Prop :=
  ∃ commit, log.commitAt id = some commit ∧ commit.branch = branch ∧ commit.kind = .defs

/-- A committed layer of a branch in which a client wrote a cell. -/
def TouchedOn (log : Log) (branch : BranchId) (cell : CellRef) (id : LayerId) : Prop :=
  ∃ commit, log.commitAt id = some commit ∧ commit.branch = branch ∧ commit.Touches cell

/-- The projections answer what the timeline says. -/
structure Projected (log : Log) : Prop where
  members_iff : ∀ id branch,
    (∃ membership, log.storage.members.lookup id = some membership ∧ membership.branch = branch) ↔
      log.CommittedOn branch id
  heads_iff : ∀ branch top, log.heads.lookup branch = some top ↔ IsTop (log.CommittedOn branch) top
  defs_iff : ∀ branch id, id ∈ log.defLayers.getD branch [] ↔ log.DefOn branch id
  defs_nodup : ∀ branch, (log.defLayers.getD branch []).Nodup
  touched_iff : ∀ branch cell id,
    id ∈ log.touches.cells.getD (branch, cell) [] ↔ log.TouchedOn branch cell id
  highest_iff : ∀ branch top,
    log.touches.highest.lookup branch = some top ↔ IsTop (log.SourceOn branch) top

/-- What a log keeps true. -/
structure Sound (log : Log) : Prop where
  storage : log.storage.Sound
  projected : log.Projected
  next_pos : 0 < log.nextLayer
  layer_id : ∀ {id layer}, log.layers.lookup id = some layer →
    layer.id = id ∧ 0 < id ∧ id < log.nextLayer
  /-- A layer is opened on a branch that exists, after the branch was forked. -/
  layer_branch : ∀ {id layer}, log.layers.lookup id = some layer →
    ∃ branch, log.branches.lookup layer.branch = some branch ∧
      ∀ origin, branch.origin = some origin → origin < id
  /-- A branch is forked at a layer of an older branch. -/
  branch_id : ∀ {id branch}, log.branches.lookup id = some branch →
    branch.id = id ∧ id < log.nextBranch ∧
      ∀ origin, branch.origin = some origin → ∃ parent, log.branchOf origin = some parent ∧ parent < id
  /-- The staged layers are the open ones. -/
  staged_iff : ∀ {id}, (log.storage.staged.lookup id).isSome ↔
    ∃ layer, log.layers.lookup id = some layer ∧ layer.state = .open
  staged_branch : ∀ {id layer staged}, log.layers.lookup id = some layer →
    log.storage.staged.lookup id = some staged → staged.branch = layer.branch ∧
      staged.isSealed = false
  open_guards : ∀ {id layer}, log.layers.lookup id = some layer → layer.state = .open →
    layer.guards = []
  meta_iff : ∀ {id layer}, log.storage.layerMeta.lookup id = some layer ↔
    log.layers.lookup id = some layer ∧ layer.state = .committed

theorem Projected.congr {log log' : Log} (h : log.Projected)
    (hc : ∀ id, log'.commitAt id = log.commitAt id)
    (hm : log'.storage.members = log.storage.members) (hh : log'.heads = log.heads)
    (hd : log'.defLayers = log.defLayers) (ht : log'.touches = log.touches) : log'.Projected where
  members_iff := by simpa only [hm, CommittedOn, hc] using h.members_iff
  heads_iff := by simpa only [hh, IsTop, CommittedOn, hc] using h.heads_iff
  defs_iff := by simpa only [hd, DefOn, hc] using h.defs_iff
  defs_nodup := by simpa only [hd] using h.defs_nodup
  touched_iff := by simpa only [ht, TouchedOn, hc] using h.touched_iff
  highest_iff := by simpa only [ht, IsTop, SourceOn, hc] using h.highest_iff

theorem projected_new : new.Projected where
  members_iff := by simp [new, MemoryStorage.new, CommittedOn, commitAt]
  heads_iff := by simp [new, IsTop, CommittedOn, commitAt]
  defs_iff := by simp [new, DefOn, commitAt]
  defs_nodup := by simp [new]
  touched_iff := by simp [new, CellTouchIndex.new, TouchedOn, commitAt]
  highest_iff := by simp [new, CellTouchIndex.new, IsTop, SourceOn, commitAt]

theorem sound_new : new.Sound where
  storage := MemoryStorage.sound_new
  projected := projected_new
  next_pos := Nat.one_pos
  layer_id h := by simp [new] at h
  layer_branch h := by simp [new] at h
  branch_id h := by simp [new] at h
  staged_iff := by simp [new, MemoryStorage.new]
  staged_branch h := by simp [new] at h
  open_guards h := by simp [new] at h
  meta_iff := by simp [new, MemoryStorage.new]

variable {log : Log}

/-! ### The timeline -/

theorem commitAt_eq_some {id : LayerId} {commit : Commit} (h : log.commitAt id = some commit) :
    ∃ layer, log.layers.lookup id = some layer ∧ layer.state = .committed ∧
      commit.branch = layer.branch ∧ commit.kind = layer.kind ∧ commit.author = layer.author ∧
        commit.guards = layer.guards ∧ commit.events = log.storage.contents id ∧
          commit.defs = log.storage.readDefLayer id := by
  unfold commitAt at h
  split at h
  · rename_i layer hl
    split at h
    · cases h
      exact ⟨layer, hl, by assumption, rfl, rfl, rfl, rfl, rfl, rfl⟩
    · cases h
  · cases h

theorem commitAt_of_committed {id : LayerId} {layer : Layer} (hl : log.layers.lookup id = some layer)
    (hs : layer.state = .committed) :
    log.commitAt id = some ⟨layer.branch, layer.kind, layer.author, layer.guards,
      log.storage.contents id, log.storage.readDefLayer id⟩ := by
  simp [commitAt, hl, hs]

theorem commitAt_of_open {id : LayerId} {layer : Layer} (hl : log.layers.lookup id = some layer)
    (hs : layer.state = .open) : log.commitAt id = none := by
  simp [commitAt, hl, hs]

theorem pendingAt_of {id : LayerId} {layer : Layer} {staged : StagedLayer}
    (hl : log.layers.lookup id = some layer) (hs : log.storage.staged.lookup id = some staged) :
    log.pendingAt id = some ⟨layer.branch, layer.kind, layer.author, [],
      log.storage.stagedContents staged, staged.defs⟩ := by
  simp [pendingAt, hl, hs]

theorem Sound.commitAt_lt (h : log.Sound) {id : LayerId} {commit : Commit}
    (hc : log.commitAt id = some commit) : 0 < id ∧ id < log.nextLayer := by
  obtain ⟨layer, hl, _⟩ := commitAt_eq_some hc
  exact (h.layer_id hl).2

theorem Sound.commitAt_next (h : log.Sound) {id : LayerId} (hid : log.nextLayer ≤ id) :
    log.commitAt id = none := by
  rcases hc : log.commitAt id with _ | commit
  · rfl
  · have := (h.commitAt_lt hc).2
    lia

theorem Sound.layer_next (h : log.Sound) {id : LayerId} (hid : log.nextLayer ≤ id) :
    log.layers.lookup id = none := by
  rcases hl : log.layers.lookup id with _ | layer
  · rfl
  · have := (h.layer_id hl).2.2
    lia

/-- A branch's committed layers are above its fork point. -/
theorem Sound.origin_lt (h : log.Sound) {id : LayerId} {branch : BranchId} {found : Branch}
    {origin : LayerId} (hc : log.CommittedOn branch id) (hb : log.branches.lookup branch = some found)
    (ho : found.origin = some origin) : origin < id := by
  obtain ⟨commit, hc, rfl⟩ := hc
  obtain ⟨layer, hl, _, hbr, _⟩ := commitAt_eq_some hc
  obtain ⟨found', hf, hlt⟩ := h.layer_branch hl
  rw [hbr, hf] at hb
  cases hb
  exact hlt origin ho

theorem Sound.recordAt_eq (h : log.Sound) (branch : BranchId) (cell : CellRef) (version : DefVersion)
    (id : LayerId) :
    log.storage.recordAt branch cell version id =
      (log.commitAt id).bind fun commit =>
        if commit.branch = branch then lastOf cell version commit.events else none := by
  unfold MemoryStorage.recordAt
  rcases hm : log.storage.members.lookup id with _ | membership
  · rcases hc : log.commitAt id with _ | commit
    · rfl
    · obtain ⟨m, hm', _⟩ := (h.projected.members_iff _ _).2 ⟨commit, hc, rfl⟩
      rw [hm] at hm'
      cases hm'
  · obtain ⟨commit, hc, hb⟩ := (h.projected.members_iff _ _).1 ⟨membership, hm, rfl⟩
    obtain ⟨layer, _, _, _, _, _, _, he, _⟩ := commitAt_eq_some hc
    rw [hc, Option.bind_some, hb, he]

/-! ### Handles -/

/-- A handle to an open layer, with whatever guards its owner has put on it. -/
def Owns (log : Log) (handle : LayerHandle) : Prop :=
  ∃ layer, log.layers.lookup handle.id = some layer ∧ layer.state = .open ∧
    handle.layer = { layer with guards := handle.layer.guards }

theorem Sound.staged_of_owns (h : log.Sound) {handle : LayerHandle} (ho : log.Owns handle) :
    ∃ staged, log.storage.staged.lookup handle.id = some staged ∧
      staged.branch = handle.layer.branch ∧ staged.isSealed = false := by
  obtain ⟨layer, hl, hs, he⟩ := ho
  obtain ⟨staged, hst⟩ := Option.isSome_iff_exists.1 (h.staged_iff.2 ⟨layer, hl, hs⟩)
  obtain ⟨hb, hf⟩ := h.staged_branch hl hst
  refine ⟨staged, hst, ?_, hf⟩
  rw [hb, he]

end Log

end BorgCore
