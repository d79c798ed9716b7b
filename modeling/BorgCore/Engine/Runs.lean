import Mathlib.Logic.Relation
import BorgCore.Engine.Branch
import BorgCore.Engine.Steps

/-!
# Runs of the log

A run is any order of calls: roots and forks, layers opened, written, guarded, committed and aborted,
on any branches.  A layer is opened on a branch that exists and written by whoever holds its handle;
the guards a handle has gathered are arbitrary.

`Move` says once what a call can do to a log, and every invariant is derived from it: `Sound` survives
a run, and a run only adds: what is committed, and where a branch was forked, never changes.
-/

namespace BorgCore

namespace Log

variable {log log' log'' : Log}

/-! ### Branches -/

def branched (log : Log) (name : Option String) (origin : Option LayerId) : Log :=
  { log with
    nextBranch := log.nextBranch + 1
    branches := log.branches.insert log.nextBranch ⟨log.nextBranch, name, origin⟩
    storage := { log.storage with
      branches := log.storage.branches.insert log.nextBranch ⟨log.nextBranch, name, origin⟩ } }

/-- The counter never names a branch that is in use. -/
theorem Sound.unusedFrom (h : log.Sound) (fuel : Nat) :
    log.unusedFrom fuel log.nextBranch = log.nextBranch := by
  have hbranch : log.branches.lookup log.nextBranch = none := by
    rcases hb : log.branches.lookup log.nextBranch with _ | found
    · rfl
    · exact absurd (h.branch_id hb).2.1 (Nat.lt_irrefl _)
  have hhead : log.heads.lookup log.nextBranch = none := by
    rcases hh : log.heads.lookup log.nextBranch with _ | top
    · rfl
    · obtain ⟨commit, hc, hbr⟩ := ((h.projected.heads_iff _ _).1 hh).1
      obtain ⟨layer, hl, _, hb, _⟩ := commitAt_eq_some hc
      obtain ⟨found, hf, _⟩ := h.layer_branch hl
      rw [← hb, hbr, hbranch] at hf
      cases hf
  cases fuel with
  | zero => rfl
  | succ fuel => simp [Log.unusedFrom, branch, head, hbranch, hhead]

theorem createRoot_run (h : log.Sound) (name : Option String) :
    createRoot name log = .ok log.nextBranch (log.branched name none) := by
  have hfresh : freshBranch log = .ok log.nextBranch { log with nextBranch := log.nextBranch + 1 } := by
    simp only [freshBranch, h.unusedFrom]
  rw [createRoot, Calls.bind_ok hfresh]
  rfl

/-- A fork succeeds at any layer of the parent, whatever its state. -/
theorem fork_run (h : log.Sound) {parent : BranchId} {origin : LayerId}
    (hp : log.branchOf origin = some parent) (name : Option String) :
    fork parent origin name log = .ok log.nextBranch (log.branched name (some origin)) := by
  have hfresh : freshBranch log = .ok log.nextBranch { log with nextBranch := log.nextBranch + 1 } := by
    simp only [freshBranch, h.unusedFrom]
  obtain ⟨layer, hl, hb⟩ := Option.map_eq_some_iff.1 hp
  rw [fork, Calls.bind_ok Calls.get_run, hl]
  simp only [hb, ne_eq, not_true_eq_false, if_false]
  rw [Calls.bind_ok hfresh]
  rfl

theorem fork_error {parent : BranchId} {origin : LayerId} (hp : log.branchOf origin ≠ some parent)
    (name : Option String) : ∃ err, fork parent origin name log = .error err log := by
  rw [fork, Calls.bind_ok Calls.get_run]
  cases hl : log.layer origin with
  | none => exact ⟨_, rfl⟩
  | some layer =>
    have hb : layer.branch ≠ parent := fun hb => hp (by simp [branchOf, hl, hb])
    simp only [hb, ne_eq, not_false_eq_true, if_true]
    exact ⟨_, rfl⟩

theorem Sound.branched (h : log.Sound) (name : Option String) (origin : Option LayerId)
    (ho : ∀ id, origin = some id → ∃ parent, log.branchOf id = some parent) :
    (log.branched name origin).Sound where
  storage := h.storage.congr rfl rfl rfl rfl rfl
  projected := h.projected.congr (fun _ => rfl) rfl rfl rfl rfl
  next_pos := h.next_pos
  layer_id := h.layer_id
  layer_branch {id layer} hl := by
    obtain ⟨found, hf, hlt⟩ := h.layer_branch hl
    refine ⟨found, ?_, hlt⟩
    have hne : layer.branch ≠ log.nextBranch := Nat.ne_of_lt (h.branch_id hf).2.1
    simp [Log.branched, hne, hf]
  branch_id {id found} hf := by
    simp only [Log.branched, AssocMap.lookup_insert_eq] at hf
    split at hf
    · cases hf
      subst id
      refine ⟨rfl, Nat.lt_succ_self _, fun id hid => ?_⟩
      obtain ⟨parent, hp⟩ := ho id hid
      obtain ⟨layer, hl, hb⟩ := Option.map_eq_some_iff.1 hp
      obtain ⟨other, hother, _⟩ := h.layer_branch hl
      exact ⟨parent, hp, hb ▸ (h.branch_id hother).2.1⟩
    · obtain ⟨h₁, h₂, h₃⟩ := h.branch_id hf
      exact ⟨h₁, Nat.lt_succ_of_lt h₂, h₃⟩
  staged_iff := h.staged_iff
  staged_branch := h.staged_branch
  open_guards := h.open_guards
  meta_iff := h.meta_iff

/-! ### Steps -/

inductive Step (log : Log) : Log → Prop where
  | createRoot (name : Option String) : Step log (after (createRoot name log))
  | fork (parent : BranchId) (origin : LayerId) (name : Option String) :
      Step log (after (fork parent origin name log))
  | openLayer (branch : BranchId) (kind : LayerKind) (author : LayerAuthor)
      (hb : (log.branches.lookup branch).isSome) : Step log (after (openLayer branch kind author log))
  | put (handle : LayerHandle) (cell : CellRef) (draft : EventDraft) (ho : log.Owns handle) :
      Step log (after (put handle cell draft log))
  | includeEvent (handle : LayerHandle) (event : EventId) (ho : log.Owns handle) :
      Step log (after (includeEvent handle event log))
  | putDef (handle : LayerHandle) (event : DefEvent) (ho : log.Owns handle) :
      Step log (after (putDef handle event log))
  | commit (handle : LayerHandle) (ho : log.Owns handle) : Step log (after (commit handle log))
  | abort (handle : LayerHandle) (ho : log.Owns handle) : Step log (after (abort handle log))

/-- A run: any number of calls, in any order. -/
abbrev Steps : Log → Log → Prop := Relation.ReflTransGen Step

/-- What a call can do to a sound log. -/
inductive Move (log : Log) : Log → Prop where
  | stay : Move log log
  | branched (name : Option String) (origin : Option LayerId)
      (ho : ∀ id, origin = some id → ∃ parent, log.branchOf id = some parent) :
      Move log (log.branched name origin)
  | opened (branch : BranchId) (kind : LayerKind) (author : LayerAuthor)
      (hb : (log.branches.lookup branch).isSome) : Move log (log.opened branch kind author)
  | restaged {handle : LayerHandle} {staged staged' : StagedLayer} {next : EventId}
      (ho : log.Owns handle) (hs : log.storage.staged.lookup handle.id = some staged)
      (hstore : (log.restaged handle.id staged' next).storage.Sound)
      (hb : staged'.branch = staged.branch) (hf : staged'.isSealed = staged.isSealed) :
      Move log (log.restaged handle.id staged' next)
  | discarded {handle : LayerHandle} (ho : log.Owns handle) : Move log (log.discarded handle.layer)
  | landing {handle : LayerHandle} {staged : StagedLayer} (ho : log.Owns handle)
      (hs : log.storage.staged.lookup handle.id = some staged) :
      Move log (log.landing handle.layer staged)

theorem Move.includeEvent (h : log.Sound) {handle : LayerHandle} (ho : log.Owns handle)
    (event : EventId) : Move log (after (includeEvent handle event log)) := by
  obtain ⟨staged, hs, _, hf⟩ := h.staged_of_owns ho
  rcases he : log.storage.events.lookup event with _ | found
  · have : Log.includeEvent handle event log =
        .error (.storage s!"unknown event e{event}") log := by
      simp only [Log.includeEvent, store, MemoryStorage.includeEvent, he]
    rw [this]
    exact .stay
  · rw [includeEvent_run (by rw [he]; rfl) hs hf]
    refine .restaged ho hs (h.storage.insert_same hs rfl fun id hid => ?_) rfl rfl
    rcases List.mem_append.1 hid with hid | hid
    · exact Or.inl hid
    · rw [List.mem_singleton.1 hid, he]
      exact Or.inr rfl

theorem Move.putDef (h : log.Sound) {handle : LayerHandle} (ho : log.Owns handle)
    (event : DefEvent) : Move log (after (putDef handle event log)) := by
  obtain ⟨staged, hs, _, hf⟩ := h.staged_of_owns ho
  by_cases hk : handle.layer.kind = .value
  · have : Log.putDef handle event log = .error .mixedLayerKind log := by
      simp [Log.putDef, hk]
    rw [this]
    exact .stay
  · rw [putDef_run event hk hs hf]
    exact .restaged ho hs (h.storage.insert_same hs rfl fun id hid => Or.inl hid) rfl rfl

/-- **Every call is one of the moves.** -/
theorem Step.move (h : log.Sound) (hs : Step log log') : Move log log' := by
  cases hs with
  | createRoot name =>
    rw [createRoot_run h]
    exact .branched name none fun id hid => by cases hid
  | fork parent origin name =>
    by_cases hp : log.branchOf origin = some parent
    · rw [fork_run h hp]
      exact .branched name (some origin) fun id hid => ⟨parent, by cases hid; exact hp⟩
    · obtain ⟨err, he⟩ := fork_error hp name
      rw [he]
      exact .stay
  | openLayer branch kind author hb =>
    rw [openLayer_run branch kind author h]
    exact .opened branch kind author hb
  | put handle cell draft ho =>
    obtain ⟨staged, hs, _, hf⟩ := h.staged_of_owns ho
    rw [put_run cell draft hs hf]
    exact .restaged ho hs (h.storage.author cell draft hs) rfl rfl
  | includeEvent handle event ho => exact .includeEvent h ho event
  | putDef handle event ho => exact .putDef h ho event
  | commit handle ho =>
    obtain ⟨staged, hs, _, _⟩ := h.staged_of_owns ho
    rw [commit_run h ho hs]
    split
    · exact .landing ho hs
    · exact .discarded ho
  | abort handle ho =>
    rw [abort_run h ho]
    exact .discarded ho

theorem Move.sound (h : log.Sound) (hm : Move log log') : log'.Sound := by
  cases hm with
  | stay => exact h
  | branched name origin ho => exact h.branched name origin ho
  | opened branch kind author hb => exact h.opened branch kind author hb
  | restaged ho hs hstore hb hf => exact h.restaged hstore hs hb hf
  | discarded ho => exact h.discarded ho
  | landing ho hs => exact h.landing ho hs

/-- **A run keeps a log sound.** -/
theorem Steps.sound (h : log.Sound) (hs : Steps log log') : log'.Sound := by
  induction hs with
  | refl => exact h
  | tail _ hstep ih => exact (hstep.move ih).sound ih

/-! ### A run only adds -/

/-- What a later log still says. -/
structure Grows (log log' : Log) : Prop where
  next : log.nextLayer ≤ log'.nextLayer
  commits : ∀ {id commit}, log.commitAt id = some commit → log'.commitAt id = some commit
  branchOf : ∀ {id branch}, log.branchOf id = some branch → log'.branchOf id = some branch
  branches : ∀ {id branch}, log.branches.lookup id = some branch →
    log'.branches.lookup id = some branch

theorem Grows.refl (log : Log) : Grows log log := ⟨le_refl _, id, id, id⟩

theorem Grows.trans (h : Grows log log') (h' : Grows log' log'') : Grows log log'' :=
  ⟨h.next.trans h'.next, fun hc => h'.commits (h.commits hc), fun hb => h'.branchOf (h.branchOf hb),
    fun hb => h'.branches (h.branches hb)⟩

theorem Grows.registered (h : Grows log log') {branch : BranchId}
    (hb : (log.branches.lookup branch).isSome) : (log'.branches.lookup branch).isSome := by
  obtain ⟨found, hf⟩ := Option.isSome_iff_exists.1 hb
  rw [h.branches hf]
  rfl

theorem Move.grows (h : log.Sound) (hm : Move log log') : Grows log log' := by
  cases hm with
  | stay => exact .refl log
  | branched name origin ho =>
    refine ⟨le_refl _, id, id, fun {id branch} hb => ?_⟩
    have hne : id ≠ log.nextBranch := Nat.ne_of_lt (h.branch_id hb).2.1
    simp [Log.branched, hne, hb]
  | opened branch kind author hb =>
    refine ⟨Nat.le_succ _, ?_, ?_, id⟩
    · intro id commit hc
      rw [commitAt_opened branch kind author h, hc]
    · intro id found hf
      obtain ⟨layer, hl, _⟩ := Option.map_eq_some_iff.1 hf
      have hne : id ≠ log.nextLayer := Nat.ne_of_lt (h.layer_id hl).2.2
      rw [branchOf_opened, if_neg hne, hf]
  | restaged => exact ⟨le_refl _, id, id, id⟩
  | discarded ho =>
    refine ⟨le_refl _, fun {id commit} hc => ?_, fun {id found} hf => ?_, id⟩
    · rw [commitAt_discarded h ho, hc]
    · rw [branchOf_discarded h ho, hf]
  | @landing handle staged ho hs =>
    refine ⟨le_refl _, fun {id commit} hc => ?_, fun {id found} hf => ?_, id⟩
    · have hne : id ≠ handle.id := by
        rintro rfl
        obtain ⟨hl, hst⟩ := h.stored_of_owns ho
        rw [commitAt_of_open hl hst] at hc
        cases hc
      rw [commitAt_landing h.storage hs, if_neg hne, hc]
    · rw [branchOf_landing h ho, hf]

theorem Steps.grows (h : log.Sound) (hs : Steps log log') : Grows log log' := by
  induction hs with
  | refl => exact .refl log
  | tail hs hstep ih =>
    have hsound := Steps.sound h hs
    exact ih.trans ((hstep.move hsound).grows hsound)

def Reachable (log : Log) : Prop := Steps new log

theorem Reachable.sound (h : log.Reachable) : log.Sound := Steps.sound sound_new h

end Log

end BorgCore
