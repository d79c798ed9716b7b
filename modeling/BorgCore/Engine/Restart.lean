import BorgCore.Engine.Anchors
import BorgCore.Engine.Refusals
import BorgCore.Engine.Reopen

/-!
# Stopping and starting again

What a process held open goes with it, and the next one opens the store it left.  A log that lasts is
one a stop takes nothing from: its timeline and its branches are in the store, and every branch is
forked at a layer that has committed.
-/

namespace BorgCore

/-- What a stop leaves of a store: what was still staged goes with the process. -/
def MemoryStorage.dropped (store : MemoryStorage) : MemoryStorage := { store with staged := ∅ }

theorem MemoryStorage.Sound.dropped {store : MemoryStorage} (h : store.Sound) :
    store.dropped.Sound where
  event_id := h.event_id
  authored hl := by simp [MemoryStorage.dropped] at hl
  authored_inj hl := by simp [MemoryStorage.dropped] at hl
  staged_members hl := by simp [MemoryStorage.dropped] at hl
  stored := h.stored
  apart hl := by simp [MemoryStorage.dropped] at hl
  indexed := h.indexed

namespace Log

variable {log log' log'' : Log} {branch parent : BranchId} {since : LayerId}

/-- The log the next process opens. -/
def Restarted (log log' : Log) : Prop :=
  ∃ known branches, known.Perm log.storage.layerMeta.values ∧
    branches.Perm log.storage.branches.values ∧
    reopen log.storage.dropped known branches = .ok log'

/-- A log a stop takes nothing from. -/
structure Lasting (log : Log) : Prop where
  sound : log.Sound
  sorted : log.Sorted
  stored : ∀ id, log.storage.branches.lookup id = log.branches.lookup id
  rooted : ∀ {id branch origin}, log.branches.lookup id = some branch → branch.origin = some origin →
    ∃ commit, log.commitAt origin = some commit

theorem lasting_new : new.Lasting where
  sound := sound_new
  sorted := sorted_new
  stored _ := rfl
  rooted h := by simp [new] at h

/-! ### What lasts -/

/-- What a later log has of an earlier one, a stop between them or not. -/
structure Persists (log log' : Log) : Prop where
  commits : ∀ {id commit}, log.commitAt id = some commit → log'.commitAt id = some commit
  branches : ∀ {id branch}, log.branches.lookup id = some branch →
    log'.branches.lookup id = some branch

theorem Persists.refl (log : Log) : Persists log log := ⟨id, id⟩

theorem Persists.trans (h : Persists log log') (h' : Persists log' log'') : Persists log log'' :=
  ⟨fun hc => h'.commits (h.commits hc), fun hb => h'.branches (h.branches hb)⟩

theorem Grows.persists (h : Grows log log') : Persists log log' := ⟨h.commits, h.branches⟩

theorem Persists.registered (h : Persists log log') (hb : (log.branches.lookup branch).isSome) :
    (log'.branches.lookup branch).isSome := by
  obtain ⟨found, hf⟩ := Option.isSome_iff_exists.1 hb
  rw [h.branches hf]
  rfl

theorem commitAt_branchOf {id : LayerId} {commit : Commit} (hc : log.commitAt id = some commit) :
    log.branchOf id = some commit.branch := by
  obtain ⟨layer, hl, _, hb, _⟩ := commitAt_eq_some hc
  rw [branchOf, Log.layer, hl, hb]
  rfl

theorem Persists.outward (h : Persists log log') (hl : log.Lasting)
    (hb : (log.branches.lookup branch).isSome) : log'.outward branch = log.outward branch := by
  obtain ⟨found, hf⟩ := Option.isSome_iff_exists.1 hb
  cases ho : found.origin with
  | none => simp [Log.outward, Log.branch, hf, h.branches hf, ho]
  | some origin =>
    obtain ⟨commit, hc⟩ := hl.rooted hf ho
    rw [outward_of hf ho (commitAt_branchOf hc),
      outward_of (h.branches hf) ho (commitAt_branchOf (h.commits hc))]

theorem Anchored.persists (ha : log.Anchored branch parent since) (h : Persists log log')
    (hl : log.Lasting) : log'.Anchored branch parent since := by
  obtain ⟨⟨hb, hp⟩, owner, ho, howner⟩ := ha
  refine ⟨⟨h.registered hb, h.registered hp⟩, owner, by rw [h.outward hl hb, ho], ?_⟩
  rw [h.outward hl hp]
  exact howner

/-! ### A run of a log that lasts -/

theorem Step.stored (h : log.Sound) (hs : Step log log')
    (hb : ∀ id, log.storage.branches.lookup id = log.branches.lookup id) (id : BranchId) :
    log'.storage.branches.lookup id = log'.branches.lookup id := by
  cases hs.move h with
  | stay => exact hb id
  | branched name origin ho =>
    simp only [branched, AssocMap.lookup_insert_eq, hb]
  | opened => exact hb id
  | restaged => exact hb id
  | discarded => exact hb id
  | landing => exact hb id

/-- A run lasts where every branch it forks is forked at a layer that has committed. -/
theorem Lasting.steps (h : log.Lasting) (hs : Steps log log')
    (hrooted : ∀ {id branch origin}, log'.branches.lookup id = some branch →
      branch.origin = some origin → ∃ commit, log'.commitAt origin = some commit) :
    log'.Lasting := by
  suffices hkept : log'.Sorted ∧ ∀ id, log'.storage.branches.lookup id = log'.branches.lookup id from
    ⟨Steps.sound h.sound hs, hkept.1, hkept.2, hrooted⟩
  clear hrooted
  induction hs with
  | refl => exact ⟨h.sorted, h.stored⟩
  | tail hs hstep ih =>
    have hsound := Steps.sound h.sound hs
    exact ⟨ih.1.step hsound hstep, hstep.stored hsound ih.2⟩

theorem Lasting.steps_same (h : log.Lasting) (hs : Steps log log')
    (hb : log'.branches = log.branches) : log'.Lasting := by
  refine h.steps hs fun hf ho => ?_
  rw [hb] at hf
  obtain ⟨commit, hc⟩ := h.rooted hf ho
  exact ⟨commit, (Steps.grows h.sound hs).commits hc⟩

/-- What the engine does of its own accord: it commits derived layers only, and forks only at layers
that have committed. -/
def Derives (call : LogM Unit) : Prop :=
  ∀ log : Log, log.Lasting → Steps log (after (call log)) ∧ (after (call log)).Lasting ∧
    ∀ id commit, (after (call log)).commitAt id = some commit → commit.author.isSource →
      log.commitAt id = some commit

theorem derives_pure : Derives (pure ()) := fun _ h => ⟨.refl, h, fun _ _ hc _ => hc⟩

/-! ### A stop -/

/-- What is left of a log is what its store can tell: the committed layers. -/
def bare (log : Log) : Log :=
  { log with storage := log.storage.dropped, layers := log.storage.layerMeta }

theorem Sound.commitAt_bare (h : log.Sound) (id : LayerId) : log.bare.commitAt id = log.commitAt id := by
  unfold commitAt bare
  cases hm : log.storage.layerMeta.lookup id with
  | some layer =>
    obtain ⟨hl, hs⟩ := h.meta_iff.1 hm
    simp only [hl]
    rfl
  | none =>
    simp only
    cases hl : log.layers.lookup id with
    | none => rfl
    | some layer =>
      have hs : layer.state ≠ .committed := by
        intro hs
        rw [h.meta_iff.2 ⟨hl, hs⟩] at hm
        cases hm
      simp only [if_neg hs]

theorem Lasting.bare (h : log.Lasting) : log.bare.Sound where
  storage := h.sound.storage.dropped
  projected := h.sound.projected.congr h.sound.commitAt_bare rfl rfl rfl rfl
  next_pos := h.sound.next_pos
  layer_id hl := h.sound.layer_id (h.sound.meta_iff.1 hl).1
  layer_branch hl := h.sound.layer_branch (h.sound.meta_iff.1 hl).1
  branch_id {id branch} hb := by
    obtain ⟨hid, hlt, horigin⟩ := h.sound.branch_id hb
    refine ⟨hid, hlt, fun origin ho => ?_⟩
    obtain ⟨parent, hp, hlt⟩ := horigin origin ho
    obtain ⟨commit, hc⟩ := h.rooted hb ho
    refine ⟨parent, ?_, hlt⟩
    rw [← hp, commitAt_branchOf hc]
    exact commitAt_branchOf (by rw [h.sound.commitAt_bare, hc])
  staged_iff {id} := by
    simp only [Log.bare, MemoryStorage.dropped, AssocMap.lookup_empty, Option.isSome_none,
      Bool.false_eq_true, false_iff]
    rintro ⟨layer, hl, hs⟩
    rw [(h.sound.meta_iff.1 hl).2] at hs
    cases hs
  staged_branch _ hst := by simp [Log.bare, MemoryStorage.dropped] at hst
  open_guards hl hs := by
    rw [(h.sound.meta_iff.1 hl).2] at hs
    cases hs
  meta_iff {id layer} := by
    show log.storage.layerMeta.lookup id = some layer ↔
      log.storage.layerMeta.lookup id = some layer ∧ layer.state = .committed
    exact ⟨fun hl => ⟨hl, (h.sound.meta_iff.1 hl).2⟩, And.left⟩

theorem le_foldl_max (ns : List Nat) (n : Nat) :
    n ≤ ns.foldl max n ∧ ∀ m ∈ ns, m ≤ ns.foldl max n := by
  induction ns generalizing n with
  | nil => exact ⟨le_refl n, fun m hm => by cases hm⟩
  | cons head rest ih =>
    rw [List.foldl_cons]
    obtain ⟨hn, hrest⟩ := ih (max n head)
    refine ⟨le_trans (le_max_left n head) hn, fun m hm => ?_⟩
    rcases List.mem_cons.1 hm with rfl | hm
    · exact le_trans (le_max_right n m) hn
    · exact hrest m hm

theorem le_max?_getD {ns : List Nat} {n : Nat} (hn : n ∈ ns) : n ≤ (ns.max?).getD 0 := by
  cases hm : ns.max? with
  | none => simp [List.max?_eq_none_iff.1 hm] at hn
  | some top => exact (List.max?_eq_some_iff.1 hm).2 n hn

/-- A store that was stopped opens again. -/
theorem Lasting.exists_restarted (h : log.Lasting) : ∃ log', log.Restarted log' := by
  obtain ⟨reopened, hrun, _⟩ := h.bare.reopen_run (List.Perm.refl _) log.storage.branches.values
  exact ⟨reopened, _, _, List.Perm.refl _, List.Perm.refl _, hrun⟩

/-- The branches of the store are those of the log, each under its own id. -/
theorem Lasting.stored_branches (h : log.Lasting) {branches : List Branch}
    (hb : branches.Perm log.storage.branches.values) : (branches.map Branch.id).Nodup ∧
      ∀ branch, branch ∈ branches ↔ log.branches.lookup branch.id = some branch := by
  have hkey {id : BranchId} {branch : Branch} (hb : log.storage.branches.lookup id = some branch) :
      branch.id = id := (h.sound.branch_id ((h.stored id).symm.trans hb)).1
  constructor
  · refine ((hb.map Branch.id).nodup_iff).2 ?_
    rw [AssocMap.map_values hkey]
    exact AList.keys_nodup _
  · intro branch
    rw [hb.mem_iff, AssocMap.mem_values, ← h.stored]
    constructor
    · rintro ⟨id, hl⟩
      rwa [hkey hl]
    · exact fun hl => ⟨branch.id, hl⟩

theorem Lasting.reopened_branches (h : log.Lasting) {known : List Layer} {branches : List Branch}
    (hb : branches.Perm log.storage.branches.values) {bare : Log} (hr : bare.Reopened known branches log')
    (id : BranchId) : log'.branches.lookup id = log.branches.lookup id := by
  obtain ⟨hnodup, hmem⟩ := h.stored_branches hb
  refine Option.ext fun branch => ?_
  rw [hr.branches_eq, AssocMap.lookup_foldl_insert hnodup, hmem]
  simp only [AssocMap.lookup_empty, reduceCtorEq, and_false, or_false]
  constructor
  · rintro ⟨hl, rfl⟩
    exact hl
  · intro hl
    have hid := (h.sound.branch_id hl).1
    exact ⟨by rw [hid, hl], hid⟩

/-- **A stop takes nothing from a log that lasts**, and the log that is opened then lasts as well. -/
theorem Lasting.restarted (h : log.Lasting) (hr : log.Restarted log') :
    log'.Lasting ∧ (∀ id, log'.commitAt id = log.commitAt id) ∧
      ∀ id, log'.branches.lookup id = log.branches.lookup id := by
  obtain ⟨known, branches, hk, hb, hrun⟩ := hr
  obtain ⟨reopened, hrun', hreopened⟩ := h.bare.reopen_run hk branches
  have heq : (.ok log' : Except BorgError Log) = .ok reopened := hrun.symm.trans hrun'
  cases heq
  have hc (id : LayerId) : log'.commitAt id = log.commitAt id :=
    (hreopened.commits id).trans (h.sound.commitAt_bare id)
  have hlayers {id : LayerId} {layer : Layer} (hl : log'.layers.lookup id = some layer) :
      log.storage.layerMeta.lookup id = some layer := (hreopened.layers_iff.1 hl).1
  obtain ⟨_, hmem⟩ := h.stored_branches hb
  have hbranches := h.reopened_branches hb hreopened
  have hstaged (id : LayerId) : log'.storage.staged.lookup id = none := by
    rw [hreopened.storage]
    exact AssocMap.lookup_empty id
  have hopen {id : LayerId} {layer : Layer} (hl : log'.layers.lookup id = some layer) :
      layer.state = .committed := (hreopened.layers_iff.1 hl).2
  refine ⟨⟨⟨?_, hreopened.projected, ?_, ?_, ?_, ?_, ?_, ?_, ?_, ?_⟩, ⟨?_, ?_⟩, ?_, ?_⟩, hc, hbranches⟩
  · rw [hreopened.storage]
    exact h.sound.storage.dropped
  · rw [hreopened.nextLayer_eq]
    exact Nat.succ_pos _
  · intro id layer hl
    obtain ⟨hid, hpos, _⟩ := h.bare.layer_id (hlayers hl)
    have hin : id ∈ known.map Layer.id := by
      refine List.mem_map.2 ⟨layer, (h.bare.mem_known hk).2 ⟨?_, hopen hl⟩, hid⟩
      rw [hid]
      exact hlayers hl
    rw [hreopened.nextLayer_eq]
    exact ⟨hid, hpos, Nat.lt_succ_of_le (le_max?_getD hin)⟩
  · intro id layer hl
    obtain ⟨branch, hf, hlt⟩ := h.bare.layer_branch (hlayers hl)
    exact ⟨branch, (hbranches _).trans hf, hlt⟩
  · intro id branch hf
    rw [hbranches] at hf
    obtain ⟨hid, _, horigin⟩ := h.sound.branch_id hf
    have hin : branch.id + 1 ∈ branches.map fun branch => branch.id + 1 :=
      List.mem_map.2 ⟨branch, (hmem branch).2 (by rw [hid, hf]), rfl⟩
    rw [hreopened.nextBranch_eq]
    refine ⟨hid, ?_, fun origin ho => ?_⟩
    · rw [← hid]
      exact (le_foldl_max _ _).2 _ hin
    · obtain ⟨parent, hp, hlt⟩ := horigin origin ho
      obtain ⟨commit, hcommit⟩ := h.rooted hf ho
      rw [commitAt_branchOf hcommit] at hp
      exact ⟨parent, (commitAt_branchOf ((hc origin).trans hcommit)).trans hp, hlt⟩
  · intro id
    rw [hstaged]
    refine ⟨nofun, ?_⟩
    rintro ⟨layer, hl, hs⟩
    rw [hopen hl] at hs
    cases hs
  · intro id layer staged _ hst
    rw [hstaged] at hst
    cases hst
  · intro id layer hl hs
    rw [hopen hl] at hs
    cases hs
  · intro id layer
    rw [hreopened.storage, hreopened.layers_iff]
    show log.storage.layerMeta.lookup id = some layer ↔
      (log.storage.layerMeta.lookup id = some layer ∧ layer.state = .committed) ∧
        layer.state = .committed
    exact ⟨fun hl => ⟨⟨hl, (h.sound.meta_iff.1 hl).2⟩, (h.sound.meta_iff.1 hl).2⟩, fun hl => hl.1.1⟩
  · intro id commit hcommit
    rw [hc] at hcommit
    exact h.sorted.committed id commit hcommit
  · intro id commit hp
    have hnone : log'.pendingAt id = none := by
      unfold pendingAt
      rw [hstaged]
      cases log'.layers.lookup id <;> rfl
    rw [hnone] at hp
    cases hp
  · intro id
    rw [hreopened.storage, hbranches, ← h.stored]
    rfl
  · intro id branch origin hf ho
    rw [hbranches] at hf
    obtain ⟨commit, hcommit⟩ := h.rooted hf ho
    exact ⟨commit, (hc origin).trans hcommit⟩

end Log

end BorgCore
