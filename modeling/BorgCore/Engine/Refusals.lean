import BorgCore.Engine.Replay
import BorgCore.Engine.Rounds

/-!
# What a refused merge leaves

A merge validates everything before it writes anything, so a refusal leaves the log as it was.  The
other half is that writing cannot be refused.  It does not look at the branches at all, and what it
asks of the layers, that a value layer holds no def events and that a member exists, every log some
run leads to provides.
-/

namespace BorgCore

namespace Log

variable {log log' : Log} {handle : LayerHandle}

/-! ### A layer holds value events or def events -/

/-- No value layer holds a def event, whether it is committed or still open. -/
structure Sorted (log : Log) : Prop where
  committed : log.All Unmixed
  pending : ∀ id commit, log.pendingAt id = some commit → Unmixed id commit

theorem sorted_new : new.Sorted where
  committed := nofun
  pending := nofun

/-- A layer rewritten in place stays sorted if what it is given to hold fits its kind. -/
theorem Sorted.restaged (hs : log.Sorted) {layer : Layer} {staged : StagedLayer} {next : EventId}
    (hl : log.layers.lookup handle.id = some layer)
    (hd : layer.kind = .value → staged.defs = []) :
    (log.restaged handle.id staged next).Sorted where
  committed := hs.committed
  pending id commit hp := by
    rw [pendingAt_restaged hl] at hp
    split at hp
    · cases hp
      exact hd
    · exact hs.pending id commit hp

theorem Sorted.discarded (hs : log.Sorted) (h : log.Sound) (ho : log.Owns handle) :
    (log.discarded handle.layer).Sorted where
  committed id commit hc := hs.committed id commit (by rwa [commitAt_discarded h ho] at hc)
  pending id commit hp := by
    rw [pendingAt_discarded] at hp
    split at hp
    · cases hp
    · exact hs.pending id commit hp

theorem Sorted.step (hs : log.Sorted) (h : log.Sound) (hstep : Step log log') : log'.Sorted := by
  -- What a value layer holds before the call.
  have hdefs {handle : LayerHandle} (ho : log.Owns handle) :
      ∃ layer staged, log.layers.lookup handle.id = some layer ∧ handle.layer.kind = layer.kind ∧
        log.storage.staged.lookup handle.id = some staged ∧ staged.isSealed = false ∧
        (layer.kind = .value → staged.defs = []) := by
    obtain ⟨staged, hst, _, hf⟩ := h.staged_of_owns ho
    obtain ⟨layer, hl, _, he⟩ := ho
    exact ⟨layer, staged, hl, by rw [he], hst, hf, hs.pending handle.id _ (pendingAt_of hl hst)⟩
  cases hstep with
  | createRoot name =>
    rw [createRoot_run h]
    exact ⟨hs.committed, hs.pending⟩
  | fork parent origin name =>
    by_cases hp : log.branchOf origin = some parent
    · rw [fork_run h hp]
      exact ⟨hs.committed, hs.pending⟩
    · obtain ⟨err, he⟩ := fork_error hp name
      rw [he]
      exact hs
  | openLayer branch kind author hb =>
    rw [openLayer_run branch kind author h]
    refine ⟨fun id commit hc => ?_, fun id commit hp => ?_⟩
    · rw [after_ok, commitAt_opened branch kind author h] at hc
      exact hs.committed id commit hc
    · rw [after_ok, pendingAt_opened] at hp
      split at hp
      · cases hp
        exact fun _ => rfl
      · exact hs.pending id commit hp
  | put handle cell draft ho =>
    obtain ⟨layer, staged, hl, _, hst, hf, hd⟩ := hdefs ho
    rw [put_run cell draft hst hf]
    exact hs.restaged hl hd
  | includeEvent handle event ho =>
    obtain ⟨layer, staged, hl, _, hst, hf, hd⟩ := hdefs ho
    cases he : log.storage.events.lookup event with
    | none =>
      have hrun : includeEvent handle event log = .error (.storage s!"unknown event e{event}") log := by
        simp only [includeEvent, store, MemoryStorage.includeEvent, he]
      rw [hrun]
      exact hs
    | some found =>
      rw [includeEvent_run (by rw [he]; rfl) hst hf]
      exact hs.restaged hl hd
  | putDef handle event ho =>
    obtain ⟨layer, staged, hl, hkind, hst, hf, _⟩ := hdefs ho
    by_cases hk : handle.layer.kind = .value
    · have hrun : putDef handle event log = .error .mixedLayerKind log := by
        simp [putDef, hk]
      rw [hrun]
      exact hs
    · rw [putDef_run event hk hst hf]
      exact hs.restaged hl fun hv => absurd (hkind.trans hv) hk
  | commit handle ho =>
    obtain ⟨layer, staged, hl, hkind, hst, _, hd⟩ := hdefs ho
    rw [commit_run h ho hst]
    split
    · refine ⟨fun id commit hc => ?_, fun id commit hp => ?_⟩
      · rw [after_ok, commitAt_landing h.storage hst] at hc
        split at hc
        · cases hc
          exact fun hv => hd (hkind.symm.trans hv)
        · exact hs.committed id commit hc
      · rw [after_ok, pendingAt_landing h hst] at hp
        split at hp
        · cases hp
        · exact hs.pending id commit hp
    · exact hs.discarded h ho
  | abort handle ho =>
    rw [abort_run h ho]
    exact hs.discarded h ho

theorem Reachable.sorted (h : log.Reachable) : log.Sorted := by
  induction h with
  | refl => exact sorted_new
  | tail hs hstep ih => exact ih.step (Steps.sound sound_new hs) hstep

/-! ### Writing does not look at the branches -/

/-- The same log with other branches. -/
def rebranched (log : Log) (branches : AssocMap BranchId Branch) (next : BranchId) : Log :=
  { log with branches := branches, nextBranch := next }

/-- A call that runs the same whatever the branches are. -/
def Blind {α : Type} (call : LogM α) : Prop :=
  ∀ log branches next, call (log.rebranched branches next) =
    match call log with
    | .ok a log' => .ok a (log'.rebranched branches next)
    | .error err log' => .error err (log'.rebranched branches next)

section Blind

variable {α β : Type} {call : LogM α} {next : α → LogM β}

theorem Blind.pure (a : α) : Blind (Pure.pure a : LogM α) := fun _ _ _ => rfl

/-- A sequence is blind where the rest is, after anything the first call can return. -/
theorem Blind.bind_ok (hc : Blind call) (hn : ∀ {log a log'}, call log = .ok a log' → Blind (next a)) :
    Blind (call >>= next) := by
  intro log branches n
  have hcall := hc log branches n
  cases hr : call log with
  | ok a log' =>
    simp only [hr] at hcall
    rw [Calls.bind_ok hcall, Calls.bind_ok hr]
    exact hn hr log' branches n
  | error err log' =>
    simp only [hr] at hcall
    rw [Calls.bind_error hcall, Calls.bind_error hr]

theorem Blind.bind (hc : Blind call) (hn : ∀ a, Blind (next a)) : Blind (call >>= next) :=
  hc.bind_ok fun {_ a _} _ => hn a

theorem Blind.get {read : Log → LogM β} (hr : ∀ log, Blind (read log))
    (he : ∀ log branches n, read (log.rebranched branches n) = read log) :
    Blind (MonadState.get >>= read) := by
  intro log branches n
  have hrun : (MonadState.get >>= read : LogM β) (log.rebranched branches n) =
      read (log.rebranched branches n) (log.rebranched branches n) := rfl
  rw [hrun, he]
  exact hr log log branches n

theorem Blind.store {γ : Type} (call : StoreM γ) : Blind (Log.store call) := by
  intro log branches n
  simp only [Log.store, rebranched]
  cases call log.storage <;> rfl

end Blind

theorem Blind.openLayer (branch : BranchId) (kind : LayerKind) (author : LayerAuthor) :
    Blind (Log.openLayer branch kind author) := by
  intro log branches n
  simp only [Log.openLayer, rebranched, Log.store]
  cases MemoryStorage.openLayer branch log.nextLayer log.storage <;> rfl

theorem Blind.putDef (event : DefEvent) : Blind (Log.putDef handle event) := by
  intro log branches n
  unfold Log.putDef
  split
  · exact Blind.store _ log branches n
  · rfl

theorem Blind.transition (id : LayerId) (expected next : LayerState) :
    Blind (Log.transition id expected next) := by
  intro log branches n
  simp only [Log.transition, Log.layer, rebranched]
  cases log.layers.lookup id with
  | none => rfl
  | some layer =>
    simp only
    split <;> rfl

theorem Blind.project (layer : Layer) : Blind (Log.project layer) := by
  intro log branches n
  obtain ⟨id, branch, kind, author, state, parent, guards⟩ := layer
  cases author with
  | source =>
    simp only [Log.project, rebranched]
    cases log.storage.readLayer id <;> rfl
  | derived producer reflects => rfl

theorem Blind.land (layer : Layer) : Blind (Log.land layer) :=
  .bind (fun _ _ _ => rfl) fun _ => .bind (.store _) fun _ => .bind (.store _) fun _ =>
    .bind (.store _) fun _ => .bind (.transition _ _ _) fun _ => .bind (fun _ _ _ => rfl) fun _ =>
    .bind (.project _) fun _ => .pure _

/-- A layer without guards has nothing to check, and a check is all that reads the branches. -/
theorem Blind.commit (hg : handle.layer.guards = []) : Blind (Log.commit handle) := by
  refine .bind (.transition _ _ _) fun _ => .get (fun log => ?_) (fun log branches n => ?_)
  · simp only [hg, checkGuards, checkGuardList]
    exact .land _
  · simp only [hg, checkGuards, checkGuardList]

theorem Blind.putDefs (events : List DefEvent) : Blind (push.putDefs handle events) := by
  induction events with
  | nil => exact .pure ()
  | cons event rest ih => exact .bind (.putDef event) fun _ => ih

theorem Blind.includeAll (events : List EventId) : Blind (Log.includeAll handle events) := by
  induction events with
  | nil => exact .pure ()
  | cons event rest ih => exact .bind (.store _) fun _ => ih

theorem openLayer_guards {branch : BranchId} {kind : LayerKind} {author : LayerAuthor}
    (h : openLayer branch kind author log = .ok handle log') : handle.layer.guards = [] := by
  unfold openLayer at h
  cases hs : store (MemoryStorage.openLayer branch (log.openedLayer branch kind author).id) { log with
      nextLayer := log.nextLayer + 1
      layers := log.layers.insert log.nextLayer (log.openedLayer branch kind author) } with
  | error err opened =>
    simp only [openedLayer] at hs
    simp only [hs] at h
    cases h
  | ok _ opened =>
    simp only [openedLayer] at hs
    simp only [hs] at h
    cases h
    rfl

theorem Blind.replayLayer (parent : BranchId) (source : LayerId) (events : List Event) :
    Blind (Log.replayLayer parent source events) := by
  refine .get (fun log => ?_) fun log branches n => rfl
  exact (Blind.openLayer parent _ _).bind_ok fun hopen => .bind (.putDefs _) fun _ =>
    .bind (.includeAll _) fun _ => .commit (openLayer_guards hopen)

theorem Blind.replayLayers (parent : BranchId) (sources : List (LayerId × List Event)) :
    Blind (Log.replayLayers parent sources) := by
  induction sources with
  | nil => exact .pure []
  | cons source rest ih =>
    exact .bind (.replayLayer parent source.1 source.2) fun _ => .bind ih fun _ => .pure _

/-! ### A log that has the branch -/

/-- A branch nothing is known of may as well be a root. -/
def rooted (log : Log) (branch : BranchId) : Log :=
  log.rebranched (log.branches.insert branch ⟨branch, none, none⟩) (max log.nextBranch (branch + 1))

theorem Sound.rooted (h : log.Sound) {branch : BranchId} (hb : log.branches.lookup branch = none) :
    (log.rooted branch).Sound where
  storage := h.storage
  projected := h.projected.congr (fun _ => rfl) rfl rfl rfl rfl
  next_pos := h.next_pos
  layer_id := h.layer_id
  layer_branch {id layer} hl := by
    obtain ⟨found, hf, hlt⟩ := h.layer_branch hl
    have hne : layer.branch ≠ branch := by
      rintro rfl
      rw [hb] at hf
      cases hf
    exact ⟨found, by simp [Log.rooted, rebranched, hne, hf], hlt⟩
  branch_id {id found} hf := by
    simp only [Log.rooted, rebranched, AssocMap.lookup_insert_eq] at hf
    split at hf
    · cases hf
      subst id
      exact ⟨rfl, Nat.lt_of_lt_of_le (Nat.lt_succ_self _) (Nat.le_max_right _ _), nofun⟩
    · obtain ⟨hid, hlt, ho⟩ := h.branch_id hf
      exact ⟨hid, Nat.lt_of_lt_of_le hlt (Nat.le_max_left _ _), ho⟩
  staged_iff := h.staged_iff
  staged_branch := h.staged_branch
  open_guards := h.open_guards
  meta_iff := h.meta_iff

/-- Layers that were validated are replayed, onto any branch. -/
theorem replayLayers_ok (h : log.Sound) (hu : log.All Unmixed) (parent : BranchId)
    {sources : List (LayerId × Commit)}
    (hs : ∀ source ∈ sources, log.commitAt source.1 = some source.2) :
    ∃ landed log', replayLayers parent (sources.map fun source => (source.1, source.2.events)) log =
      .ok landed log' := by
  cases hp : log.branches.lookup parent with
  | some found =>
    obtain ⟨landed, log', hrun, _⟩ := replayLayers_run h (by rw [hp]; rfl) hu hs
    exact ⟨_, log', hrun⟩
  | none =>
    have hfound : ((log.rooted parent).branches.lookup parent).isSome := by
      simp [Log.rooted, rebranched]
    obtain ⟨landed, rooted, hrun, _⟩ := replayLayers_run (h.rooted hp) hfound hu hs
    have hblind := Blind.replayLayers parent (sources.map fun source => (source.1, source.2.events))
      log (log.branches.insert parent ⟨parent, none, none⟩) (max log.nextBranch (parent + 1))
    cases hr : replayLayers parent (sources.map fun source => (source.1, source.2.events)) log with
    | ok landed log' => exact ⟨landed, log', rfl⟩
    | error err log' =>
      rw [hr] at hblind
      rw [Log.rooted, hblind] at hrun
      cases hrun

/-- **A replay is refused before it writes, or not at all.** -/
theorem replay_atomic (h : log.Reachable) (child parent : BranchId) (origin : LayerId)
    (mode : MergeMode) (reads : List CellRef) :
    match log.validateReplay parent origin (log.replayableLayers child mode) reads with
    | .error err => replay child parent origin mode reads log = .error err log
    | .ok staged => ∃ landed log', replayLayers parent staged log = .ok landed log' ∧
        replay child parent origin mode reads log = .ok landed log' := by
  cases hv : log.validateReplay parent origin (log.replayableLayers child mode) reads with
  | error err =>
    have hask : ask (fun log => log.validateReplay parent origin (log.replayableLayers child mode)
        reads) log = .error err log := by
      simp only [ask, hv]
    rw [replay, Calls.bind_error hask]
  | ok staged =>
    have hask : ask (fun log => log.validateReplay parent origin (log.replayableLayers child mode)
        reads) log = .ok staged log := by
      simp only [ask, hv]
    obtain ⟨rfl, _, _⟩ := h.sound.validateReplay_ok hv
    obtain ⟨landed, log', hrun⟩ := replayLayers_ok h.sound h.sorted.committed parent
      fun source hm => (mem_sourcesOf.1 hm).2
    exact ⟨landed, log', hrun, by rw [replay, Calls.bind_ok hask, hrun]⟩

theorem replay_unchanged (h : log.Reachable) {child parent : BranchId} {origin : LayerId}
    {mode : MergeMode} {reads : List CellRef} {err : BorgError}
    (hr : replay child parent origin mode reads log = .error err log') : log' = log := by
  have hatomic := replay_atomic h child parent origin mode reads
  cases hv : log.validateReplay parent origin (log.replayableLayers child mode) reads with
  | error found =>
    rw [hv] at hatomic
    rw [hatomic] at hr
    cases hr
    rfl
  | ok staged =>
    rw [hv] at hatomic
    obtain ⟨landed, _, _, hrun⟩ := hatomic
    rw [hrun] at hr
    cases hr

theorem merge_unchanged (h : log.Reachable) {child : BranchId} {mode : MergeMode} {err : BorgError}
    (hr : merge child mode log = .error err log') : log' = log := by
  rw [merge, Calls.bind_ok Calls.get_run] at hr
  cases ho : (log.branch child).bind Branch.origin with
  | none =>
    simp only [ho] at hr
    cases hr
    rfl
  | some origin =>
    cases hp : log.parentOf child with
    | none =>
      simp only [ho, hp] at hr
      cases hr
      rfl
    | some parent =>
      simp only [ho, hp] at hr
      exact replay_unchanged h hr

/-- **A rejected merge leaves no trace.**  Whatever refuses it, a merge and a transaction's merge leave
the log as it was: its layers, its heads, its definitions, its touch index and its records.  And once
the validation has passed, nothing refuses a layer. -/
theorem merge_rejected_unchanged (h : log.Reachable) :
    (∀ child mode err log', merge child mode log = .error err log' → log' = log) ∧
      (∀ tx mode err log', mergeTransaction tx mode log = .error err log' → log' = log) ∧
      ∀ child parent origin mode reads staged,
        log.validateReplay parent origin (log.replayableLayers child mode) reads = .ok staged →
          ∃ landed log', replayLayers parent staged log = .ok landed log' := by
  refine ⟨fun child mode err log' hr => merge_unchanged h hr,
    fun tx mode err log' hr => replay_unchanged h hr,
    fun child parent origin mode reads staged hv => ?_⟩
  have hatomic := replay_atomic h child parent origin mode reads
  rw [hv] at hatomic
  obtain ⟨landed, log', hrun, _⟩ := hatomic
  exact ⟨landed, log', hrun⟩

/-! ### A merge that is refused -/

def lostDoc : Pid := .allocated .object 1 0 0

/-- An object on a root, -/
def created : Log :=
  (after (createRoot none new)).filled 1 .source
    [(.existence "Doc" lostDoc, ⟨.bool true, .unversioned, .source, none⟩)]

/-- a fork that writes a field of it, -/
def edited : Log :=
  (after (fork 1 1 none created)).filled 2 .source
    [(.prop "Doc" "title" lostDoc, ⟨.int 1, 1, .source, none⟩)]

/-- and a parent that has deleted it since. -/
def bereft : Log :=
  edited.filled 1 .source [(.existence "Doc" lostDoc, ⟨.tombstone, .unversioned, .source, none⟩)]

theorem bereft_reachable : bereft.Reachable := by
  have hroot : (after (createRoot none new)).Reachable := .single (.createRoot none)
  have hcreated : created.Reachable := hroot.filled (by decide +kernel) .source _
  have hforked : (after (fork 1 1 none created)).Reachable := .tail hcreated (.fork 1 1 none)
  have hedited : edited.Reachable := hforked.filled (by decide +kernel) .source _
  exact hedited.filled (by decide +kernel) .source _

theorem merge_rejected_unchanged_bereft :
    ∃ log', merge 2 .defAndData bereft =
        .error (.mergeRejected (.danglingWrite (.prop "Doc" "title" lostDoc) 3)) log' ∧ log' = bereft := by
  have hrun : failure (merge 2 .defAndData bereft) =
      some (.mergeRejected (.danglingWrite (.prop "Doc" "title" lostDoc) 3)) := by
    decide +kernel
  have herr := error_after hrun
  exact ⟨_, herr, (merge_rejected_unchanged bereft_reachable).1 2 .defAndData _ _ herr⟩

end Log

end BorgCore
