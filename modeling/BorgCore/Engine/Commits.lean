import BorgCore.Engine.Rounds
import BorgCore.Engine.Span

/-!
# Commits the store fails

A commit makes up to five calls on the store, and each may fail.  A call that fails has done nothing.
What the commit had already done stays done: it is not undone, and the layer keeps the state it had
reached.
-/

namespace BorgCore

inductive StorageCall where
  | abort
  | seal
  | putLayerMeta
  | commitLayer
  /-- The read-back by the projections. -/
  | readLayer
deriving DecidableEq, Repr

/-- Which calls fail, and with what. -/
abbrev Faults := StorageCall → Option BorgError

namespace Log

/-! ### A commit that may fail -/

/-- A call on the store, which may fail. -/
def attempt {α : Type} (faults : Faults) (call : StorageCall) (action : LogM α) : LogM α :=
  match faults call with
  | some err => throw err
  | none => action

/-- Only a source layer is read back. -/
def projectWith (faults : Faults) (layer : Layer) : LogM Unit :=
  if layer.author.isSource then attempt faults .readLayer (project layer) else project layer

def landWith (faults : Faults) (layer : Layer) : LogM LayerId := do
  keepGuards layer
  attempt faults .seal (store (MemoryStorage.sealLayer layer.id))
  attempt faults .putLayerMeta (store (MemoryStorage.putLayerMeta { layer with state := .committed }))
  attempt faults .commitLayer (store (MemoryStorage.commitLayer layer.id))
  transition layer.id .sealed .committed
  moveHead layer
  projectWith faults { layer with state := .committed }
  return layer.id

def commitWith (faults : Faults) (handle : LayerHandle) : LogM LayerId := do
  transition handle.id .open .sealed
  let log ← get
  match log.checkGuards handle.layer.branch handle.layer.guards none with
  | .error violation => do
    attempt faults .abort (store (MemoryStorage.abort handle.id))
    transition handle.id .sealed .aborted
    throw violation
  | .ok () => landWith faults handle.layer

theorem commitWith_none (handle : LayerHandle) : commitWith (fun _ => none) handle = commit handle := by
  have hland : landWith (fun _ => none) handle.layer = land handle.layer := by
    simp only [landWith, land, projectWith, attempt, ite_self]
  have hrun (landing : LogM LayerId) (hlanding : landing = land handle.layer) : (do
      transition handle.id .open .sealed
      let log ← get
      match log.checkGuards handle.layer.branch handle.layer.guards none with
      | .error violation => do
        store (MemoryStorage.abort handle.id)
        transition handle.id .sealed .aborted
        throw violation
      | .ok () => landing) = commit handle := by
    subst hlanding
    exact rfl
  exact hrun _ hland

/-! ### What it is held to -/

/-- A layer that left nothing: no read finds it, no head and no definition has moved, and its state is
that of a layer that will never commit. -/
structure Undone (log : Log) (id : LayerId) (log' : Log) : Prop where
  unseen : ∀ path cell version found,
    log'.storage.getCell path cell version = .ok (some found) → found.landedAt ≠ id
  heads : ∀ branch, log'.head branch = log.head branch
  defs : ∀ path ceiling, log'.viewAt path ceiling = log.viewAt path ceiling
  aborted : (log'.layer id).map Layer.state = some .aborted
  /-- Derivation does not wait for it. -/
  passed : ∀ branch since rest found,
    log'.gather branch since (id :: rest) found = log'.gather branch since rest found

/-- A layer that is committed: the timeline holds it, reads find it, and every projection has it. -/
structure Visible (id : LayerId) (commit : Commit) (log : Log) : Prop where
  committed : log.commitAt id = some commit
  visible : ∀ cell version event, lastOf cell version commit.events = some event →
    log.storage.getCell ⟨[(commit.branch, id)]⟩ cell version = .ok (some ⟨event, id⟩)
  head : ∃ top, log.head commit.branch = some top ∧ id ≤ top
  defs : commit.kind = .defs → id ∈ log.defLayers.getD commit.branch []
  touched : commit.author.isSource → ∀ event ∈ commit.events,
    id ∈ log.touches.cells.getD (commit.branch, event.cell) []
  highest : commit.author.isSource → ∃ top, log.touches.highest.lookup commit.branch = some top ∧ id ≤ top
  watermark : ∀ producer reflects, commit.author = .derived producer reflects →
    reflects ≤ log.frontier.watermark commit.branch producer

/-- All or nothing: a commit that returns has committed what the layer held, under its guards, and one
that fails has left nothing. -/
def AllOrNothing (log : Log) (handle : LayerHandle) : EStateM.Result BorgError Log LayerId → Prop
  | .ok id log' => id = handle.id ∧ ∃ pending, log.pendingAt handle.id = some pending ∧
      Visible handle.id { pending with guards := handle.layer.guards } log'
  | .error _ log' => Undone log handle.id log'

/-- No call the commit comes to fails.  A layer whose guards are violated is aborted; one whose guards
hold is sealed, described, committed and, if a client wrote it, read back. -/
def Unharmed (faults : Faults) (log : Log) (handle : LayerHandle) : Prop :=
  match log.checkGuards handle.layer.branch handle.layer.guards none with
  | .error _ => faults .abort = none
  | .ok () => faults .seal = none ∧ faults .putLayerMeta = none ∧ faults .commitLayer = none ∧
      (handle.layer.author.isSource → faults .readLayer = none)

/-! ### Logs on which commits have failed -/

/-- What a log keeps true whatever has failed on it. -/
structure Steady (log : Log) : Prop where
  storage : log.storage.Sound
  layer_lt : ∀ {id}, (log.layers.lookup id).isSome → id < log.nextLayer
  staged_lt : ∀ {id}, (log.storage.staged.lookup id).isSome → id < log.nextLayer
  member_lt : ∀ {id}, (log.storage.members.lookup id).isSome → id < log.nextLayer
  /-- A layer that is open can be written and ended. -/
  opened : ∀ {id layer}, log.layers.lookup id = some layer → layer.state = .open →
    layer.id = id ∧ layer.guards = [] ∧ ∃ staged, log.storage.staged.lookup id = some staged ∧
      staged.branch = layer.branch ∧ staged.isSealed = false

variable {log log' : Log} {handle : LayerHandle} {staged : StagedLayer} {faults : Faults}

theorem steady_new : new.Steady where
  storage := MemoryStorage.sound_new
  layer_lt h := by simp [new] at h
  staged_lt h := by simp [new, MemoryStorage.new] at h
  member_lt h := by simp [new, MemoryStorage.new] at h
  opened h := by simp [new] at h

theorem Steady.owned (h : log.Steady) (ho : log.Owns handle) :
    log.layers.lookup handle.id = some { handle.layer with guards := [] } ∧
      handle.layer.state = .open ∧ ∃ staged, log.storage.staged.lookup handle.id = some staged ∧
        staged.branch = handle.layer.branch ∧ staged.isSealed = false := by
  obtain ⟨layer, hl, hs, he⟩ := ho
  obtain ⟨_, hg, staged, hst, hb, hf⟩ := h.opened hl hs
  obtain ⟨id, branch, kind, author, state, parent, guards⟩ := layer
  simp only at hs hg hb
  rw [he, hl, hs, hg]
  exact ⟨rfl, rfl, staged, hst, hb, hf⟩

/-! ### The guards of a layer that is being sealed -/

theorem checkGuardList_congr (hs : log'.storage = log.storage) (ht : log'.touches = log.touches)
    (path : ReadPath) (since : Option LayerId) (guards : List Guard) :
    log'.checkGuardList path since guards = log.checkGuardList path since guards := by
  have hcells (cells : List CellRef) :
      log'.checkGuardCells path cells = log.checkGuardCells path cells := by
    induction cells with
    | nil => rfl
    | cons cell rest ih => simp only [checkGuardCells, isDerivedAnywhere, hs, ih]
  induction guards with
  | nil => rfl
  | cons guard rest ih => simp only [checkGuardList, hcells, checkTouched, ht, ih]

/-- Sealing a layer does not change what its guards say. -/
theorem Steady.checkGuards_sealing (h : log.Steady) (ho : log.Owns handle) (branch : BranchId)
    (guards : List Guard) :
    (log.sealing handle.layer).checkGuards branch guards none = log.checkGuards branch guards none := by
  have hl := (h.owned ho).1
  have houtward (other : BranchId) : (log.sealing handle.layer).outward other = log.outward other := by
    have hbranch (origin : LayerId) :
        ((log.sealing handle.layer).layer origin).map (fun layer => (layer.branch, origin)) =
          (log.layer origin).map fun layer => (layer.branch, origin) := by
      by_cases hid : origin = handle.id
      · subst hid
        simp [layer, sealing, hl]
      · simp [layer, sealing, hid]
    simp only [outward, hbranch]
    rfl
  have hheads : (log.sealing handle.layer).heads = log.heads := rfl
  have hstorage : (log.sealing handle.layer).storage = log.storage := rfl
  have htouches : (log.sealing handle.layer).touches = log.touches := rfl
  unfold checkGuards
  rw [readPath_congr hheads houtward, checkGuardList_congr hstorage htouches]

/-! ### Where a commit can stop -/

/-- Sealed, with its guards, and not yet in the store. -/
def kept (log : Log) (layer : Layer) : Log :=
  { log with layers := log.layers.insert layer.id { layer with state := .sealed } }

def stored (log : Log) (layer : Layer) (staged : StagedLayer) : Log :=
  { log.kept layer with
    storage := { log.storage with
      staged := log.storage.staged.insert layer.id { staged with isSealed := true } } }

def described (log : Log) (layer : Layer) (staged : StagedLayer) : Log :=
  { log.kept layer with
    storage := { log.storage with
      staged := log.storage.staged.insert layer.id { staged with isSealed := true }
      layerMeta := log.storage.layerMeta.insert layer.id { layer with state := .committed } } }

/-- Committed, and not read back. -/
def unread (log : Log) (layer : Layer) (staged : StagedLayer) : Log :=
  { log.landing layer staged with touches := log.touches, frontier := log.frontier }

theorem attempt_ok {α : Type} {call : StorageCall} {action : LogM α} (h : faults call = none) :
    attempt faults call action = action := by
  simp [attempt, h]

theorem attempt_error {α : Type} {call : StorageCall} {action : LogM α} {err : BorgError}
    (h : faults call = some err) : attempt faults call action log = .error err log := by
  simp only [attempt, h, Calls.throw_run]

theorem keepGuards_run :
    keepGuards handle.layer (log.sealing handle.layer) = .ok () (log.kept handle.layer) := by
  simp only [keepGuards, sealing, kept, AssocMap.adjust, AList.lookup_insert, AList.insert_insert]

theorem sealLayer_run (hst : log.storage.staged.lookup handle.id = some staged) :
    store (MemoryStorage.sealLayer handle.id) (log.kept handle.layer) =
      .ok () (log.stored handle.layer staged) := by
  have hlookup : (log.kept handle.layer).storage.staged.lookup handle.id = some staged := hst
  simp only [store, MemoryStorage.sealLayer_run hlookup]
  rfl

theorem commitLayer_run (h : log.storage.Sound)
    (hst : log.storage.staged.lookup handle.id = some staged) :
    ∃ landed, store (MemoryStorage.commitLayer handle.id) (log.described handle.layer staged) =
        .ok () landed ∧
      landed.layers.lookup handle.id = some { handle.layer with state := .sealed } ∧
      ({ landed with layers := landed.layers.insert handle.id { handle.layer with state := .committed } } : Log) =
        { log.unread handle.layer staged with heads := log.heads, defLayers := log.defLayers } := by
  have hsound : (log.described handle.layer staged).storage.Sound := by
    have hsealed : MemoryStorage.Sound { log.storage with
        staged := log.storage.staged.insert handle.id { staged with isSealed := true } } :=
      h.insert_same hst rfl fun id hid => Or.inl hid
    exact hsealed.congr rfl rfl rfl rfl rfl
  have hcommit := MemoryStorage.commitLayer_run hsound (AList.lookup_insert _) rfl
  refine ⟨_, by simp only [store, hcommit]; rfl, AList.lookup_insert _, ?_⟩
  simp only [described, kept, unread, landing, MemoryStorage.landed, erase_insert, AList.insert_insert]
  rfl

/-- **A commit, wherever it stops.** -/
theorem Steady.commitWith_run (h : log.Steady) (ho : log.Owns handle)
    (hst : log.storage.staged.lookup handle.id = some staged) (faults : Faults) :
    commitWith faults handle log =
      match log.checkGuards handle.layer.branch handle.layer.guards none with
      | .error violation =>
        match faults .abort with
        | some err => .error err (log.sealing handle.layer)
        | none => .error violation (log.discarded handle.layer)
      | .ok () =>
        match faults .seal, faults .putLayerMeta, faults .commitLayer with
        | some err, _, _ => .error err (log.kept handle.layer)
        | none, some err, _ => .error err (log.stored handle.layer staged)
        | none, none, some err => .error err (log.described handle.layer staged)
        | none, none, none =>
          match if handle.layer.author.isSource then faults .readLayer else none with
          | some err => .error err (log.unread handle.layer staged)
          | none => .ok handle.id (log.landing handle.layer staged) := by
  obtain ⟨hl, hs, _⟩ := h.owned ho
  have hsealing : transition handle.id .open .sealed log = .ok () (log.sealing handle.layer) :=
    transition_run hl hs .sealed
  rw [commitWith, Calls.bind_ok hsealing, Calls.bind_ok Calls.get_run, h.checkGuards_sealing ho]
  cases log.checkGuards handle.layer.branch handle.layer.guards none with
  | error violation =>
    simp only
    cases ha : faults .abort with
    | some err => rw [Calls.bind_error (attempt_error ha)]
    | none =>
      have habort : store (MemoryStorage.abort handle.id) (log.sealing handle.layer) =
          .ok () { log.sealing handle.layer with
            storage := { log.storage with staged := log.storage.staged.erase handle.id } } := rfl
      have hfound : ({ log.sealing handle.layer with
            storage := { log.storage with staged := log.storage.staged.erase handle.id } } : Log).layers.lookup
          handle.id = some { handle.layer with state := .sealed, guards := [] } := AList.lookup_insert _
      rw [attempt_ok ha, Calls.bind_ok habort, Calls.bind_ok (transition_run hfound rfl .aborted),
        Calls.throw_run]
      simp only [discarded, sealing, AList.insert_insert]
  | ok _ =>
    simp only
    rw [landWith, Calls.bind_ok keepGuards_run]
    cases hseal : faults .seal with
    | some err => rw [Calls.bind_error (attempt_error hseal)]
    | none =>
      rw [attempt_ok hseal, Calls.bind_ok (sealLayer_run hst)]
      cases hmeta : faults .putLayerMeta with
      | some err => rw [Calls.bind_error (attempt_error hmeta)]
      | none =>
        have hput : store (MemoryStorage.putLayerMeta { handle.layer with state := .committed })
            (log.stored handle.layer staged) = .ok () (log.described handle.layer staged) := rfl
        rw [attempt_ok hmeta, Calls.bind_ok hput]
        cases hcommit : faults .commitLayer with
        | some err => rw [Calls.bind_error (attempt_error hcommit)]
        | none =>
          obtain ⟨landed, hland, hfound, hlanded⟩ := commitLayer_run h.storage hst
          rw [attempt_ok hcommit, Calls.bind_ok hland,
            Calls.bind_ok (transition_run hfound rfl .committed), hlanded]
          have hmove : moveHead handle.layer
              { log.unread handle.layer staged with heads := log.heads, defLayers := log.defLayers } =
              .ok () (log.unread handle.layer staged) := rfl
          rw [Calls.bind_ok hmove]
          have hread : (log.unread handle.layer staged).storage.readLayer handle.id =
              .ok (log.storage.stagedContents staged) := by
            have hsound := h.storage.landed hst
            have := hsound.readLayer handle.id
            rwa [MemoryStorage.contents_landed h.storage hst, if_pos rfl] at this
          have hproject : project { handle.layer with state := .committed }
              (log.unread handle.layer staged) = .ok () (log.landing handle.layer staged) :=
            project_run hread
          cases hsource : handle.layer.author.isSource with
          | false =>
            simp only [projectWith, hsource, Bool.false_eq_true, if_false]
            rw [Calls.bind_ok hproject, Calls.pure_run]
          | true =>
            simp only [projectWith, hsource, if_true]
            cases hback : faults .readLayer with
            | some err => rw [Calls.bind_error (attempt_error hback)]
            | none => rw [attempt_ok hback, Calls.bind_ok hproject, Calls.pure_run]

/-! ### Steadiness -/

theorem Steady.ended (h : log.Steady) (ho : log.Owns handle) {layer : Layer}
    (hstate : layer.state ≠ .open) (hl : log'.layers = log.layers.insert handle.id layer)
    (hn : log'.nextLayer = log.nextLayer) (hstore : log'.storage.Sound)
    (hstaged : ∀ id, id ≠ handle.id → log'.storage.staged.lookup id = log.storage.staged.lookup id)
    (hmembers : ∀ id, id ≠ handle.id → log'.storage.members.lookup id = log.storage.members.lookup id) :
    log'.Steady := by
  have hlt : handle.id < log.nextLayer := h.layer_lt (by rw [(h.owned ho).1]; rfl)
  refine ⟨hstore, fun {id} hid => ?_, fun {id} hid => ?_, fun {id} hid => ?_, fun {id found} hf hs => ?_⟩
  all_goals by_cases heq : id = handle.id
  · rw [heq, hn]
    exact hlt
  · rw [hl, AList.lookup_insert_ne heq] at hid
    rw [hn]
    exact h.layer_lt hid
  · rw [heq, hn]
    exact hlt
  · rw [hstaged id heq] at hid
    rw [hn]
    exact h.staged_lt hid
  · rw [heq, hn]
    exact hlt
  · rw [hmembers id heq] at hid
    rw [hn]
    exact h.member_lt hid
  · rw [hl, heq, AList.lookup_insert] at hf
    cases hf
    exact absurd hs hstate
  · rw [hl, AList.lookup_insert_ne heq] at hf
    rw [hstaged id heq]
    exact h.opened hf hs

theorem Steady.discarded (h : log.Steady) (ho : log.Owns handle) :
    (log.discarded handle.layer).Steady := by
  refine h.ended ho (by simp) rfl rfl ?_ (fun id hid => ?_) fun id hid => rfl
  · exact h.storage.erase_staged
  · simp [Log.discarded, hid]

theorem Steady.landing (h : log.Steady) (ho : log.Owns handle)
    (hst : log.storage.staged.lookup handle.id = some staged) :
    (log.landing handle.layer staged).Steady := by
  refine h.ended ho (by simp) rfl rfl ?_ (fun id hid => ?_) fun id hid => ?_
  · exact (h.storage.landed hst).congr rfl rfl rfl rfl rfl
  · simp [Log.landing, MemoryStorage.landed, hid]
  · simp [Log.landing, MemoryStorage.landed, hid]

/-- **A commit leaves a log steady, wherever it stops.** -/
theorem Steady.commitWith (h : log.Steady) (ho : log.Owns handle) (faults : Faults) :
    (after (commitWith faults handle log)).Steady := by
  obtain ⟨_, _, staged, hst, _⟩ := h.owned ho
  have hsealed : MemoryStorage.Sound { log.storage with
      staged := log.storage.staged.insert handle.id { staged with isSealed := true } } :=
    h.storage.insert_same hst rfl fun id hid => Or.inl hid
  have hother (id : LayerId) (hid : id ≠ handle.id) :
      (log.storage.staged.insert handle.id { staged with isSealed := true }).lookup id =
        log.storage.staged.lookup id := AList.lookup_insert_ne hid
  rw [h.commitWith_run ho hst]
  split
  · split
    · exact h.ended ho (by simp) rfl rfl h.storage (fun _ _ => rfl) fun _ _ => rfl
    · exact h.discarded ho
  · split
    · exact h.ended ho (by simp) rfl rfl h.storage (fun _ _ => rfl) fun _ _ => rfl
    · exact h.ended ho (by simp) rfl rfl hsealed hother fun _ _ => rfl
    · exact h.ended ho (by simp) rfl rfl (hsealed.congr rfl rfl rfl rfl rfl) hother fun _ _ => rfl
    · split
      · have hlanding := h.landing ho hst
        exact ⟨hlanding.storage, hlanding.layer_lt, hlanding.staged_lt, hlanding.member_lt,
          hlanding.opened⟩
      · exact h.landing ho hst

theorem Steady.branched (h : log.Steady) (branches stored : AssocMap BranchId Branch)
    (next : BranchId) :
    Steady { log with
      branches := branches, nextBranch := next, storage := { log.storage with branches := stored } } where
  storage := h.storage.congr rfl rfl rfl rfl rfl
  layer_lt := h.layer_lt
  staged_lt := h.staged_lt
  member_lt := h.member_lt
  opened := h.opened

theorem Steady.restaged (h : log.Steady) {staged' : StagedLayer} {next : EventId}
    (hst : log.storage.staged.lookup handle.id = some staged)
    (hstore : (log.restaged handle.id staged' next).storage.Sound)
    (hb : staged'.branch = staged.branch) (hf : staged'.isSealed = staged.isSealed) :
    (log.restaged handle.id staged' next).Steady where
  storage := hstore
  layer_lt := h.layer_lt
  staged_lt {id} hid := by
    simp only [Log.restaged, AssocMap.lookup_insert_eq] at hid
    split at hid
    · subst id
      exact h.staged_lt (by rw [hst]; rfl)
    · exact h.staged_lt hid
  member_lt := h.member_lt
  opened {id layer} hl hs := by
    obtain ⟨hid, hg, found, hfound, hbranch, hopen⟩ := h.opened hl hs
    by_cases heq : id = handle.id
    · subst heq
      rw [hst] at hfound
      cases hfound
      exact ⟨hid, hg, staged', AList.lookup_insert _, hb.trans hbranch, hf.trans hopen⟩
    · exact ⟨hid, hg, found, by simp [Log.restaged, heq, hfound], hbranch, hopen⟩

theorem Steady.opening (h : log.Steady) (branch : BranchId) (kind : LayerKind) (author : LayerAuthor) :
    (after (openLayer branch kind author log)).Steady := by
  have hstaged : log.storage.staged.lookup log.nextLayer = none := by
    refine Option.not_isSome_iff_eq_none.1 fun hs => ?_
    exact absurd (h.staged_lt hs) (Nat.lt_irrefl _)
  have hmember : log.storage.members.lookup log.nextLayer = none := by
    refine Option.not_isSome_iff_eq_none.1 fun hs => ?_
    exact absurd (h.member_lt hs) (Nat.lt_irrefl _)
  have hrun : openLayer branch kind author log =
      .ok ⟨log.openedLayer branch kind author⟩ (log.opened branch kind author) := by
    have := MemoryStorage.openLayer_run branch hstaged hmember
    simp only [openLayer, store, openedLayer, Log.opened] at this ⊢
    rw [this]
  rw [hrun, after_ok]
  refine ⟨h.storage.openLayer branch hmember, fun {id} hid => ?_, fun {id} hid => ?_,
    fun {id} hid => Nat.lt_succ_of_lt (h.member_lt hid), fun {id layer} hl hs => ?_⟩
  · simp only [Log.opened, AssocMap.lookup_insert_eq] at hid
    split at hid
    · exact Nat.lt_succ_of_le (Nat.le_of_eq ‹_›)
    · exact Nat.lt_succ_of_lt (h.layer_lt hid)
  · simp only [Log.opened, AssocMap.lookup_insert_eq] at hid
    split at hid
    · exact Nat.lt_succ_of_le (Nat.le_of_eq ‹_›)
    · exact Nat.lt_succ_of_lt (h.staged_lt hid)
  · simp only [Log.opened, AssocMap.lookup_insert_eq] at hl ⊢
    split at hl
    · cases hl
      subst id
      exact ⟨rfl, rfl, .fresh branch, by simp, rfl, rfl⟩
    · rename_i hne
      rw [if_neg hne]
      exact h.opened hl hs

theorem Steady.step (h : log.Steady) (hstep : Step log log') : log'.Steady := by
  cases hstep with
  | createRoot name => exact h.branched _ _ _
  | fork parent origin name =>
    rw [fork, Calls.bind_ok Calls.get_run]
    cases hl : log.layer origin with
    | none => exact h
    | some layer =>
      simp only
      split
      · exact h
      · exact h.branched _ _ _
  | openLayer branch kind author hb => exact h.opening branch kind author
  | put handle cell draft ho =>
    obtain ⟨_, _, staged, hst, _, hf⟩ := h.owned ho
    rw [put_run cell draft hst hf]
    exact h.restaged hst (h.storage.author cell draft hst) rfl rfl
  | includeEvent handle event ho =>
    obtain ⟨_, _, staged, hst, _, hf⟩ := h.owned ho
    cases he : log.storage.events.lookup event with
    | none =>
      have hrun : includeEvent handle event log = .error (.storage s!"unknown event e{event}") log := by
        simp only [includeEvent, store, MemoryStorage.includeEvent, he]
      rw [hrun]
      exact h
    | some found =>
      rw [includeEvent_run (by rw [he]; rfl) hst hf]
      refine h.restaged hst (h.storage.insert_same hst rfl fun id hid => ?_) rfl rfl
      rcases List.mem_append.1 hid with hid | hid
      · exact Or.inl hid
      · rw [List.mem_singleton.1 hid, he]
        exact Or.inr rfl
  | putDef handle event ho =>
    obtain ⟨_, _, staged, hst, _, hf⟩ := h.owned ho
    by_cases hk : handle.layer.kind = .value
    · have hrun : putDef handle event log = .error .mixedLayerKind log := by
        simp [putDef, hk]
      rw [hrun]
      exact h
    · rw [putDef_run event hk hst hf]
      exact h.restaged hst (h.storage.insert_same hst rfl fun id hid => Or.inl hid) rfl rfl
  | commit handle ho =>
    rw [← commitWith_none]
    exact h.commitWith ho _
  | abort handle ho =>
    obtain ⟨hl, hs, _⟩ := h.owned ho
    have hrun : abort handle log = .ok () (log.discarded handle.layer) := by
      simp only [abort, bind, EStateM.bind, store, MemoryStorage.abort, transition, Log.layer, hl, hs,
        ne_eq, not_true_eq_false, if_false, Log.discarded]
    rw [hrun]
    exact h.discarded ho

/-- One call on a log whose store may fail a commit. -/
inductive FaultyStep (log : Log) : Log → Prop where
  | step {log' : Log} (hs : Step log log') : FaultyStep log log'
  | commit (handle : LayerHandle) (faults : Faults) (ho : log.Owns handle) :
      FaultyStep log (after (commitWith faults handle log))

/-- A log some run leads to, in which any commit may have failed anywhere. -/
def FaultyReachable (log : Log) : Prop := Relation.ReflTransGen FaultyStep new log

theorem FaultyReachable.steady (h : log.FaultyReachable) : log.Steady := by
  induction h with
  | refl => exact steady_new
  | tail _ hstep ih =>
    cases hstep with
    | step hs => exact ih.step hs
    | commit handle faults ho => exact ih.commitWith ho faults

/-! ### All or nothing -/

theorem Steady.undone (h : log.Steady) (ho : log.Owns handle) :
    Undone log handle.id (log.discarded handle.layer) := by
  obtain ⟨_, _, staged, hst, _⟩ := h.owned ho
  have hlayer : (log.discarded handle.layer).layer handle.id =
      some { handle.layer with state := .aborted, guards := [] } := AList.lookup_insert _
  refine ⟨fun path cell version found hread hid => ?_, fun _ => rfl, fun path ceiling => ?_, ?_,
    fun branch since rest found => gather_aborted hlayer rfl rest found⟩
  · have hstore : (log.discarded handle.layer).storage.Sound := (h.discarded ho).storage
    have hmember : (log.discarded handle.layer).storage.members.lookup handle.id = none :=
      h.storage.apart hst
    rw [hstore.getCell] at hread
    obtain ⟨⟨id, event⟩, hn, he⟩ := Option.map_eq_some_iff.1 (Except.ok.inj hread)
    cases he
    obtain ⟨segment, _, _, hrecord⟩ := Timeline.nearest_mem hn
    simp only at hid
    subst hid
    simp [MemoryStorage.recordAt, hmember] at hrecord
  · simp only [viewAt, foldDefs_eq]
    rfl
  · rw [hlayer]
    rfl

theorem Steady.visible (h : log.Steady) (ho : log.Owns handle)
    (hst : log.storage.staged.lookup handle.id = some staged)
    (hb : staged.branch = handle.layer.branch) :
    Visible handle.id (log.commitOf handle.layer staged) (log.landing handle.layer staged) where
  committed := by
    rw [commitAt_landing h.storage hst, if_pos rfl]
  visible cell version event he := by
    have hrecord : (log.storage.landed handle.id staged).recordAt handle.layer.branch cell version
        handle.id = some event := by
      rw [MemoryStorage.recordAt_landed h.storage hst, if_pos rfl, if_pos hb]
      exact he
    have hsound : (log.landing handle.layer staged).storage.Sound := (h.landing ho hst).storage
    rw [hsound.getCell]
    have hlatest : Timeline.latest ((log.landing handle.layer staged).storage.recordAt
        handle.layer.branch cell version) handle.id = some (handle.id, event) :=
      Timeline.latest_of_top (Nat.le_refl _) hrecord fun _ hj hle => absurd hle (Nat.not_le.2 hj)
    simp only [commitOf, Timeline.nearest, Timeline.firstOf, hlatest]
    rfl
  head := by
    refine ⟨max handle.id ((log.head handle.layer.branch).getD handle.id), ?_, Nat.le_max_left _ _⟩
    simp [head, Log.landing, commitOf]
  defs hk := by
    have hkind : handle.layer.kind = .defs := hk
    simp [Log.landing, commitOf, hkind, AssocMap.getD_insert]
  touched hs event hm := by
    have hsource : handle.layer.author.isSource = true := hs
    simp only [Log.landing, commitOf, CellTouchIndex.apply, hsource, if_true]
    exact (CellTouchIndex.mem_record _).2 (Or.inr ⟨rfl, rfl, List.mem_map_of_mem hm⟩)
  highest hs := by
    have hsource : handle.layer.author.isSource = true := hs
    refine ⟨max handle.id (log.touches.highest.getD handle.layer.branch handle.id), ?_,
      Nat.le_max_left _ _⟩
    simp only [Log.landing, commitOf, CellTouchIndex.apply, hsource, if_true]
    rw [CellTouchIndex.highest_record, if_pos rfl]
  watermark producer reflects ha := by
    have hauthor : handle.layer.author = .derived producer reflects := ha
    simp only [Log.landing, commitOf, hauthor]
    rw [FrontierTracker.watermark_advance, if_pos rfl]
    exact Nat.le_max_right _ _

/-- **A commit is all or nothing exactly where no call it comes to fails.**  On any log, whatever commits
have failed on it before: a commit that fails halfway leaves its layer sealed, or committed. -/
theorem commitWith_allOrNothing_iff (h : log.FaultyReachable) (ho : log.Owns handle) (faults : Faults) :
    AllOrNothing log handle (commitWith faults handle log) ↔ Unharmed faults log handle := by
  have hsteady := h.steady
  obtain ⟨hl, _, staged, hst, hb, _⟩ := hsteady.owned ho
  -- A layer that is still there is not aborted.
  have hleft {log' : Log} {found : Layer} (hfound : log'.layers = log.layers.insert handle.id found)
      (hstate : found.state ≠ .aborted) : ¬ Undone log handle.id log' := by
    intro hundone
    have haborted := hundone.aborted
    simp only [layer, hfound, AList.lookup_insert, Option.map_some, Option.some.injEq] at haborted
    exact hstate haborted
  have hpending : log.pendingAt handle.id = some ⟨handle.layer.branch, handle.layer.kind,
      handle.layer.author, [], log.storage.stagedContents staged, staged.defs⟩ := by
    rw [pendingAt_of hl hst]
  rw [hsteady.commitWith_run ho hst, Unharmed]
  cases log.checkGuards handle.layer.branch handle.layer.guards none with
  | error violation =>
    cases faults .abort with
    | some err => exact iff_of_false (hleft rfl (by simp)) (by simp)
    | none => exact iff_of_true (hsteady.undone ho) rfl
  | ok _ =>
    cases faults .seal with
    | some err => exact iff_of_false (hleft rfl (by simp)) (by simp)
    | none =>
      cases faults .putLayerMeta with
      | some err => exact iff_of_false (hleft rfl (by simp)) (by simp)
      | none =>
        cases faults .commitLayer with
        | some err => exact iff_of_false (hleft rfl (by simp)) (by simp)
        | none =>
          cases hback : if handle.layer.author.isSource then faults .readLayer else none with
          | some err =>
            refine iff_of_false (hleft rfl (by simp)) fun hunharmed => ?_
            split at hback
            · rw [hunharmed.2.2.2 ‹_›] at hback
              cases hback
            · cases hback
          | none =>
            refine iff_of_true ⟨rfl, _, hpending, hsteady.visible ho hst hb⟩ ⟨rfl, rfl, rfl, fun hs => ?_⟩
            rw [if_pos hs] at hback
            exact hback

/-- A client's layer that the store failed to commit is as far as any range of its branch goes. -/
theorem commitWith_stops (h : log.FaultyReachable) (ho : log.Owns handle)
    (ha : handle.layer.author = .source)
    (hg : log.checkGuards handle.layer.branch handle.layer.guards none = .ok ())
    (hf : faults .seal ≠ none ∨ faults .putLayerMeta ≠ none ∨ faults .commitLayer ≠ none)
    (since : LayerId) (rest : List LayerId) (found : Gathered) :
    (after (commitWith faults handle log)).gather handle.layer.branch since (handle.id :: rest) found =
      found := by
  obtain ⟨_, _, staged, hst, _⟩ := h.steady.owned ho
  have hsealed : (after (commitWith faults handle log)).layer handle.id =
      some { handle.layer with state := .sealed } := by
    rw [h.steady.commitWith_run ho hst, hg]
    simp only
    cases hseal : faults .seal with
    | some err => exact AList.lookup_insert _
    | none =>
      cases hmeta : faults .putLayerMeta with
      | some err => exact AList.lookup_insert _
      | none =>
        cases hcommit : faults .commitLayer with
        | some err => exact AList.lookup_insert _
        | none => simp [hseal, hmeta, hcommit] at hf
  exact gather_sealed hsealed rfl ha rfl rest found

/-! ### A layer that is neither -/

def halfHandle : LayerHandle := ⟨(after (createRoot none new)).openedLayer 1 .value .source⟩

/-- A client opens a layer, -/
def halfOpened : Log := after (openLayer 1 .value .source (after (createRoot none new)))

/-- writes a field, -/
def halfWritten : Log :=
  after (put halfHandle (.prop "Doc" "title" (.allocated .object 1 0 0)) ⟨.int 1, 1, .source, none⟩
    halfOpened)

/-- and the store cannot seal the layer. -/
def sealFails : Faults := fun call => if call = .seal then some (.storage "disk full") else none

def unsealed : Log := after (commitWith sealFails halfHandle halfWritten)

/-- Another client's layer commits above it. -/
def blocked : Log :=
  unsealed.filled 1 .source [(.prop "Doc" "title" (.allocated .object 1 0 1), ⟨.int 2, 1, .source, none⟩)]

theorem halfOpened_owns : halfOpened.Owns halfHandle :=
  ⟨halfHandle.layer, by decide +kernel, rfl, rfl⟩

theorem halfWritten_owns : halfWritten.Owns halfHandle :=
  ⟨halfHandle.layer, by decide +kernel, rfl, rfl⟩

theorem halfWritten_reachable : halfWritten.FaultyReachable :=
  .tail (.tail (.tail .refl (.step (.createRoot none))) (.step (.openLayer 1 _ _ (by decide +kernel))))
    (.step (.put halfHandle _ _ halfOpened_owns))

/-- **A failed commit is neither.**  The layer stays sealed, and derivation waits for it for ever: a
range of the branch stops below it, however much commits above. -/
theorem commitWith_stranded :
    ¬ AllOrNothing halfWritten halfHandle (commitWith sealFails halfHandle halfWritten) ∧
      (unsealed.layer 1).map Layer.state = some .sealed ∧
      blocked.head 1 = some 2 ∧ blocked.span 1 0 = none := by
  have hrun := error_after (show failure (commitWith sealFails halfHandle halfWritten) =
    some (.storage "disk full") by decide +kernel)
  have hstate : (unsealed.layer 1).map Layer.state = some .sealed := by decide +kernel
  refine ⟨fun hall => ?_, hstate, by decide +kernel, by decide +kernel⟩
  rw [hrun] at hall
  have haborted : (unsealed.layer 1).map Layer.state = some .aborted := Undone.aborted hall
  rw [hstate] at haborted
  cases haborted

theorem commitWith_allOrNothing_iff_sealFails :
    AllOrNothing halfWritten halfHandle (commitWith sealFails halfHandle halfWritten) ↔
      Unharmed sealFails halfWritten halfHandle :=
  commitWith_allOrNothing_iff halfWritten_reachable halfWritten_owns sealFails

end Log

end BorgCore
