import BorgCore.Engine.Replay

/-!
# What a call leaves alone

A call works on its own layers.  Every other open layer stays open and goes on holding what it held,
whoever commits, merges or pushes meanwhile: `Spares` is the frame of each call.
-/

namespace BorgCore

namespace Log

variable {log log' log'' start : Log} {handle : LayerHandle} {own : LayerId → Prop}
  {parent child : BranchId}

/-- Every open layer but the call's own stays open and holds what it held. -/
def Spares (own : LayerId → Prop) (log log' : Log) : Prop :=
  ∀ handle, ¬ own handle.id → log.Owns handle →
    log'.Owns handle ∧ log'.pendingAt handle.id = log.pendingAt handle.id

theorem Spares.refl (own : LayerId → Prop) (log : Log) : Spares own log log :=
  fun _ _ ho => ⟨ho, rfl⟩

theorem Spares.trans (h : Spares own log log') (h' : Spares own log' log'') :
    Spares own log log'' := by
  intro handle hown ho
  obtain ⟨ho', hp⟩ := h handle hown ho
  obtain ⟨ho'', hp'⟩ := h' handle hown ho'
  exact ⟨ho'', hp'.trans hp⟩

theorem Spares.mono {own' : LayerId → Prop} (h : Spares own log log')
    (himp : ∀ id, own id → own' id) : Spares own' log log' :=
  fun handle hown ho => h handle (fun hid => hown (himp _ hid)) ho

theorem Sound.owns_lt (h : log.Sound) (ho : log.Owns handle) : handle.id < log.nextLayer := by
  obtain ⟨layer, hl, _⟩ := ho
  exact (h.layer_id hl).2.2

/-! ### The moves -/

theorem spares_branched (name : Option String) (origin : Option LayerId) :
    Spares own log (log.branched name origin) :=
  fun _ _ ho => ⟨ho, rfl⟩

theorem spares_opened (h : log.Sound) (branch : BranchId) (kind : LayerKind) (author : LayerAuthor) :
    Spares own log (log.opened branch kind author) := by
  intro handle _ ho
  have hne : handle.id ≠ log.nextLayer := Nat.ne_of_lt (h.owns_lt ho)
  obtain ⟨layer, hl, hs, he⟩ := ho
  refine ⟨⟨layer, ?_, hs, he⟩, by rw [pendingAt_opened, if_neg hne]⟩
  show (log.layers.insert log.nextLayer _).lookup handle.id = some layer
  rw [AssocMap.lookup_insert_eq, if_neg hne, hl]

theorem spares_restaged {staged : StagedLayer} {next : EventId} {layer : Layer}
    (hl : log.layers.lookup handle.id = some layer) :
    Spares (· = handle.id) log (log.restaged handle.id staged next) := by
  intro other hne ho
  exact ⟨ho.of_layers rfl, by rw [pendingAt_restaged hl, if_neg hne]⟩

theorem spares_discarded : Spares (· = handle.id) log (log.discarded handle.layer) := by
  intro other hne ho
  obtain ⟨layer, hl, hs, he⟩ := ho
  refine ⟨⟨layer, ?_, hs, he⟩, by rw [pendingAt_discarded, if_neg hne]⟩
  show (log.layers.insert handle.id _).lookup other.id = some layer
  rw [AssocMap.lookup_insert_eq, if_neg hne, hl]

theorem spares_landing (h : log.Sound) {staged : StagedLayer}
    (hst : log.storage.staged.lookup handle.id = some staged) :
    Spares (· = handle.id) log (log.landing handle.layer staged) := by
  intro other hne ho
  obtain ⟨layer, hl, hs, he⟩ := ho
  refine ⟨⟨layer, ?_, hs, he⟩, by rw [pendingAt_landing h hst, if_neg hne]⟩
  show (log.layers.insert handle.id _).lookup other.id = some layer
  rw [AssocMap.lookup_insert_eq, if_neg hne, hl]

/-! ### Calls on one layer -/

section Calls

variable (h : log.Sound) (ho : log.Owns handle)

include h ho

theorem put_spares (cell : CellRef) (draft : EventDraft) :
    Spares (· = handle.id) log (after (put handle cell draft log)) := by
  obtain ⟨staged, hst, _, hf⟩ := h.staged_of_owns ho
  obtain ⟨layer, hl, _⟩ := ho
  rw [put_run cell draft hst hf]
  exact spares_restaged hl

theorem includeEvent_spares (event : EventId) :
    Spares (· = handle.id) log (after (includeEvent handle event log)) := by
  obtain ⟨staged, hst, _, hf⟩ := h.staged_of_owns ho
  obtain ⟨layer, hl, _⟩ := ho
  cases he : log.storage.events.lookup event with
  | none =>
    have hrun : includeEvent handle event log = .error (.storage s!"unknown event e{event}") log := by
      simp only [includeEvent, store, MemoryStorage.includeEvent, he]
    rw [hrun]
    exact .refl _ _
  | some found =>
    rw [includeEvent_run (by rw [he]; rfl) hst hf]
    exact spares_restaged hl

theorem putDef_spares (event : DefEvent) :
    Spares (· = handle.id) log (after (putDef handle event log)) := by
  obtain ⟨staged, hst, _, hf⟩ := h.staged_of_owns ho
  obtain ⟨layer, hl, _⟩ := ho
  by_cases hk : handle.layer.kind = .value
  · have hrun : putDef handle event log = .error .mixedLayerKind log := by
      simp [putDef, hk]
    rw [hrun]
    exact .refl _ _
  · rw [putDef_run event hk hst hf]
    exact spares_restaged hl

theorem commit_spares : Spares (· = handle.id) log (after (commit handle log)) := by
  obtain ⟨staged, hst, _, _⟩ := h.staged_of_owns ho
  rw [commit_run h ho hst]
  split
  · exact spares_landing h hst
  · exact spares_discarded

theorem abort_spares : Spares (· = handle.id) log (after (abort handle log)) := by
  rw [abort_run h ho]
  exact spares_discarded

end Calls

/-! ### Whole calls -/

/-- The members a call gives its own layer. -/
theorem Writing.putDefs_spares {commit : Commit} (hw : Writing start handle commit log)
    (events : List DefEvent) (hk : commit.kind = .value → events = []) :
    Spares (· = handle.id) log (after (push.putDefs handle events log)) := by
  induction events generalizing log commit with
  | nil => exact .refl _ _
  | cons event rest ih =>
    obtain ⟨log₁, hput, hw₁⟩ := hw.putDef (fun hv => by simpa using hk hv) event
    have hfirst := putDef_spares hw.sound hw.owns event
    rw [hput, after_ok] at hfirst
    rw [push.putDefs, Calls.bind_ok hput]
    exact hfirst.trans (ih hw₁ fun hv => by simpa using hk hv)

theorem Writing.includeAll_spares {commit : Commit} (hw : Writing start handle commit log)
    (events : List Event)
    (hm : ∀ event ∈ events, ∃ id stored, start.commitAt id = some stored ∧ event ∈ stored.events) :
    Spares (· = handle.id) log (after (Log.includeAll handle (events.map Event.id) log)) := by
  induction events generalizing log commit with
  | nil => exact .refl _ _
  | cons event rest ih =>
    obtain ⟨id, stored, hc, hmem⟩ := hm event List.mem_cons_self
    obtain ⟨log₁, hput, hw₁⟩ := hw.includeEvent (hw.stored hc hmem)
    have hfirst := includeEvent_spares hw.sound hw.owns event.id
    rw [hput, after_ok] at hfirst
    rw [List.map_cons, Log.includeAll, Calls.bind_ok hput]
    exact hfirst.trans (ih hw₁ fun e he => hm e (List.mem_cons_of_mem _ he))

theorem Writing.open_spares (h : log.Sound) {branch : BranchId} {kind : LayerKind}
    {author : LayerAuthor} (hopen : Log.openLayer branch kind author log = .ok handle log') :
    Spares own log log' := by
  rw [openLayer_run branch kind author h] at hopen
  cases hopen
  exact spares_opened h branch kind author

/-- A push works on one layer, the next. -/
theorem push_spares (h : log.Sound) (hb : (log.branches.lookup parent).isSome)
    (events : List DefEvent) :
    Spares (log.nextLayer ≤ ·) log (after (push parent events log)) := by
  cases hv : log.view (log.readPath parent none) with
  | error err =>
    have hask : ask (fun log => log.view (log.readPath parent none)) log = .error err log := by
      simp only [ask, hv]
    have hrun : push parent events log = .error err log := Calls.bind_error hask
    rw [hrun]
    exact .refl _ _
  | ok view =>
    have hask : ask (fun log => log.view (log.readPath parent none)) log = .ok view log := by
      simp only [ask, hv]
    obtain ⟨handle, log₁, hopen, hw₁⟩ := Writing.openLayer h hb .defs .source
    have hown : ∀ id, id = handle.id → log.nextLayer ≤ id := by
      intro id hid
      rw [hid, hw₁.id]
    refine (Writing.open_spares h hopen).trans (Spares.mono ?_ hown)
    cases ha : view.applyAll handle.id events with
    | error err =>
      obtain ⟨log₂, habort, _⟩ := hw₁.aborts
      have hspares := abort_spares hw₁.sound hw₁.owns
      have hrun : push parent events log = .error err log₂ := by
        unfold push
        refine (Calls.bind_ok hask).trans ((Calls.bind_ok hopen).trans ?_)
        simp only [ha]
        exact (Calls.bind_ok habort).trans rfl
      rw [habort, after_ok] at hspares
      rw [hrun]
      exact hspares
    | ok next =>
      have hdefs := hw₁.putDefs_spares events (by intro hkind; cases hkind)
      obtain ⟨log₂, hput, hw₂⟩ := hw₁.putDefs events (by intro hkind; cases hkind)
      have hrun : push parent events log = commit handle log₂ := by
        unfold push
        refine (Calls.bind_ok hask).trans ((Calls.bind_ok hopen).trans ?_)
        simp only [ha]
        exact (Calls.bind_ok hput).trans rfl
      rw [hput, after_ok] at hdefs
      rw [hrun]
      exact hdefs.trans (commit_spares hw₂.sound hw₂.owns)

theorem replayLayer_spares (h : log.Sound) (hp : (log.branches.lookup parent).isSome)
    {source : LayerId} {commit : Commit} (hc : log.commitAt source = some commit)
    (hu : Unmixed source commit) :
    Spares (log.nextLayer ≤ ·) log (after (replayLayer parent source commit.events log)) := by
  obtain ⟨layer, hl, _, _, hk, _, _, _, hd⟩ := commitAt_eq_some hc
  obtain ⟨handle, log₁, hopen, hw₁⟩ := Writing.openLayer h hp commit.kind .source
  have hmembers : ∀ event ∈ commit.events, ∃ id stored,
      log.commitAt id = some stored ∧ event ∈ stored.events := fun event hm => ⟨source, commit, hc, hm⟩
  have hdefs := hw₁.putDefs_spares commit.defs hu
  obtain ⟨log₂, hput, hw₂⟩ := hw₁.putDefs commit.defs hu
  have hevents := hw₂.includeAll_spares commit.events hmembers
  obtain ⟨log₃, hall, hw₃⟩ := hw₂.includeAll commit.events hmembers
  rw [hput, after_ok] at hdefs
  rw [hall, after_ok] at hevents
  have hkind : ((log.layer source).map Layer.kind).getD .value = commit.kind := by
    simp [Log.layer, hl, hk]
  rw [replayLayer, Calls.bind_ok Calls.get_run, hkind, Calls.bind_ok hopen, ← hd, Calls.bind_ok hput,
    Calls.bind_ok hall]
  have hown : ∀ id, id = handle.id → log.nextLayer ≤ id := by
    intro id hid
    rw [hid, hw₁.id]
  have hfilled := (hdefs.trans hevents).trans (commit_spares hw₃.sound hw₃.owns)
  exact (Writing.open_spares h hopen).trans (hfilled.mono hown)

/-- **A merge works on layers of its own.** -/
theorem replayLayers_spares (h : log.Sound) (hp : (log.branches.lookup parent).isSome)
    (hu : log.All Unmixed) {sources : List (LayerId × Commit)}
    (hs : ∀ source ∈ sources, log.commitAt source.1 = some source.2) :
    Spares (log.nextLayer ≤ ·) log (after
      (replayLayers parent (sources.map fun source => (source.1, source.2.events)) log)) := by
  induction sources generalizing log with
  | nil => exact .refl _ _
  | cons source rest ih =>
    have hc := hs source List.mem_cons_self
    have hfirst := replayLayer_spares h hp hc (hu _ _ hc)
    obtain ⟨log₁, hrun, hl₁⟩ := replayLayer_run h hp hc (hu _ _ hc)
    have hu₁ : log₁.All Unmixed := hl₁.all hu fun landed hm => by
      rw [List.mem_singleton.1 hm]
      exact hu source.1 source.2 hc
    have hs₁ : ∀ source ∈ rest, log₁.commitAt source.1 = some source.2 :=
      fun s hm => hl₁.grows.commits (hs s (List.mem_cons_of_mem _ hm))
    have hrest := ih hl₁.sound (hl₁.grows.registered hp) hu₁ hs₁
    obtain ⟨landed, log₂, hrun₂, _, _⟩ := replayLayers_run hl₁.sound (hl₁.grows.registered hp) hu₁ hs₁
    rw [hrun, after_ok] at hfirst
    rw [hrun₂, after_ok] at hrest
    rw [List.map_cons, replayLayers, Calls.bind_ok hrun, Calls.bind_ok hrun₂]
    exact hfirst.trans (hrest.mono fun id hid => Nat.le_trans hl₁.grows.next hid)

theorem replay_spares (h : log.Sound) (hp : (log.branches.lookup parent).isSome) (hu : log.All Unmixed)
    (origin : LayerId) (mode : MergeMode) (reads : List CellRef) :
    Spares (log.nextLayer ≤ ·) log (after (replay child parent origin mode reads log)) := by
  cases hv : log.validateReplay parent origin (log.replayableLayers child mode) reads with
  | error err =>
    have hask : ask (fun log => log.validateReplay parent origin (log.replayableLayers child mode)
        reads) log = .error err log := by
      simp only [ask, hv]
    rw [replay, Calls.bind_error hask]
    exact .refl _ _
  | ok staged =>
    obtain ⟨rfl, _, _⟩ := h.validateReplay_ok hv
    have hask : ask (fun log => log.validateReplay parent origin (log.replayableLayers child mode)
        reads) log =
        .ok ((log.sourcesOf child mode).map fun source => (source.1, source.2.events)) log := by
      simp only [ask, hv]
    rw [replay, Calls.bind_ok hask]
    exact replayLayers_spares h hp hu fun source hm => (mem_sourcesOf.1 hm).2

theorem merge_spares (h : log.Sound) (hu : log.All Unmixed) (child : BranchId) (mode : MergeMode) :
    Spares (log.nextLayer ≤ ·) log (after (merge child mode log)) := by
  rw [merge, Calls.bind_ok Calls.get_run]
  cases ho : (log.branch child).bind Branch.origin with
  | none => exact .refl _ _
  | some origin =>
    cases hl : log.layer origin with
    | none =>
      have hp : log.parentOf child = none := by simp [parentOf, ho, hl]
      simp only [hp]
      exact .refl _ _
    | some layer =>
      have hp : log.parentOf child = some layer.branch := by simp [parentOf, ho, hl]
      have hout : log.outward child = some (layer.branch, origin) := by simp [outward, ho, hl]
      simp only [hp]
      exact replay_spares h (h.outward_registered hout) hu origin mode []

end Log

end BorgCore
