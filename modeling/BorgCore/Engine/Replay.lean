import Mathlib.Data.List.Dedup
import BorgCore.Engine.Branch
import BorgCore.Engine.Lineage

/-!
# What a merge lands

A merge validates every layer it would replay and only then writes.  Once the validation has passed
nothing can refuse it: each source layer of the child lands on the parent as a layer of its own, in
the order of their ids, with the same def events and the same events by name.
-/

namespace BorgCore

/-- A layer as a merge lands it. -/
def Commit.onto (commit : Commit) (parent : BranchId) : Commit :=
  { commit with branch := parent, author := .source, guards := [] }

namespace Log

variable {start log log' : Log} {handle : LayerHandle} {commit : Commit} {child parent : BranchId}
  {origin : LayerId}

/-! ### Filling a layer -/

theorem Writing.putDefs (hw : Writing start handle commit log) (events : List DefEvent)
    (hk : commit.kind = .value → events = []) :
    ∃ log', push.putDefs handle events log = .ok () log' ∧
      Writing start handle { commit with defs := commit.defs ++ events } log' := by
  induction events generalizing log commit with
  | nil => exact ⟨log, rfl, by simpa using hw⟩
  | cons event rest ih =>
    obtain ⟨log₁, hput, hw₁⟩ := hw.putDef (fun hv => by simpa using hk hv) event
    obtain ⟨log₂, hrest, hw₂⟩ := ih hw₁ fun hv => by simpa using hk hv
    refine ⟨log₂, ?_, by simpa using hw₂⟩
    rw [push.putDefs, Calls.bind_ok hput, hrest]

theorem Writing.stored (hw : Writing start handle commit log) {id : LayerId} {stored : Commit}
    {event : Event} (hc : start.commitAt id = some stored) (hm : event ∈ stored.events) :
    log.storage.events.lookup event.id = some event := by
  rw [← hw.commitAt] at hc
  obtain ⟨_, _, _, _, _, _, _, hcontents, _⟩ := commitAt_eq_some hc
  exact MemoryStorage.lookup_of_mem_contents hw.sound.storage (hcontents ▸ hm)

theorem Writing.includeAll (hw : Writing start handle commit log) (events : List Event)
    (hm : ∀ event ∈ events, ∃ id stored, start.commitAt id = some stored ∧ event ∈ stored.events) :
    ∃ log', includeAll handle (events.map Event.id) log = .ok () log' ∧
      Writing start handle { commit with events := commit.events ++ events } log' := by
  induction events generalizing log commit with
  | nil => exact ⟨log, rfl, by simpa using hw⟩
  | cons event rest ih =>
    obtain ⟨id, stored, hc, hmem⟩ := hm event List.mem_cons_self
    obtain ⟨log₁, hput, hw₁⟩ := hw.includeEvent (hw.stored hc hmem)
    obtain ⟨log₂, hrest, hw₂⟩ := ih hw₁ fun e he => hm e (List.mem_cons_of_mem _ he)
    refine ⟨log₂, ?_, by simpa using hw₂⟩
    rw [List.map_cons, Log.includeAll, Calls.bind_ok hput, hrest]

/-- **A push lands what its branch's definitions accept**, and is refused otherwise. -/
theorem push_run (h : log.Sound) (hb : (log.branches.lookup parent).isSome) (events : List DefEvent)
    {view : DefView} (hv : log.view (log.readPath parent none) = .ok view) :
    match view.applyAll log.nextLayer events with
    | .error err => ∃ log', push parent events log = .error err log' ∧ Lands log [] log'
    | .ok _ => ∃ log', push parent events log = .ok log.nextLayer log' ∧
        Lands log [(log.nextLayer, ⟨parent, .defs, .source, [], [], events⟩)] log' := by
  have hask : ask (fun log => log.view (log.readPath parent none)) log = .ok view log := by
    simp only [ask, hv]
  obtain ⟨handle, log₁, hopen, hw₁⟩ := Writing.openLayer h hb .defs .source
  have hid : handle.id = log.nextLayer := hw₁.id
  have hrun : push parent events log =
      (match view.applyAll handle.id events with
        | .error rejection => do
          abort handle
          throw rejection
        | .ok _ => do
          push.putDefs handle events
          commit handle : LogM LayerId) log₁ := by
    unfold push
    refine (Calls.bind_ok hask).trans ((Calls.bind_ok hopen).trans ?_)
    cases view.applyAll handle.id events <;> rfl
  rw [hrun, hid]
  cases view.applyAll log.nextLayer events with
  | error err =>
    obtain ⟨log₂, habort, hl⟩ := hw₁.aborts
    exact ⟨log₂, by simp only [Calls.bind_ok habort, Calls.throw_run], hl⟩
  | ok _ =>
    obtain ⟨log₂, hdefs, hw₂⟩ := hw₁.putDefs events nofun
    obtain ⟨log₃, hcommit, hl⟩ := hw₂.lands
    refine ⟨log₃, by simp only [Calls.bind_ok hdefs, hcommit, hid], ?_⟩
    simpa [hid] using hl

/-! ### Replaying -/

/-- A value layer has no def events. -/
def Unmixed (_ : LayerId) (commit : Commit) : Prop := commit.kind = .value → commit.defs = []

theorem replayLayer_run (h : log.Sound) (hp : (log.branches.lookup parent).isSome) {source : LayerId}
    (hc : log.commitAt source = some commit) (hu : Unmixed source commit) :
    ∃ log', replayLayer parent source commit.events log = .ok log.nextLayer log' ∧
      Lands log [(log.nextLayer, commit.onto parent)] log' := by
  obtain ⟨layer, hl, _, _, hk, _, _, _, hd⟩ := commitAt_eq_some hc
  obtain ⟨handle, log₁, hopen, hw₁⟩ := Writing.openLayer h hp commit.kind .source
  obtain ⟨log₂, hdefs, hw₂⟩ := hw₁.putDefs commit.defs hu
  obtain ⟨log₃, hevents, hw₃⟩ := hw₂.includeAll commit.events fun event hm => ⟨source, commit, hc, hm⟩
  obtain ⟨log₄, hcommit, hl₄⟩ := hw₃.lands
  refine ⟨log₄, ?_, by simpa [hw₃.id, Commit.onto, (hw₃.opened).2.2.2.2] using hl₄⟩
  have hkind : ((log.layer source).map Layer.kind).getD .value = commit.kind := by
    simp [Log.layer, hl, hk]
  rw [replayLayer, Calls.bind_ok Calls.get_run, hkind, Calls.bind_ok hopen, ← hd, Calls.bind_ok hdefs,
    Calls.bind_ok hevents, hcommit, hw₃.id]

/-- Validated layers are replayed one after another, and none is refused. -/
theorem replayLayers_run (h : log.Sound) (hp : (log.branches.lookup parent).isSome)
    (hu : log.All Unmixed) {sources : List (LayerId × Commit)}
    (hs : ∀ source ∈ sources, log.commitAt source.1 = some source.2) :
    ∃ landed log', replayLayers parent (sources.map fun source => (source.1, source.2.events)) log =
        .ok (landed.map Prod.fst) log' ∧
      Lands log landed log' ∧ landed.map Prod.snd = sources.map fun source => source.2.onto parent := by
  induction sources generalizing log with
  | nil => exact ⟨[], log, rfl, .refl h, rfl⟩
  | cons source rest ih =>
    have hc := hs source List.mem_cons_self
    obtain ⟨log₁, hrun, hl₁⟩ := replayLayer_run h hp hc (hu _ _ hc)
    have hu₁ : log₁.All Unmixed := hl₁.all hu fun landed hm => by
      rw [List.mem_singleton.1 hm]
      exact hu source.1 source.2 hc
    obtain ⟨landed, log₂, hrest, hl₂, hmap⟩ := ih hl₁.sound (hl₁.grows.registered hp) hu₁
      fun s hm => hl₁.grows.commits (hs s (List.mem_cons_of_mem _ hm))
    refine ⟨(log.nextLayer, source.2.onto parent) :: landed, log₂, ?_, hl₁.trans hl₂, ?_⟩
    · rw [List.map_cons, replayLayers, Calls.bind_ok hrun, Calls.bind_ok hrest]
      rfl
    · rw [List.map_cons, List.map_cons, hmap]

/-! ### What is replayed -/

theorem Sound.values_nodup (h : log.Sound) : (log.layers.values.map Layer.id).Nodup := by
  rw [AssocMap.map_values fun hl => (h.layer_id hl).1]
  exact AList.keys_nodup _

theorem Sound.mem_layersOf (h : log.Sound) {branch : BranchId} {layer : Layer} :
    layer ∈ log.layersOf branch ↔
      log.layers.lookup layer.id = some layer ∧ layer.branch = branch ∧ layer.state = .committed := by
  simp only [layersOf, List.mem_filter, decide_eq_true_eq, AssocMap.mem_values]
  refine and_congr_left fun _ => ⟨?_, fun hl => ⟨_, hl⟩⟩
  rintro ⟨id, hl⟩
  rw [(h.layer_id hl).1, hl]

theorem Sound.mem_replayableLayers (h : log.Sound) {mode : MergeMode} {id : LayerId} :
    id ∈ log.replayableLayers child mode ↔ ∃ commit, log.commitAt id = some commit ∧
      commit.branch = child ∧ commit.author.isSource ∧ (mode = .defOnly → commit.kind = .defs) := by
  simp only [replayableLayers, List.mem_insertionSort, List.mem_map, List.mem_filter, h.mem_layersOf,
    decide_eq_true_eq]
  constructor
  · rintro ⟨layer, ⟨⟨hl, hb, hs⟩, ha, hm⟩, rfl⟩
    exact ⟨_, commitAt_of_committed hl hs, hb, ha, hm⟩
  · rintro ⟨commit, hc, hb, ha, hm⟩
    obtain ⟨layer, hl, hs, hbr, hk, hau, _⟩ := commitAt_eq_some hc
    obtain ⟨rfl, _⟩ := h.layer_id hl
    exact ⟨layer, ⟨⟨hl, hbr ▸ hb, hs⟩, hau ▸ ha, fun hmode => hk ▸ hm hmode⟩, rfl⟩

theorem Sound.replayableLayers_sorted (h : log.Sound) (mode : MergeMode) :
    (log.replayableLayers child mode).Pairwise (· < ·) := by
  have hnodup : (log.replayableLayers child mode).Nodup := by
    refine List.Nodup.perm ?_ (List.perm_insertionSort _ _).symm
    exact h.values_nodup.sublist ((List.filter_sublist.trans List.filter_sublist).map _)
  exact (List.pairwise_insertionSort (· ≤ ·) _).imp₂
    (fun _ _ hle hne => Nat.lt_of_le_of_ne hle hne) hnodup

/-- The layers a merge replays, each with what it holds. -/
def sourcesOf (log : Log) (child : BranchId) (mode : MergeMode) : List (LayerId × Commit) :=
  (log.replayableLayers child mode).filterMap fun id => (log.commitAt id).map fun commit => (id, commit)

theorem mem_sourcesOf {mode : MergeMode} {source : LayerId × Commit} :
    source ∈ log.sourcesOf child mode ↔
      source.1 ∈ log.replayableLayers child mode ∧ log.commitAt source.1 = some source.2 := by
  simp only [sourcesOf, List.mem_filterMap, Option.map_eq_some_iff]
  constructor
  · rintro ⟨id, hid, commit, hc, rfl⟩
    exact ⟨hid, hc⟩
  · rintro ⟨hid, hc⟩
    exact ⟨source.1, hid, source.2, hc, rfl⟩

theorem Sound.sourcesOf_fst (h : log.Sound) (mode : MergeMode) :
    (log.sourcesOf child mode).map Prod.fst = log.replayableLayers child mode := by
  unfold sourcesOf
  rw [List.map_filterMap]
  have hsome : ∀ id ∈ log.replayableLayers child mode,
      ((log.commitAt id).map fun commit => (id, commit)).map Prod.fst = some id := by
    intro id hid
    obtain ⟨commit, hc, _⟩ := h.mem_replayableLayers.1 hid
    rw [hc]
    rfl
  rw [List.filterMap_congr hsome, List.filterMap_some]

/-! ### Validation -/

/-- Which fields a branch has moved since a layer. -/
def Moved (log : Log) (branch : BranchId) (since : LayerId) (key : FieldKey) : Prop :=
  ∃ id commit, log.commitAt id = some commit ∧ commit.branch = branch ∧ commit.kind = .defs ∧
    since < id ∧ ∃ event ∈ commit.defs, event.touches = some key

theorem Sound.mem_defsTouchedSince (h : log.Sound) {key : FieldKey} :
    key ∈ log.defsTouchedSince parent origin ↔ log.Moved parent origin key := by
  simp only [defsTouchedSince, List.mem_dedup, List.mem_flatMap, List.mem_filter, h.mem_layersOf,
    List.mem_filterMap, decide_eq_true_eq]
  constructor
  · rintro ⟨layer, ⟨⟨hl, hb, hs⟩, hk, hlt⟩, event, hm, ht⟩
    exact ⟨layer.id, _, commitAt_of_committed hl hs, hb, hk, hlt, event, hm, ht⟩
  · rintro ⟨id, commit, hc, hb, hk, hlt, event, hm, ht⟩
    obtain ⟨layer, hl, hs, hbr, hkind, _, _, _, hd⟩ := commitAt_eq_some hc
    obtain ⟨rfl, _⟩ := h.layer_id hl
    exact ⟨layer, ⟨⟨hl, hbr ▸ hb, hs⟩, hkind ▸ hk, hlt⟩, event, hd ▸ hm, ht⟩

theorem checkDiverged_ok {moved : List FieldKey} {events : List DefEvent} :
    checkDiverged moved events = .ok () ↔
      ∀ event ∈ events, ∀ key, event.touches = some key → key ∉ moved := by
  induction events with
  | nil => simp [checkDiverged]
  | cons event rest ih =>
    rw [checkDiverged, List.forall_mem_cons]
    cases ht : event.touches with
    | none => simpa using ih
    | some touched =>
      by_cases hm : touched ∈ moved
      · simp [hm]
      · simp [hm, ih]

theorem Sound.validateLayer_ok (h : log.Sound) {moved : List FieldKey} {layer : LayerId}
    {events : List Event} (hv : log.validateLayer parent origin moved layer = .ok events) :
    events = log.storage.contents layer ∧
      checkDiverged moved (log.storage.readDefLayer layer) = .ok () ∧
      log.checkDangling (log.readPath parent none) origin events = .ok () := by
  unfold validateLayer at hv
  simp only [h.storage.readLayer, bind, Except.bind, pure, Except.pure, throw, throwThe,
    MonadExceptOf.throw] at hv
  cases hd : checkDiverged moved (log.storage.readDefLayer layer) with
  | error err => simp [hd] at hv
  | ok _ =>
    rw [hd] at hv
    simp only at hv
    cases hg : log.checkGuards parent (((log.layer layer).map Layer.guards).getD []) (some origin) with
    | error err => simp [hg] at hv
    | ok _ =>
      rw [hg] at hv
      simp only at hv
      cases hdg : log.checkDangling (log.readPath parent none) origin (log.storage.contents layer) with
      | error err => simp [hdg] at hv
      | ok _ =>
        rw [hdg] at hv
        cases hv
        exact ⟨rfl, rfl, hdg⟩

/-- What a validation that passed has established about one layer. -/
structure Validated (log : Log) (parent : BranchId) (origin : LayerId) (source : LayerId × Commit) :
    Prop where
  diverged : ∀ event ∈ source.2.defs, ∀ key, event.touches = some key → ¬ log.Moved parent origin key
  dangling : log.checkDangling (log.readPath parent none) origin source.2.events = .ok ()

theorem Sound.validateLayers_ok (h : log.Sound) {sources : List (LayerId × Commit)}
    (hs : ∀ source ∈ sources, log.commitAt source.1 = some source.2)
    {staged : List (LayerId × List Event)}
    (hv : List.Forall₂ (fun layer found =>
      (do return (layer, ← log.validateLayer parent origin (log.defsTouchedSince parent origin) layer)) =
        Except.ok found) (sources.map Prod.fst) staged) :
    staged = sources.map (fun source => (source.1, source.2.events)) ∧
      ∀ source ∈ sources, log.Validated parent origin source := by
  induction sources generalizing staged with
  | nil =>
    cases hv
    exact ⟨rfl, by simp⟩
  | cons source rest ih =>
    obtain ⟨_, _, _, _, _, _, _, he, hd⟩ := commitAt_eq_some (hs source List.mem_cons_self)
    rw [List.map_cons] at hv
    cases hv with
    | @cons _ found _ staged' hfound hrest =>
      obtain ⟨rfl, hall⟩ := ih (fun s hm => hs s (List.mem_cons_of_mem _ hm)) hrest
      cases hl : log.validateLayer parent origin (log.defsTouchedSince parent origin) source.1 with
      | error err => simp [hl, bind, Except.bind] at hfound
      | ok events =>
        simp only [hl, bind, Except.bind, pure, Except.pure, Except.ok.injEq] at hfound
        obtain ⟨rfl, hdiv, hdang⟩ := h.validateLayer_ok hl
        rw [← he] at hfound hdang
        refine ⟨by rw [← hfound]; rfl, List.forall_mem_cons.2 ⟨⟨fun event hm key ht => ?_, hdang⟩, hall⟩⟩
        rw [← h.mem_defsTouchedSince]
        exact checkDiverged_ok.1 hdiv event (hd ▸ hm) key ht

theorem Sound.validateReplay_ok (h : log.Sound) {mode : MergeMode} {reads : List CellRef}
    {staged : List (LayerId × List Event)}
    (hv : log.validateReplay parent origin (log.replayableLayers child mode) reads = .ok staged) :
    staged = (log.sourcesOf child mode).map (fun source => (source.1, source.2.events)) ∧
      log.checkReads parent reads origin = .ok () ∧
      ∀ source ∈ log.sourcesOf child mode, log.Validated parent origin source := by
  unfold validateReplay at hv
  cases hr : log.checkReads parent reads origin with
  | error err => simp [hr, bind, Except.bind, throw, throwThe, MonadExceptOf.throw] at hv
  | ok _ =>
    simp only [hr, bind, Except.bind, pure, Except.pure] at hv
    rw [← h.sourcesOf_fst] at hv
    obtain ⟨hstaged, hall⟩ := h.validateLayers_ok (fun source hm => (mem_sourcesOf.1 hm).2)
      (Calls.forall₂_of_mapM hv)
    exact ⟨hstaged, rfl, hall⟩

/-- What a merge that went through did. -/
structure Replayed (log : Log) (child parent : BranchId) (origin : LayerId) (mode : MergeMode)
    (reads : List CellRef) (landed : List (LayerId × Commit)) (log' : Log) : Prop where
  lands : Lands log landed log'
  carried : landed.map Prod.snd = (log.sourcesOf child mode).map fun source => source.2.onto parent
  guarded : log.checkReads parent reads origin = .ok ()
  validated : ∀ source ∈ log.sourcesOf child mode, log.Validated parent origin source

/-- **A merge either refuses and leaves the log alone, or replays everything.** -/
theorem replay_run (h : log.Sound) (hp : (log.branches.lookup parent).isSome) (hu : log.All Unmixed)
    (origin : LayerId) (mode : MergeMode) (reads : List CellRef) :
    (∃ err, replay child parent origin mode reads log = .error err log) ∨
      ∃ landed log', replay child parent origin mode reads log = .ok (landed.map Prod.fst) log' ∧
        log.Replayed child parent origin mode reads landed log' := by
  cases hv : log.validateReplay parent origin (log.replayableLayers child mode) reads with
  | error err =>
    have hask : ask (fun log => log.validateReplay parent origin (log.replayableLayers child mode)
        reads) log = .error err log := by
      simp only [ask, hv]
    exact Or.inl ⟨err, by rw [replay, Calls.bind_error hask]⟩
  | ok staged =>
    obtain ⟨rfl, hr, hall⟩ := h.validateReplay_ok hv
    have hask : ask (fun log => log.validateReplay parent origin (log.replayableLayers child mode)
        reads) log =
        .ok ((log.sourcesOf child mode).map fun source => (source.1, source.2.events)) log := by
      simp only [ask, hv]
    obtain ⟨landed, log', hrun, hl, hmap⟩ :=
      replayLayers_run h hp hu fun source hm => (mem_sourcesOf.1 hm).2
    refine Or.inr ⟨landed, log', ?_, hl, hmap, hr, hall⟩
    rw [replay, Calls.bind_ok hask, hrun]

theorem merge_run (h : log.Sound) (hu : log.All Unmixed) (child : BranchId) (mode : MergeMode) :
    (∃ err, merge child mode log = .error err log) ∨
      ∃ parent origin landed log', log.outward child = some (parent, origin) ∧
        merge child mode log = .ok (landed.map Prod.fst) log' ∧
        log.Replayed child parent origin mode [] landed log' := by
  rw [merge, Calls.bind_ok Calls.get_run]
  cases ho : (log.branch child).bind Branch.origin with
  | none => exact Or.inl ⟨_, rfl⟩
  | some origin =>
    cases hl : log.layer origin with
    | none =>
      have hp : log.parentOf child = none := by simp [parentOf, ho, hl]
      simp only [hp]
      exact Or.inl ⟨_, rfl⟩
    | some layer =>
      have hp : log.parentOf child = some layer.branch := by simp [parentOf, ho, hl]
      have hout : log.outward child = some (layer.branch, origin) := by simp [outward, ho, hl]
      simp only [hp]
      rcases replay_run h (h.outward_registered hout) hu origin mode [] with ⟨err, he⟩ | ⟨landed, log', hr, hrep⟩
      · exact Or.inl ⟨err, he⟩
      · exact Or.inr ⟨layer.branch, origin, landed, log', hout, hr, hrep⟩

/-! ### The names a merge gives -/

/-- Where each element of one list is paired with one of another. -/
def pairing (sources targets : List LayerId) (id : LayerId) : LayerId :=
  ((sources.zip targets).lookup id).getD id

theorem pairing_map {sources targets : List LayerId} (hn : sources.Nodup)
    (hl : targets.length = sources.length) : sources.map (pairing sources targets) = targets := by
  induction sources generalizing targets with
  | nil => exact (List.length_eq_zero_iff.1 hl).symm
  | cons source rest ih =>
    match targets with
    | [] => cases hl
    | target :: targets =>
      obtain ⟨hout, hn⟩ := List.nodup_cons.1 hn
      have hrest : rest.map (pairing (source :: rest) (target :: targets)) =
          rest.map (pairing rest targets) := by
        refine List.map_congr_left fun id hid => ?_
        have hne : (id == source) = false := by
          simpa using fun he : id = source => hout (he ▸ hid)
        simp [pairing, List.lookup_cons, hne]
      rw [List.map_cons, hrest, ih hn (Nat.succ.inj hl)]
      simp [pairing]

theorem pairing_of_notMem {sources targets : List LayerId} {id : LayerId} (h : id ∉ sources) :
    pairing sources targets id = id := by
  have hnone : (sources.zip targets).lookup id = none := by
    rw [List.lookup_eq_none_iff]
    intro entry hm
    simpa using fun he : id = entry.1 => h (he ▸ (List.of_mem_zip hm).1)
  simp [pairing, hnone]

/-- **A merge renames.**  Each layer replayed is given a new name and is otherwise itself; every other
layer keeps its own. -/
theorem Replayed.names {mode : MergeMode} {reads : List CellRef} {landed : List (LayerId × Commit)}
    (hr : log.Replayed child parent origin mode reads landed log') (h : log.Sound) :
    ∃ names : LayerId → LayerId,
      landed = (log.sourcesOf child mode).map (fun source => (names source.1, source.2.onto parent)) ∧
      ∀ id ∉ log.replayableLayers child mode, names id = id := by
  let sources := log.sourcesOf child mode
  have hlen : landed.length = sources.length := by
    simpa using congrArg List.length hr.carried
  have hnodup : (sources.map Prod.fst).Nodup := by
    rw [h.sourcesOf_fst]
    exact (h.replayableLayers_sorted mode).imp Nat.ne_of_lt
  refine ⟨pairing (sources.map Prod.fst) (landed.map Prod.fst), ?_, fun id hid => ?_⟩
  · have hfst := pairing_map hnodup (by simpa using hlen : (landed.map Prod.fst).length = _)
    rw [List.map_map] at hfst
    generalize pairing (sources.map Prod.fst) (landed.map Prod.fst) = names at hfst ⊢
    rw [← List.zip_unzip landed, List.unzip_eq_map, hr.carried, ← hfst]
    simp [List.zip_map', sources]
  · refine pairing_of_notMem fun hm => hid ?_
    rwa [h.sourcesOf_fst] at hm

end Log

end BorgCore
