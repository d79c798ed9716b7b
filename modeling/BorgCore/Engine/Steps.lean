import BorgCore.Engine.Sound

/-!
# What each call of the log does

For every call, the state it leaves behind where its layer is open, that `Sound` survives it, and
what becomes of the timeline and of the pending layers.  Only a commit that passes its guards moves
the timeline, and it moves it at one id.
-/

namespace BorgCore

namespace Log

variable {log : Log}

/-! ### Opening a layer -/

def openedLayer (log : Log) (branch : BranchId) (kind : LayerKind) (author : LayerAuthor) : Layer :=
  { id := log.nextLayer, branch, kind, author, state := .open, parent := log.head branch, guards := [] }

def opened (log : Log) (branch : BranchId) (kind : LayerKind) (author : LayerAuthor) : Log :=
  { log with
    nextLayer := log.nextLayer + 1
    layers := log.layers.insert log.nextLayer (log.openedLayer branch kind author)
    storage := { log.storage with
      staged := log.storage.staged.insert log.nextLayer (.fresh branch) } }

theorem Sound.not_staged (h : log.Sound) {id : LayerId} (hid : log.nextLayer ≤ id) :
    log.storage.staged.lookup id = none := by
  rcases hs : log.storage.staged.lookup id with _ | staged
  · rfl
  · obtain ⟨layer, hl, _⟩ := h.staged_iff.1 (by rw [hs]; rfl)
    rw [h.layer_next hid] at hl
    cases hl

theorem Sound.not_member (h : log.Sound) {id : LayerId} (hid : log.commitAt id = none) :
    log.storage.members.lookup id = none := by
  rcases hm : log.storage.members.lookup id with _ | membership
  · rfl
  · obtain ⟨commit, hc, _⟩ := (h.projected.members_iff _ _).1 ⟨membership, hm, rfl⟩
    rw [hid] at hc
    cases hc

section Open

variable (branch : BranchId) (kind : LayerKind) (author : LayerAuthor)

theorem openLayer_run (h : log.Sound) :
    openLayer branch kind author log =
      .ok ⟨log.openedLayer branch kind author⟩ (log.opened branch kind author) := by
  have hs := MemoryStorage.openLayer_run branch (h.not_staged (le_refl _))
    (h.not_member (h.commitAt_next (le_refl _)))
  simp only [openLayer, store, openedLayer, opened] at hs ⊢
  rw [hs]

theorem commitAt_opened (h : log.Sound) (id : LayerId) :
    (log.opened branch kind author).commitAt id = log.commitAt id := by
  by_cases hid : id = log.nextLayer
  · subst hid
    rw [h.commitAt_next (le_refl _)]
    simp [commitAt, opened, openedLayer]
  · simp only [commitAt, opened, AssocMap.lookup_insert_eq, hid, if_false]
    rfl

theorem pendingAt_opened (id : LayerId) :
    (log.opened branch kind author).pendingAt id =
      if id = log.nextLayer then some ⟨branch, kind, author, [], [], []⟩ else log.pendingAt id := by
  by_cases hid : id = log.nextLayer
  · subst hid
    simp [pendingAt, opened, openedLayer, MemoryStorage.stagedContents, StagedLayer.fresh]
  · simp only [pendingAt, opened, AssocMap.lookup_insert_eq, hid, if_false]
    rfl

theorem branchOf_opened (id : LayerId) :
    (log.opened branch kind author).branchOf id =
      if id = log.nextLayer then some branch else log.branchOf id := by
  by_cases hid : id = log.nextLayer
  · subst hid
    simp [branchOf, layer, opened, openedLayer]
  · simp [branchOf, layer, opened, hid]

theorem Sound.opened (h : log.Sound) (hb : (log.branches.lookup branch).isSome) :
    (log.opened branch kind author).Sound where
  storage := h.storage.openLayer branch (h.not_member (h.commitAt_next (le_refl _)))
  projected := h.projected.congr (commitAt_opened branch kind author h) rfl rfl rfl rfl
  next_pos := Nat.succ_pos _
  layer_id {id layer} hl := by
    simp only [Log.opened, AssocMap.lookup_insert_eq] at hl
    split at hl
    · cases hl
      subst id
      exact ⟨rfl, h.next_pos, Nat.lt_succ_self _⟩
    · obtain ⟨h₁, h₂, h₃⟩ := h.layer_id hl
      exact ⟨h₁, h₂, Nat.lt_succ_of_lt h₃⟩
  layer_branch {id layer} hl := by
    simp only [Log.opened, AssocMap.lookup_insert_eq] at hl
    split at hl
    · cases hl
      subst id
      obtain ⟨found, hf⟩ := Option.isSome_iff_exists.1 hb
      refine ⟨found, hf, fun origin ho => ?_⟩
      obtain ⟨parent, hp, _⟩ := (h.branch_id hf).2.2 origin ho
      obtain ⟨layer, hl, _⟩ := Option.map_eq_some_iff.1 hp
      exact (h.layer_id hl).2.2
    · exact h.layer_branch hl
  branch_id {id found} hf := by
    obtain ⟨h₁, h₂, h₃⟩ := h.branch_id hf
    refine ⟨h₁, h₂, fun origin ho => ?_⟩
    obtain ⟨parent, hp, hlt⟩ := h₃ origin ho
    obtain ⟨layer, hl, _⟩ := Option.map_eq_some_iff.1 hp
    have hne : origin ≠ log.nextLayer := Nat.ne_of_lt (h.layer_id hl).2.2
    exact ⟨parent, by rw [branchOf_opened, if_neg hne, hp], hlt⟩
  staged_iff {id} := by
    simp only [Log.opened, AssocMap.lookup_insert_eq]
    split
    · simp [openedLayer]
    · exact h.staged_iff
  staged_branch {id layer staged} hl hs := by
    simp only [Log.opened, AssocMap.lookup_insert_eq] at hl hs
    split at hl
    · rw [if_pos (by assumption)] at hs
      cases hl; cases hs
      exact ⟨rfl, rfl⟩
    · rw [if_neg (by assumption)] at hs
      exact h.staged_branch hl hs
  open_guards {id layer} hl := by
    simp only [Log.opened, AssocMap.lookup_insert_eq] at hl
    split at hl
    · cases hl
      exact fun _ => rfl
    · exact h.open_guards hl
  meta_iff {id layer} := by
    simp only [Log.opened, AssocMap.lookup_insert_eq]
    split
    · subst id
      rw [h.meta_iff, h.layer_next (le_refl _)]
      constructor
      · rintro ⟨⟨⟩, _⟩
      · rintro ⟨hl, hs⟩
        cases hl
        cases hs
    · exact h.meta_iff

end Open

/-! ### Writing into an open layer -/

/-- A staged layer rewritten, with the event counter moved up. -/
def restaged (log : Log) (id : LayerId) (staged : StagedLayer) (next : EventId) : Log :=
  { log with storage := { log.storage with
      nextEvent := next, staged := log.storage.staged.insert id staged } }

section Write

variable {handle : LayerHandle} {staged staged' : StagedLayer} {id : LayerId} {next : EventId}

theorem put_run (cell : CellRef) (draft : EventDraft)
    (hs : log.storage.staged.lookup handle.id = some staged) (ho : staged.isSealed = false) :
    put handle cell draft log =
      .ok (log.storage.nextEvent + 1)
        (log.restaged handle.id
          (staged.author (draft.event (log.storage.nextEvent + 1) cell handle.id))
          (log.storage.nextEvent + 1)) := by
  simp only [put, store, MemoryStorage.authorEvent_run cell draft hs ho, restaged]

theorem includeEvent_run {event : EventId} (he : (log.storage.events.lookup event).isSome)
    (hs : log.storage.staged.lookup handle.id = some staged) (ho : staged.isSealed = false) :
    includeEvent handle event log =
      .ok () (log.restaged handle.id (staged.name event) log.storage.nextEvent) := by
  simp only [includeEvent, store, MemoryStorage.includeEvent_run he hs ho, restaged]

theorem putDef_run (event : DefEvent) (hk : handle.layer.kind ≠ .value)
    (hs : log.storage.staged.lookup handle.id = some staged) (ho : staged.isSealed = false) :
    putDef handle event log =
      .ok () (log.restaged handle.id (staged.define event) log.storage.nextEvent) := by
  simp only [putDef, hk, ne_eq, not_false_eq_true, if_true, store,
    MemoryStorage.putDef_run event hs ho, restaged]

theorem pendingAt_restaged {layer : Layer} (hl : log.layers.lookup id = some layer) (id' : LayerId) :
    (log.restaged id staged' next).pendingAt id' =
      if id' = id then some ⟨layer.branch, layer.kind, layer.author, [],
        log.storage.stagedContents staged', staged'.defs⟩
      else log.pendingAt id' := by
  by_cases hid : id' = id
  · subst hid
    simp only [pendingAt, restaged, AssocMap.lookup_insert_eq, hl, if_true]
    rfl
  · simp only [pendingAt, restaged, AssocMap.lookup_insert_eq, hid, if_false]
    rfl

theorem Sound.restaged (h : log.Sound)
    (hstore : (log.restaged id staged' next).storage.Sound)
    (hs : log.storage.staged.lookup id = some staged) (hb : staged'.branch = staged.branch)
    (ho : staged'.isSealed = staged.isSealed) : (log.restaged id staged' next).Sound where
  storage := hstore
  projected := h.projected.congr (fun _ => rfl) rfl rfl rfl rfl
  next_pos := h.next_pos
  layer_id := h.layer_id
  layer_branch := h.layer_branch
  branch_id := h.branch_id
  staged_iff {id'} := by
    refine Iff.trans ?_ h.staged_iff
    simp only [Log.restaged, AssocMap.lookup_insert_eq]
    split
    · subst id'
      simp [hs]
    · rfl
  staged_branch {id' layer st} hl hst := by
    simp only [Log.restaged, AssocMap.lookup_insert_eq] at hl hst
    split at hst
    · cases hst
      subst id'
      rw [hb, ho]
      exact h.staged_branch hl hs
    · exact h.staged_branch hl hst
  open_guards := h.open_guards
  meta_iff := h.meta_iff

end Write

/-! ### Layers that end -/

theorem erase_insert {α β : Type} [DecidableEq α] (m : AssocMap α β) (a : α) (b : β) :
    (m.insert a b).erase a = m.erase a := by
  refine AList.ext ?_
  show List.kerase a (⟨a, b⟩ :: List.kerase a m.entries) = List.kerase a m.entries
  exact List.kerase_cons_eq rfl

theorem transition_run {id : LayerId} {layer : Layer} {expected : LayerState}
    (hl : log.layers.lookup id = some layer) (hs : layer.state = expected) (next : LayerState) :
    transition id expected next log =
      .ok () { log with layers := log.layers.insert id { layer with state := next } } := by
  simp [transition, Log.layer, hl, hs]

/-- A log in which an open layer has been discarded. -/
def discarded (log : Log) (layer : Layer) : Log :=
  { log with
    layers := log.layers.insert layer.id { layer with state := .aborted, guards := [] }
    storage := { log.storage with staged := log.storage.staged.erase layer.id } }

/-- The log a guard check at seal sees: the layer is sealed, and nothing else has moved. -/
def sealing (log : Log) (layer : Layer) : Log :=
  { log with layers := log.layers.insert layer.id { layer with state := .sealed, guards := [] } }

/-- The log once a layer has become visible. -/
def landing (log : Log) (layer : Layer) (staged : StagedLayer) : Log :=
  let committed := { layer with state := .committed }
  let storage := log.storage.landed layer.id staged
  { log with
    storage := { storage with layerMeta := storage.layerMeta.insert layer.id committed }
    layers := log.layers.insert layer.id committed
    heads := log.heads.insert layer.branch (max layer.id ((log.head layer.branch).getD layer.id))
    defLayers :=
      if layer.kind = .defs then
        log.defLayers.insert layer.branch (log.defLayers.getD layer.branch [] ++ [layer.id])
      else log.defLayers
    touches := log.touches.apply committed (log.storage.stagedContents staged)
    frontier :=
      match layer.author with
      | .source => log.frontier
      | .derived producer reflects => log.frontier.advance layer.branch producer reflects }

/-- A commit projects what the layer holds: cells into the touch index, or a watermark. -/
theorem project_run {layer : Layer} {events : List Event}
    (hread : log.storage.readLayer layer.id = .ok events) :
    project layer log = .ok () { log with
      touches := log.touches.apply layer events
      frontier :=
        match layer.author with
        | .source => log.frontier
        | .derived producer reflects => log.frontier.advance layer.branch producer reflects } := by
  obtain ⟨id, branch, kind, author, state, parent, guards⟩ := layer
  cases author with
  | source => simp only [project, hread]
  | derived producer reflects => simp [project, CellTouchIndex.apply, LayerAuthor.isSource]

section End

variable {handle : LayerHandle} {staged : StagedLayer}

theorem Sound.stored_of_owns (h : log.Sound) (ho : log.Owns handle) :
    log.layers.lookup handle.id = some { handle.layer with guards := [] } ∧
      handle.layer.state = .open := by
  obtain ⟨layer, hl, hs, he⟩ := ho
  have hg := h.open_guards hl hs
  obtain ⟨id, branch, kind, author, state, parent, guards⟩ := layer
  simp only at hs hg
  rw [he, hl, hs, hg]
  exact ⟨rfl, rfl⟩

theorem abort_run (h : log.Sound) (ho : log.Owns handle) :
    abort handle log = .ok () (log.discarded handle.layer) := by
  obtain ⟨hl, hs⟩ := h.stored_of_owns ho
  simp only [abort, bind, EStateM.bind, store, MemoryStorage.abort, transition, Log.layer, hl, hs,
    ne_eq, not_true_eq_false, if_false, discarded]

/-- What a layer that is being landed looks like to the log. -/
theorem land_run (h : log.storage.Sound)
    (hst : log.storage.staged.lookup handle.id = some staged) :
    land handle.layer (log.sealing handle.layer) = .ok handle.id (log.landing handle.layer staged) := by
  -- The store, once the layer is sealed and its metadata written.
  let sealed : MemoryStorage := { log.storage with
    staged := log.storage.staged.insert handle.id { staged with isSealed := true }
    layerMeta := log.storage.layerMeta.insert handle.id { handle.layer with state := .committed } }
  have hsound : sealed.Sound := by
    have hstaged : MemoryStorage.Sound { log.storage with
        staged := log.storage.staged.insert handle.id { staged with isSealed := true } } :=
      h.insert_same hst rfl fun id hid => Or.inl hid
    exact hstaged.congr rfl rfl rfl rfl rfl
  have hcommit := MemoryStorage.commitLayer_run hsound (AList.lookup_insert _) rfl
  have hread := (hsound.landed (AList.lookup_insert _)).readLayer handle.id
  rw [MemoryStorage.contents_landed hsound (AList.lookup_insert _), if_pos rfl] at hread
  have hlanded : sealed.landed handle.id { staged with isSealed := true } =
      { log.storage.landed handle.id staged with
        layerMeta := log.storage.layerMeta.insert handle.id
          { handle.layer with state := .committed } } := by
    simp only [MemoryStorage.landed, sealed, erase_insert]
    rfl
  rw [hlanded] at hcommit hread
  have hguards : keepGuards handle.layer (log.sealing handle.layer) = .ok () { log with
      layers := log.layers.insert handle.id { handle.layer with state := .sealed } } := by
    simp only [keepGuards, sealing, AssocMap.adjust, AList.lookup_insert, AList.insert_insert]
  have hseal : store (MemoryStorage.sealLayer handle.id) { log with
        layers := log.layers.insert handle.id { handle.layer with state := .sealed } } =
      .ok () { log with
        layers := log.layers.insert handle.id { handle.layer with state := .sealed }
        storage := { log.storage with
          staged := log.storage.staged.insert handle.id { staged with isSealed := true } } } := by
    simp only [store, MemoryStorage.sealLayer_run hst]
  have hmeta : store (MemoryStorage.putLayerMeta { handle.layer with state := .committed }) { log with
        layers := log.layers.insert handle.id { handle.layer with state := .sealed }
        storage := { log.storage with
          staged := log.storage.staged.insert handle.id { staged with isSealed := true } } } =
      .ok () { log with
        layers := log.layers.insert handle.id { handle.layer with state := .sealed }
        storage := sealed } := rfl
  let landed : Log := { log with
    layers := log.layers.insert handle.id { handle.layer with state := .sealed }
    storage := { log.storage.landed handle.id staged with
      layerMeta := log.storage.layerMeta.insert handle.id
        { handle.layer with state := .committed } } }
  have hland : store (MemoryStorage.commitLayer handle.id) { log with
        layers := log.layers.insert handle.id { handle.layer with state := .sealed }
        storage := sealed } = .ok () landed := by
    simp only [store, hcommit, landed]
  have hfound : landed.layers.lookup handle.id = some { handle.layer with state := .sealed } :=
    AList.lookup_insert _
  have hstate : transition handle.id .sealed .committed landed =
      .ok () { landed with
        layers := log.layers.insert handle.id { handle.layer with state := .committed } } := by
    rw [transition_run hfound rfl]
    simp only [landed, AList.insert_insert]
  rw [land, Calls.bind_ok hguards, Calls.bind_ok hseal, Calls.bind_ok hmeta, Calls.bind_ok hland,
    Calls.bind_ok hstate, Calls.bind_ok (show moveHead _ _ = .ok () _ from rfl),
    Calls.bind_ok (project_run hread)]
  rfl

theorem commit_run (h : log.Sound) (ho : log.Owns handle)
    (hst : log.storage.staged.lookup handle.id = some staged) :
    commit handle log =
      match (log.sealing handle.layer).checkGuards handle.layer.branch handle.layer.guards none with
      | .ok () => .ok handle.id (log.landing handle.layer staged)
      | .error violation => .error violation (log.discarded handle.layer) := by
  obtain ⟨hl, hs⟩ := h.stored_of_owns ho
  have hsealing : transition handle.id .open .sealed log = .ok () (log.sealing handle.layer) :=
    transition_run hl hs .sealed
  rw [commit, Calls.bind_ok hsealing, Calls.bind_ok Calls.get_run]
  cases (log.sealing handle.layer).checkGuards handle.layer.branch handle.layer.guards none with
  | error violation =>
    have habort : store (MemoryStorage.abort handle.id) (log.sealing handle.layer) =
        .ok () { log.sealing handle.layer with
          storage := { log.storage with staged := log.storage.staged.erase handle.id } } := rfl
    have hfound : ({ log.sealing handle.layer with
          storage := { log.storage with staged := log.storage.staged.erase handle.id } } : Log).layers.lookup
        handle.id = some { handle.layer with state := .sealed, guards := [] } := AList.lookup_insert _
    simp only
    rw [Calls.bind_ok habort, Calls.bind_ok (transition_run hfound rfl .aborted), Calls.throw_run]
    simp only [discarded, sealing, AList.insert_insert]
  | ok _ => exact land_run h.storage hst

/-! ### The timeline after a layer ends -/

/-- What a staged layer adds to the timeline when it is committed. -/
def commitOf (log : Log) (layer : Layer) (staged : StagedLayer) : Commit :=
  ⟨layer.branch, layer.kind, layer.author, layer.guards, log.storage.stagedContents staged,
    staged.defs⟩

/-- **A commit adds one layer to the timeline.** -/
theorem commitAt_landing (h : log.storage.Sound)
    (hst : log.storage.staged.lookup handle.id = some staged) (id : LayerId) :
    (log.landing handle.layer staged).commitAt id =
      if id = handle.id then some (log.commitOf handle.layer staged) else log.commitAt id := by
  have hcontents : (log.landing handle.layer staged).storage.contents id =
      (log.storage.landed handle.id staged).contents id := rfl
  by_cases hid : id = handle.id
  · subst hid
    rw [if_pos rfl, commitAt_of_committed
      (show _ = some { handle.layer with state := .committed } from AList.lookup_insert _) rfl, hcontents,
      MemoryStorage.contents_landed h hst, if_pos rfl]
    simp [commitOf, MemoryStorage.readDefLayer, landing, MemoryStorage.landed, AssocMap.getD]
  · rw [if_neg hid]
    unfold commitAt
    rw [hcontents, MemoryStorage.contents_landed h hst, if_neg hid]
    simp [landing, MemoryStorage.readDefLayer, MemoryStorage.landed, AssocMap.getD, hid]

theorem commitAt_discarded (h : log.Sound) (ho : log.Owns handle) (id : LayerId) :
    (log.discarded handle.layer).commitAt id = log.commitAt id := by
  obtain ⟨hl, hs⟩ := h.stored_of_owns ho
  unfold commitAt discarded
  simp only [AssocMap.lookup_insert_eq]
  by_cases hid : id = handle.id
  · subst hid
    simp [hl, hs]
  · simp [hid]
    rfl

theorem pendingAt_landing (h : log.Sound)
    (hst : log.storage.staged.lookup handle.id = some staged) (id : LayerId) :
    (log.landing handle.layer staged).pendingAt id =
      if id = handle.id then none else log.pendingAt id := by
  unfold pendingAt
  by_cases hid : id = handle.id
  · subst hid
    simp [landing, MemoryStorage.landed]
  · have hlookup : (log.landing handle.layer staged).storage.staged.lookup id =
        log.storage.staged.lookup id := by
      simp [landing, MemoryStorage.landed, hid]
    have hlayers : (log.landing handle.layer staged).layers.lookup id = log.layers.lookup id := by
      simp [landing, hid]
    rw [if_neg hid, hlookup, hlayers]
    rcases hl : log.layers.lookup id with _ | layer
    · rfl
    · rcases hs : log.storage.staged.lookup id with _ | staged'
      · rfl
      · simp only
        rw [← MemoryStorage.stagedContents_landed h.storage hst hs]
        rfl

theorem pendingAt_discarded (id : LayerId) :
    (log.discarded handle.layer).pendingAt id =
      if id = handle.id then none else log.pendingAt id := by
  unfold pendingAt discarded
  by_cases hid : id = handle.id
  · subst hid
    simp
  · simp only [AssocMap.lookup_insert_eq, AssocMap.lookup_erase_eq, hid, if_false]
    rfl

theorem branchOf_landing (h : log.Sound) (ho : log.Owns handle) (id : LayerId) :
    (log.landing handle.layer staged).branchOf id = log.branchOf id := by
  have hl := (h.stored_of_owns ho).1
  by_cases hid : id = handle.id
  · subst hid
    simp [branchOf, Log.layer, landing, hl]
  · simp [branchOf, Log.layer, landing, hid]

theorem branchOf_discarded (h : log.Sound) (ho : log.Owns handle) (id : LayerId) :
    (log.discarded handle.layer).branchOf id = log.branchOf id := by
  have hl := (h.stored_of_owns ho).1
  by_cases hid : id = handle.id
  · subst hid
    simp [branchOf, Log.layer, discarded, hl]
  · simp [branchOf, Log.layer, discarded, hid]

/-! ### Soundness after a layer ends -/

theorem exists_isTop {p : LayerId → Prop} {bound : LayerId} (hb : ∀ id, p id → id < bound)
    {id : LayerId} (hp : p id) : ∃ top, IsTop p top := by
  classical
  refine ⟨Nat.findGreatest p bound, Nat.findGreatest_spec (Nat.le_of_lt (hb id hp)) hp, ?_⟩
  exact fun other ho => Nat.le_findGreatest (Nat.le_of_lt (hb other ho)) ho

theorem isTop_unique {p : LayerId → Prop} {top top' : LayerId} (h : IsTop p top)
    (h' : IsTop p top') : top = top' :=
  Nat.le_antisymm (h'.2 _ h.1) (h.2 _ h'.1)

/-- One more layer: the top is the higher of the two. -/
theorem isTop_add {p : LayerId → Prop} {bound id : LayerId} {found : Option LayerId}
    (hb : ∀ id, p id → id < bound) (h : ∀ top, found = some top ↔ IsTop p top) (top : LayerId) :
    some (max id (found.getD id)) = some top ↔ IsTop (fun other => p other ∨ other = id) top := by
  have htop : IsTop (fun other => p other ∨ other = id) (max id (found.getD id)) := by
    rcases hf : found with _ | old
    · refine ⟨Or.inr (by simp), ?_⟩
      rintro other (hp | rfl)
      · obtain ⟨t, ht⟩ := exists_isTop hb hp
        rw [(h t).2 ht] at hf
        cases hf
      · simp
    · have hold := (h old).1 hf
      refine ⟨?_, ?_⟩
      · rcases le_total id old with hle | hle
        · exact Or.inl (by simpa [Nat.max_eq_right hle] using hold.1)
        · exact Or.inr (by simp [Nat.max_eq_left hle])
      · rintro other (hp | rfl)
        · exact Nat.le_trans (hold.2 other hp) (Nat.le_max_right _ _)
        · exact Nat.le_max_left _ _
  constructor
  · intro he
    cases he
    exact htop
  · intro ht
    rw [isTop_unique htop ht]

theorem exists_commit_landing (h : log.Sound)
    (hst : log.storage.staged.lookup handle.id = some staged) (hnone : log.commitAt handle.id = none)
    (q : Commit → Prop) (id : LayerId) :
    (∃ commit, (log.landing handle.layer staged).commitAt id = some commit ∧ q commit) ↔
      (∃ commit, log.commitAt id = some commit ∧ q commit) ∨
        id = handle.id ∧ q (log.commitOf handle.layer staged) := by
  rw [commitAt_landing h.storage hst]
  by_cases hid : id = handle.id
  · subst hid
    simp [hnone]
  · simp [hid]

/-- The top of the committed layers of a branch that are picked follows a commit. -/
theorem isTop_landing (h : log.Sound)
    (hst : log.storage.staged.lookup handle.id = some staged) (hnone : log.commitAt handle.id = none)
    (q : Commit → Prop) [Decidable (q (log.commitOf handle.layer staged))] {found : Option LayerId}
    (hfound : ∀ top, found = some top ↔
      IsTop (fun id => ∃ commit, log.commitAt id = some commit ∧ q commit) top)
    (top : LayerId) :
    (if q (log.commitOf handle.layer staged) then some (max handle.id (found.getD handle.id))
      else found) = some top ↔
      IsTop (fun id => ∃ commit, (log.landing handle.layer staged).commitAt id = some commit ∧
        q commit) top := by
  have hadd : (fun id => ∃ commit, (log.landing handle.layer staged).commitAt id = some commit ∧
      q commit) = fun id => (∃ commit, log.commitAt id = some commit ∧ q commit) ∨
        id = handle.id ∧ q (log.commitOf handle.layer staged) :=
    funext fun id => propext (exists_commit_landing h hst hnone q id)
  rw [hadd]
  by_cases hq : q (log.commitOf handle.layer staged)
  · simp only [hq, and_true, if_true]
    exact isTop_add (fun id hid => (h.commitAt_lt hid.choose_spec.1).2) hfound top
  · simp only [hq, and_false, or_false, if_false]
    exact hfound top

theorem Projected.landing (h : log.Sound)
    (hst : log.storage.staged.lookup handle.id = some staged)
    (hb : staged.branch = handle.layer.branch) (hnone : log.commitAt handle.id = none) :
    (log.landing handle.layer staged).Projected where
  members_iff id branch := by
    refine Iff.trans ?_ (exists_commit_landing h hst hnone _ id).symm
    have hold := h.projected.members_iff id branch
    simp only [CommittedOn] at hold
    rw [← hold]
    simp only [Log.landing, MemoryStorage.landed, AssocMap.lookup_insert_eq]
    by_cases hid : id = handle.id
    · subst hid
      simp [h.not_member hnone, hb, commitOf]
    · simp [hid]
  heads_iff branch top := by
    refine Iff.trans (Eq.congr_left ?_) (isTop_landing h hst hnone (fun c => c.branch = branch)
      (h.projected.heads_iff branch) top)
    simp only [Log.landing, AssocMap.lookup_insert_eq, commitOf, head]
    by_cases hbr : branch = handle.layer.branch
    · subst hbr
      simp
    · simp [hbr, Ne.symm hbr]
  defs_iff branch id := by
    refine Iff.trans ?_ (exists_commit_landing h hst hnone _ id).symm
    have hold := h.projected.defs_iff branch id
    simp only [DefOn] at hold
    rw [← hold]
    simp only [Log.landing, commitOf]
    by_cases hk : handle.layer.kind = .defs
    · rw [if_pos hk, AssocMap.getD_insert]
      by_cases hbr : branch = handle.layer.branch
      · subst hbr
        simp [hk]
      · simp [hbr, Ne.symm hbr]
    · simp [hk]
  defs_nodup branch := by
    simp only [Log.landing]
    split
    · rw [AssocMap.getD_insert]
      split
      · refine (h.projected.defs_nodup _).append (List.nodup_singleton _) ?_
        intro id hid hid'
        obtain rfl := List.mem_singleton.1 hid'
        obtain ⟨commit, hc, _⟩ := (h.projected.defs_iff _ _).1 hid
        rw [hnone] at hc
        cases hc
      · exact h.projected.defs_nodup branch
    · exact h.projected.defs_nodup branch
  touched_iff branch cell id := by
    refine Iff.trans ?_ (exists_commit_landing h hst hnone _ id).symm
    have hold := h.projected.touched_iff branch cell id
    simp only [TouchedOn] at hold
    rw [← hold]
    simp only [Log.landing, CellTouchIndex.apply, commitOf, Commit.Touches]
    split
    · rw [CellTouchIndex.mem_record]
      simp only [List.mem_map]
      constructor
      · rintro (hid | ⟨hbr, hid, hc⟩)
        · exact Or.inl hid
        · exact Or.inr ⟨hid, hbr.symm, by assumption, hc⟩
      · rintro (hid | ⟨hid, hbr, _, hc⟩)
        · exact Or.inl hid
        · exact Or.inr ⟨hbr.symm, hid, hc⟩
    · rename_i hs
      simp [hs]
  highest_iff branch top := by
    refine Iff.trans (Eq.congr_left ?_) (isTop_landing h hst hnone
      (fun c => c.branch = branch ∧ c.author.isSource = true)
      (h.projected.highest_iff branch) top)
    simp only [Log.landing, CellTouchIndex.apply, commitOf]
    split
    · rename_i hs
      rw [CellTouchIndex.highest_record]
      by_cases hbr : branch = handle.layer.branch
      · subst hbr
        simp only [if_true, hs, and_self]
        rfl
      · simp [hbr, Ne.symm hbr]
    · rename_i hs
      simp [hs]

theorem Sound.landing (h : log.Sound) (ho : log.Owns handle)
    (hst : log.storage.staged.lookup handle.id = some staged) :
    (log.landing handle.layer staged).Sound where
  storage := (h.storage.landed hst).congr rfl rfl rfl rfl rfl
  projected := by
    obtain ⟨hl, hs⟩ := h.stored_of_owns ho
    exact Projected.landing h hst (h.staged_branch hl hst).1 (commitAt_of_open hl hs)
  next_pos := h.next_pos
  layer_id {id layer} hl := by
    simp only [Log.landing, AssocMap.lookup_insert_eq] at hl
    split at hl
    · cases hl
      subst id
      have := h.layer_id (h.stored_of_owns ho).1
      exact ⟨rfl, this.2⟩
    · exact h.layer_id hl
  layer_branch {id layer} hl := by
    simp only [Log.landing, AssocMap.lookup_insert_eq] at hl
    split at hl
    · cases hl
      subst id
      have := h.layer_branch (h.stored_of_owns ho).1
      exact this
    · exact h.layer_branch hl
  branch_id {id branch} hb := by
    obtain ⟨h₁, h₂, h₃⟩ := h.branch_id hb
    exact ⟨h₁, h₂, fun origin hor => by rw [branchOf_landing h ho]; exact h₃ origin hor⟩
  staged_iff {id} := by
    simp only [Log.landing, MemoryStorage.landed, AssocMap.lookup_insert_eq,
      AssocMap.lookup_erase_eq]
    split
    · simp
    · exact h.staged_iff
  staged_branch {id layer st} hl hs := by
    simp only [Log.landing, MemoryStorage.landed, AssocMap.lookup_insert_eq,
      AssocMap.lookup_erase_eq] at hl hs
    split at hl
    · rw [if_pos (by assumption)] at hs
      cases hs
    · rw [if_neg (by assumption)] at hs
      exact h.staged_branch hl hs
  open_guards {id layer} hl hs := by
    simp only [Log.landing, AssocMap.lookup_insert_eq] at hl
    split at hl
    · cases hl
      cases hs
    · exact h.open_guards hl hs
  meta_iff {id layer} := by
    simp only [Log.landing, MemoryStorage.landed, AssocMap.lookup_insert_eq]
    split
    · constructor
      · intro hl
        cases hl
        exact ⟨rfl, rfl⟩
      · exact fun hl => hl.1
    · exact h.meta_iff

theorem Sound.discarded (h : log.Sound) (ho : log.Owns handle) :
    (log.discarded handle.layer).Sound where
  storage := h.storage.erase_staged
  projected := h.projected.congr (commitAt_discarded h ho) rfl rfl rfl rfl
  next_pos := h.next_pos
  layer_id {id layer} hl := by
    simp only [Log.discarded, AssocMap.lookup_insert_eq] at hl
    split at hl
    · cases hl
      subst id
      exact ⟨rfl, (h.layer_id (h.stored_of_owns ho).1).2⟩
    · exact h.layer_id hl
  layer_branch {id layer} hl := by
    simp only [Log.discarded, AssocMap.lookup_insert_eq] at hl
    split at hl
    · cases hl
      subst id
      have := h.layer_branch (h.stored_of_owns ho).1
      exact this
    · exact h.layer_branch hl
  branch_id {id branch} hb := by
    obtain ⟨h₁, h₂, h₃⟩ := h.branch_id hb
    exact ⟨h₁, h₂, fun origin hor => by rw [branchOf_discarded h ho]; exact h₃ origin hor⟩
  staged_iff {id} := by
    simp only [Log.discarded, AssocMap.lookup_insert_eq, AssocMap.lookup_erase_eq]
    split
    · simp
    · exact h.staged_iff
  staged_branch {id layer st} hl hs := by
    simp only [Log.discarded, AssocMap.lookup_insert_eq, AssocMap.lookup_erase_eq] at hl hs
    split at hl
    · rw [if_pos (by assumption)] at hs
      cases hs
    · rw [if_neg (by assumption)] at hs
      exact h.staged_branch hl hs
  open_guards {id layer} hl hs := by
    simp only [Log.discarded, AssocMap.lookup_insert_eq] at hl
    split at hl
    · cases hl
      cases hs
    · exact h.open_guards hl hs
  meta_iff {id layer} := by
    obtain ⟨hl, hs⟩ := h.stored_of_owns ho
    simp only [Log.discarded, AssocMap.lookup_insert_eq]
    split
    · subst id
      rw [h.meta_iff, hl]
      constructor
      · rintro ⟨hl', hs'⟩
        cases hl'
        rw [hs] at hs'
        cases hs'
      · rintro ⟨hl', hs'⟩
        cases hl'
        cases hs'
    · exact h.meta_iff

end End

end Log

end BorgCore
