import Mathlib.Data.List.Destutter
import BorgCore.Ops.Restore
import BorgCore.Storage.Durable

/-!
# What is exported comes back

A registry that is written out and read into a fresh store is there again: the same layers with the same members
and defs, the same branches, the content its events refer to, and the files beside it.
-/

namespace BorgCore

namespace Stream

open Database

variable {hash : List UInt8 → Vector UInt8 32} {texts : Texts} {registry registry' : Registry}
  {conn : Database} {layer : Layer}
  {store base : MemoryStorage} {staged : StagedLayer} {beside : Sidecars} {held : Pid → Prop} {done : List LayerId}
  {state state' : Importing} {records : List Record} {id : LayerId} {event : Event} {binary : String}

/-! ### The layers of an export -/

def Described (conn : Database) : Prop :=
  ∀ {id row described}, conn.layers.lookup id = some row → row.metadata = some described →
    described.id = id ∧ described.branch = row.branch

theorem layer_of_row (hd : Described conn) {row : BorgCore.LayerRow} (hr : conn.layers.lookup id = some row)
    (hl : LayerRow.layer row = some layer) : layer.id = id ∧ layer.branch = row.branch ∧
      (layer.state = .committed ↔ row.state = .committed) := by
  obtain ⟨described, hm, rfl⟩ := Option.map_eq_some_iff.1 hl
  obtain ⟨hid, hbranch⟩ := hd hr hm
  refine ⟨hid, hbranch, ?_⟩
  dsimp only
  cases row.state <;> simp [RowState.layerState]

theorem mem_exportedLayers (hd : Described conn) : layer ∈ exportedLayers conn.readLayers ↔ conn.isCommitted layer.id ∧
    (conn.layers.lookup layer.id).bind LayerRow.layer = some layer := by
  unfold exportedLayers readLayers
  rw [List.mem_insertionSort, List.mem_filter, List.mem_filterMap]
  simp only [List.mem_insertionSort, decide_eq_true_iff]
  constructor
  · rintro ⟨⟨id, -, hl⟩, hstate⟩
    obtain ⟨row, hr, hl'⟩ := Option.bind_eq_some_iff.1 hl
    obtain ⟨hid, -, hcommitted⟩ := layer_of_row hd hr hl'
    subst hid
    exact ⟨isCommitted_iff.2 ⟨row, hr, hcommitted.1 hstate⟩, hl⟩
  · rintro ⟨hc, hl⟩
    obtain ⟨row, hr, hl'⟩ := Option.bind_eq_some_iff.1 hl
    obtain ⟨row', hr', hstate⟩ := isCommitted_iff.1 hc
    obtain rfl := Option.some.inj (hr.symm.trans hr')
    obtain ⟨-, -, hcommitted⟩ := layer_of_row hd hr hl'
    exact ⟨⟨layer.id, AssocMap.mem_keys_iff.2 ⟨row, hr⟩, hl⟩, hcommitted.2 hstate⟩

theorem ascending (hd : Described conn) :
    (exportedLayers conn.readLayers).Pairwise fun layer next => layer.id < next.id := by
  have hids : (exportedLayers conn.readLayers).Pairwise fun layer next => layer.id ≠ next.id := by
    unfold exportedLayers
    refine (List.perm_insertionSort _ _).symm.pairwise ?_ fun h => h.symm
    refine List.Pairwise.filter _ ?_
    unfold readLayers
    refine List.pairwise_filterMap.2 ?_
    have hnodup : (conn.layers.keys.insertionSort (· ≤ ·)).Nodup :=
      (List.perm_insertionSort _ _).nodup_iff.2 conn.layers.nodupKeys
    refine hnodup.imp fun {id id'} hne layer hl layer' hl' heq => hne ?_
    obtain ⟨row, hr, hl⟩ := Option.bind_eq_some_iff.1 hl
    obtain ⟨row', hr', hl'⟩ := Option.bind_eq_some_iff.1 hl'
    rw [← (layer_of_row hd hr hl).1, ← (layer_of_row hd hr' hl').1, heq]
  have hsorted : (exportedLayers conn.readLayers).Pairwise fun layer next => layer.id ≤ next.id :=
    List.pairwise_insertionSort (fun layer next : Layer => layer.id ≤ next.id) _
  exact (hsorted.and hids).imp fun hboth => lt_of_le_of_ne hboth.1 hboth.2

/-! ### A layer's events -/

theorem lookup_of_mem_readLayer (ht : conn.Sound) (hin : event ∈ conn.readLayer id) :
    conn.events.lookup event.id = some event := by
  obtain ⟨found, -, he⟩ := List.mem_filterMap.1 hin
  rw [ht.event_id he]
  exact he

theorem mem_readLayer_own (ht : conn.Sound) (hown : conn.Authors event.authored) {found : EventId}
    (he : conn.events.lookup found = some event) : event ∈ conn.readLayer event.authored := by
  obtain ⟨i, hi, -⟩ := hown he rfl
  obtain ⟨ids, hids⟩ := ht.rows event.authored
  rw [readLayer_eq hids]
  exact List.mem_filterMap.2 ⟨found, List.mem_of_getElem? ((hids i).symm.trans hi), he⟩

theorem mem_filter_readLayer (ht : conn.Sound) (hown : conn.Authors id) (event : Event) :
    event ∈ (conn.readLayer id).filter (fun event => event.authored = id) ↔
      conn.events.lookup event.id = some event ∧ event.authored = id := by
  rw [List.mem_filter, decide_eq_true_eq]
  refine and_congr_left fun ha => ⟨lookup_of_mem_readLayer ht, fun he => ?_⟩
  subst ha
  exact mem_readLayer_own ht hown he

theorem nodup_own (ht : conn.Sound) (hown : conn.Authors id) :
    (((conn.readLayer id).filter fun event => event.authored = id).map Event.id).Nodup := by
  obtain ⟨ids, hids⟩ := ht.rows id
  rw [readLayer_eq hids, List.Nodup, List.pairwise_map, List.pairwise_filter, List.pairwise_filterMap,
    List.pairwise_iff_getElem]
  intro i j hi hj hlt event he other ho hself _ heq
  have hfirst := ht.event_id he
  have hsecond := ht.event_id ho
  obtain ⟨_, -, honly⟩ := hown he (of_decide_eq_true hself)
  have hat : ids[j] = ids[i] := by rw [← hfirst, ← hsecond, heq]
  have hei := honly i ((hids i).trans (List.getElem?_eq_getElem hi))
  have hej := honly j ((hids j).trans ((List.getElem?_eq_getElem hj).trans (congrArg some hat)))
  omega

/-! ### A store that has part of a registry -/

/-- A memory store has what a registry has in the layers that are done, and no other layer. -/
structure Replica (conn : Database) (done : List LayerId) (base : MemoryStorage) : Prop where
  staged : ∀ id, base.staged.lookup id = none
  members : ∀ id, (base.members.lookup id).isSome ↔ id ∈ done
  contents : ∀ id ∈ done, base.contents id = conn.readLayer id
  defs : ∀ id ∈ done, base.readDefLayer id = conn.readDefLayer id
  described : ∀ id, base.layerMeta.lookup id =
    if id ∈ done then (conn.layers.lookup id).bind LayerRow.layer else none
  events : ∀ id event, base.events.lookup id = some event ↔
    conn.events.lookup id = some event ∧ event.authored ∈ done
  branches : ∀ id, base.branches.lookup id = conn.branches.lookup id

theorem Replica.events_landed (h : Replica conn done base) (ht : conn.Sound) (hown : conn.Authors layer.id)
    (hauthored : staged.authored = (conn.readLayer layer.id).filter fun event => event.authored = layer.id)
    (hout : layer.id ∉ done) (id : EventId) (event : Event) :
    (staged.authored.find? fun event => event.id = id).or (base.events.lookup id) = some event ↔
      conn.events.lookup id = some event ∧ event.authored ∈ layer.id :: done := by
  have hfind {event : Event} : (staged.authored.find? fun event => event.id = id) = some event ↔
      conn.events.lookup id = some event ∧ event.authored = layer.id := by
    rw [hauthored]
    exact find?_authored ht (mem_filter_readLayer ht hown)
  rw [Option.or_eq_some_iff, hfind, h.events, List.mem_cons]
  constructor
  · rintro (⟨hl, ha⟩ | ⟨-, hl, ha⟩)
    · exact ⟨hl, Or.inl ha⟩
    · exact ⟨hl, Or.inr ha⟩
  · rintro ⟨hl, ha | ha⟩
    · exact Or.inl ⟨hl, ha⟩
    · refine Or.inr ⟨?_, hl, ha⟩
      refine Option.eq_none_iff_forall_ne_some.2 fun found hf => ?_
      obtain ⟨hl', ha'⟩ := hfind.1 hf
      obtain rfl := Option.some.inj (hl.symm.trans hl')
      exact absurd (ha' ▸ ha) hout

/-- **A layer that is filled as the registry has it lands as the registry has it.** -/
theorem Replica.landed (h : Replica conn done base) (ht : conn.Sound) (hown : conn.Authors layer.id)
    (hs : store.staged = base.staged.insert layer.id staged) (hm : store.members = base.members)
    (he : store.events = base.events) (hd : store.defContents = base.defContents)
    (hmeta : store.layerMeta = base.layerMeta.insert layer.id layer) (hbr : store.branches = base.branches)
    (hsound : store.Sound)
    (hmembers : staged.members = (conn.readLayer layer.id).map Event.id)
    (hauthored : staged.authored = (conn.readLayer layer.id).filter fun event => event.authored = layer.id)
    (hdefs : staged.defs = conn.readDefLayer layer.id)
    (hl : (conn.layers.lookup layer.id).bind LayerRow.layer = some layer) (hout : layer.id ∉ done)
    (hearlier : ∀ event ∈ conn.readLayer layer.id, event.authored ≠ layer.id → event.authored ∈ done) :
    Replica conn (layer.id :: done) (store.landed layer.id staged) := by
  have hstaged : store.staged.lookup layer.id = some staged := by
    rw [hs]
    exact AList.lookup_insert ..
  have hevents := h.events_landed ht hown hauthored hout
  refine
    { staged := fun other => ?_
      members := fun other => ?_
      contents := fun other hin => ?_
      defs := fun other hin => ?_
      described := fun other => ?_
      events := fun id event => ?_
      branches := fun other => ?_ }
  · show (store.staged.erase layer.id).lookup other = none
    rw [AssocMap.lookup_erase_eq, hs, AssocMap.lookup_insert_eq, h.staged]
    split <;> simp_all
  · show ((store.members.insert layer.id _).lookup other).isSome ↔ _
    rw [AssocMap.lookup_insert_eq, hm, List.mem_cons, ← h.members]
    split <;> simp_all
  · rw [MemoryStorage.contents_landed hsound hstaged]
    split
    · rename_i heq
      subst heq
      rw [MemoryStorage.stagedContents, hmembers, List.filterMap_map]
      refine (List.filterMap_congr fun event hin => ?_).trans List.filterMap_some
      show (staged.authored.find? _).or (store.events.lookup event.id) = some event
      rw [he, hevents]
      refine ⟨lookup_of_mem_readLayer ht hin, List.mem_cons.2 ?_⟩
      exact or_iff_not_imp_left.2 (hearlier event hin)
    · rename_i hne
      rw [← h.contents other ((List.mem_cons.1 hin).resolve_left hne)]
      unfold MemoryStorage.contents MemoryStorage.readMembership
      rw [hm, he]
  · have hlanded : (store.landed layer.id staged).readDefLayer other =
        if other = layer.id then staged.defs else store.readDefLayer other := AssocMap.getD_insert ..
    rw [hlanded]
    split
    · rename_i heq
      rw [heq, hdefs]
    · rename_i hne
      rw [← h.defs other ((List.mem_cons.1 hin).resolve_left hne), MemoryStorage.readDefLayer, hd]
      rfl
  · show store.layerMeta.lookup other = _
    rw [hmeta, AssocMap.lookup_insert_eq, h.described]
    by_cases heq : other = layer.id
    · subst heq
      simp [hl]
    · simp [heq]
  · show (MemoryStorage.storeAll store.events staged.authored).lookup id = some event ↔ _
    rw [MemoryStorage.lookup_stored hsound hstaged, he, hevents]
  · show store.branches.lookup other = _
    rw [hbr, h.branches]

/-! ### A block is closed -/

theorem close_run {sealed described process : SqliteProcess}
    (hseal : SqliteProcess.sealLayer layer.id state.process = .ok () sealed)
    (hmeta : SqliteProcess.onStorage (SqliteStorage.putLayerMeta layer) sealed = .ok () described)
    (hcommit : SqliteProcess.commitLayer layer.id described = .ok () process) :
    close layer state = .ok () { state with process := process } := by
  have hmeta' := @onProcess_run { state with process := sealed } _ _ _ _ hmeta
  rw [close, Calls.bind_ok (onProcess_run hseal), Calls.bind_ok hmeta']
  exact @onProcess_run { state with process := described } _ _ _ _ hcommit

/-- Closing a block commits what was filled, under the layer's own metadata. -/
theorem Filling.close (h : Filling registry base beside layer staged held state) : ∃ process store,
    closeBlock state = .ok () { state with block := none, process := process } ∧
      process.Mirrors (MemoryStorage.landed store layer.id { staged with isSealed := true }) ∅ ∧ store.Sound ∧
      ∃ next, store = { base with
        nextEvent := next
        layerMeta := base.layerMeta.insert layer.id layer
        staged := base.staged.insert layer.id { staged with isSealed := true } } := by
  obtain ⟨next, hm⟩ := h.mirrors
  have hs := lookup_staged base layer staged
  have hs' := lookup_staged base layer { staged with isSealed := true }
  have hseal := hm.sealLayer (hm.opened_of_staged hs h.unsealed)
  rw [MemoryStorage.sealLayer_run hs] at hseal
  obtain ⟨closed, hclosed, hm₁⟩ := hseal.run
  rw [AList.insert_insert] at hm₁
  have hin := hm₁.sealed_of_staged hs' rfl
  have hbranch : closed.conn.branchOf layer.id = some layer.branch := by
    obtain ⟨found, hfound, hrow⟩ := hm₁.closed hin
    obtain rfl := Option.some.inj (hs'.symm.trans hfound)
    obtain ⟨row, hrow, hb, -⟩ := hrow.row
    rw [branchOf, hrow, Option.map_some, hb]
    exact congrArg some h.branch
  obtain ⟨described, hdescribed, hm₂⟩ := SqliteProcess.Agree.run (hm₁.putLayerMeta hin hbranch :)
  have hcommit := hm₂.commitLayer (hm₂.sealed_of_staged hs' rfl)
  rw [MemoryStorage.commitLayer_run hm₂.sound hs' rfl] at hcommit
  obtain ⟨process, hcommitted, hm₃⟩ := hcommit.run
  refine ⟨process, _, ?_, hm₃, hm₂.sound, next, rfl⟩
  rw [closeBlock, Calls.bind_ok Calls.get_run, h.block]
  dsimp only
  have hmodify : (modify fun state => { state with block := none } : ImportM Unit) state =
      .ok () { state with block := none } := rfl
  rw [Calls.bind_ok hmodify]
  exact @close_run layer { state with block := none } _ _ _ hclosed hdescribed hcommitted

/-! ### Between two blocks -/

/-- An import has what the registry has in the layers that are done, and no block is open. -/
structure Standing (registry : Registry) (beside : Sidecars) (done : List LayerId) (state : Importing) :
    Prop where
  block : state.block = none
  beside : state.beside = beside
  store : ∃ base, Replica registry.conn done base ∧ state.process.Mirrors base ∅
  content : ∀ pid bytes, state.interned.lookup pid = some bytes ↔
    registry.interned.lookup pid = some bytes ∧ ∃ id ∈ done, Refers id (registry.conn.readLayer id) pid

/-- What closing the last block comes to. -/
def Ready (registry : Registry) (beside : Sidecars) (done : List LayerId) (state : Importing) : Prop :=
  ∃ state', closeBlock state = .ok () state' ∧ Standing registry beside done state'

theorem Standing.ready (h : Standing registry beside done state) : Ready registry beside done state := by
  refine ⟨state, ?_, h⟩
  rw [closeBlock, Calls.bind_ok Calls.get_run, h.block]
  rfl

/-- A layer that is open now is filled from nothing. -/
theorem Ready.opened (h : Ready registry beside done state) (hout : layer.id ∉ done) {row : LayerRow}
    (hrow : layerRow layer = .ok row) (hc : layer.state = .committed) :
    ∃ base state', Replica registry.conn done base ∧ Takes hash state [.layer row] state' ∧
      Filling registry base beside layer (.fresh layer.branch)
        (fun pid => ∃ id ∈ done, Refers id (registry.conn.readLayer id) pid) state' := by
  obtain ⟨closed, hclose, hs⟩ := h
  obtain ⟨base, hreplica, hm⟩ := hs.store
  have hfree : base.members.lookup layer.id = none := by
    cases hmember : base.members.lookup layer.id with
    | none => rfl
    | some _ => exact absurd ((hreplica.members _).1 (by rw [hmember]; rfl)) hout
  have hopen := hm.openLayer layer.branch (Set.notMem_empty layer.id)
  rw [MemoryStorage.openLayer_run _ (hreplica.staged _) hfree] at hopen
  obtain ⟨process, hrun, hm'⟩ := hopen.run
  refine ⟨base, { closed with
    layers := closed.layers + 1, head := max closed.head row.id, process := process, block := some layer },
    hreplica, .single fun line => ?_, ⟨rfl, hs.beside, rfl, rfl, ⟨base.nextEvent, hm'⟩, hs.content⟩⟩
  have hread : layerOf line row = .ok layer := by
    rw [layerRow_read hrow, ← hc]
  rw [take, Calls.bind_ok hclose]
  have hmodify : (modify fun state => { state with layers := state.layers + 1, head := max state.head row.id } :
      ImportM Unit) closed = .ok () { closed with layers := closed.layers + 1, head := max closed.head row.id } := rfl
  rw [Calls.bind_ok hmodify, openBlock, hread]
  have hrun' := @onProcess_run { closed with layers := closed.layers + 1, head := max closed.head row.id } _ _ _ _ hrun
  have hlifted (state : Importing) : lifted (.ok layer : Except Failure Layer) state = .ok layer state := rfl
  rw [Calls.bind_ok (hlifted _), Calls.bind_ok hrun']
  rfl

theorem Filling.takeDefines (h : Filling registry base beside layer staged held state) (hk : layer.kind = .defs)
    (events : List DefEvent) : ∃ state', Takes hash state (events.map .define) state' ∧
      Filling registry base beside layer { staged with defs := staged.defs ++ events } held state' := by
  induction events generalizing staged state with
  | nil => exact ⟨state, .nil, by simpa using h⟩
  | cons event rest ih =>
    obtain ⟨next, htakes, hnext⟩ := h.takeDefine hk event
    obtain ⟨state', htakes', hlast⟩ := ih hnext
    refine ⟨state', htakes.append htakes', ?_⟩
    simpa [StagedLayer.define, List.append_assoc] using hlast

/-! ### The layers of a registry -/

/-- What the log keeps of a registry: its tables came about through the store and their texts are read back, a layer
that is committed has its metadata and names no event that was authored above it, a layer holds value events or
def events, and content is interned under its hash. -/
structure Orderly (hash : List UInt8 → Vector UInt8 32) (texts : Texts) (registry : Registry) : Prop where
  reached : ∃ process, SqliteProcess.Reachable process ∧ process.conn = registry.conn
  legible : texts.Legible registry.conn
  described : ∀ {id}, registry.conn.isCommitted id →
    ((registry.conn.layers.lookup id).bind LayerRow.layer).isSome
  printable : ∀ {id event}, event ∈ registry.conn.readLayer id → Printable event.value
  earlier : ∀ {id event}, event ∈ registry.conn.readLayer id → event.authored ≤ id
  ofKind : ∀ layer ∈ exportedLayers registry.conn.readLayers,
    (layer.kind = .value → registry.conn.readDefLayer layer.id = []) ∧
      (layer.kind = .defs → registry.conn.readLayer layer.id = [])
  addressed : Addressed hash registry.interned

theorem authored_committed (ht : conn.Sound) (hc : conn.isCommitted id) (hin : event ∈ conn.readLayer id) :
    conn.isCommitted event.authored := by
  obtain ⟨ids, hids⟩ := ht.rows id
  rw [readLayer_eq hids] at hin
  obtain ⟨found, hfound, he⟩ := List.mem_filterMap.1 hin
  obtain ⟨i, hi⟩ := List.getElem?_of_mem hfound
  obtain ⟨-, other, ho, hor⟩ := ht.named ((hids i).trans hi)
  obtain rfl := Option.some.inj (he.symm.trans ho)
  rcases hor with heq | hcommitted
  · rw [heq]
    exact hc
  · exact hcommitted

theorem Orderly.tables (ho : Orderly hash texts registry) :
    registry.conn.Sound ∧ registry.conn.Owned ∧ Described registry.conn := by
  obtain ⟨process, hreach, hconn⟩ := ho.reached
  obtain ⟨store, orphans, hm⟩ := hreach.mirrors
  rw [← hconn]
  exact ⟨hm.tables, hm.members, hm.describes⟩

theorem Orderly.branchIds (ho : Orderly hash texts registry) {branch : Branch}
    (hl : registry.conn.branches.lookup id = some branch) : branch.id = id := by
  obtain ⟨process, hreach, hconn⟩ := ho.reached
  obtain ⟨store, orphans, hm⟩ := hreach.mirrors
  rw [← hconn, hm.branches] at hl
  exact hm.branchIds hl

/-- A layer that is filled as the registry has it is done once its block is closed. -/
theorem Filling.lands (h : Filling registry base beside layer staged
      (fun pid => (∃ id ∈ done, Refers id (registry.conn.readLayer id) pid) ∨
        Refers layer.id (registry.conn.readLayer layer.id) pid) state)
    (ho : Orderly hash texts registry) (hreplica : Replica registry.conn done base)
    (hmembers : staged.members = (registry.conn.readLayer layer.id).map Event.id)
    (hauthored : staged.authored = (registry.conn.readLayer layer.id).filter fun event => event.authored = layer.id)
    (hdefs : staged.defs = registry.conn.readDefLayer layer.id) (hc : registry.conn.isCommitted layer.id)
    (hl : (registry.conn.layers.lookup layer.id).bind LayerRow.layer = some layer) (hout : layer.id ∉ done)
    (hearlier : ∀ event ∈ registry.conn.readLayer layer.id,
      event.authored ≠ layer.id → event.authored ∈ done) : Ready registry beside (layer.id :: done) state := by
  obtain ⟨ht, hown, -⟩ := ho.tables
  obtain ⟨process, store, hclose, hm, hsound, next, rfl⟩ := h.close
  refine ⟨_, hclose, rfl, h.beside, ⟨_, ?_, hm⟩, fun pid bytes => ?_⟩
  · exact hreplica.landed ht (hown.authors hc) rfl rfl rfl rfl rfl rfl hsound hmembers hauthored hdefs hl hout hearlier
  · rw [h.content]
    simp only [List.mem_cons, exists_eq_or_imp, or_comm]

/-- What a block says of a layer whose texts are read back. -/
theorem blockRecords_legible (h : texts.Legible registry.conn) (hc : registry.conn.isCommitted layer.id) :
    blockRecords texts registry layer = (do
      let row ← layerRow layer
      match layer.kind with
      | .defs => return .layer row :: (registry.conn.readDefLayer layer.id).map .define
      | .value =>
        return .layer row :: (← memberRecords registry.interned layer.id [] (registry.conn.readLayer layer.id))) := by
  unfold blockRecords
  rw [h.readDefLayer hc, h.readLayer hc]
  rfl

theorem exported_legible (h : texts.Legible registry.conn) : exported texts binary registry = (do
    let blocks ← (exportedLayers registry.conn.readLayers).mapM (blockRecords texts registry)
    return .header streamVersion binary ::
      (besideRecords registry.beside ++ branchRecords registry.conn.readBranches ++ blocks.flatten)) := by
  unfold exported
  rw [h.readBranches, h.readLayers]
  rfl

/-- **The block of a layer brings the layer.** -/
theorem Ready.block (h : Ready registry beside done state) (ho : Orderly hash texts registry)
    (hin : layer ∈ exportedLayers registry.conn.readLayers) (hout : layer.id ∉ done)
    (hdone : ∀ id, registry.conn.isCommitted id → id < layer.id → id ∈ done)
    (hr : blockRecords texts registry layer = .ok records) :
    ∃ state', Takes hash state records state' ∧ Ready registry beside (layer.id :: done) state' := by
  obtain ⟨ht, hown, hd⟩ := ho.tables
  obtain ⟨hc, hl⟩ := (mem_exportedLayers hd).1 hin
  obtain ⟨hdefsOf, hmembersOf⟩ := ho.ofKind layer hin
  have hstate : layer.state = .committed :=
    of_decide_eq_true (List.mem_filter.1 ((List.mem_insertionSort _).1 hin)).2
  have hearlier (event : Event) (hm : event ∈ registry.conn.readLayer layer.id) (hne : event.authored ≠ layer.id) :
      event.authored ∈ done := hdone _ (authored_committed ht hc hm) (lt_of_le_of_ne (ho.earlier hm) hne)
  rw [blockRecords_legible ho.legible hc] at hr
  obtain ⟨row, hrow, hr⟩ := Calls.except_bind_eq_ok hr
  obtain ⟨base, opened, hreplica, htakes, hfill⟩ := @Ready.opened hash _ _ _ _ _ h hout _ hrow hstate
  cases hk : layer.kind with
  | defs =>
    rw [hk] at hr
    cases hr
    obtain ⟨state', htakes', hfilled⟩ :=
      @Filling.takeDefines hash _ _ _ _ _ _ _ hfill hk (registry.conn.readDefLayer layer.id)
    have hempty := hmembersOf hk
    refine ⟨state', htakes.append htakes',
      (hfilled.congr fun pid _ _ => ?_).lands ho hreplica ?_ ?_ ?_ hc hl hout hearlier⟩
    · simp [hempty, Refers]
    · simp [hempty, StagedLayer.fresh]
    · simp [hempty, StagedLayer.fresh]
    · simp [StagedLayer.fresh]
  | value =>
    rw [hk] at hr
    obtain ⟨rest, hrest, hr⟩ := Calls.except_bind_eq_ok hr
    cases hr
    have htakeable (event : Event) (hm : event ∈ registry.conn.readLayer layer.id) :
        Takeable base layer.id event := by
      have he := lookup_of_mem_readLayer ht hm
      refine ⟨ho.printable hm, fun hne => (hreplica.events _ _).2 ⟨he, hearlier event hm hne⟩, fun heq => ?_⟩
      cases hb : base.events.lookup event.id with
      | none => rfl
      | some found =>
        obtain ⟨hf, ha⟩ := (hreplica.events _ _).1 hb
        obtain rfl := Option.some.inj (he.symm.trans hf)
        exact absurd (heq ▸ ha) hout
    obtain ⟨state', htakes', hfilled⟩ := hfill.takeMembers hk ho.addressed hreplica.staged hrest
      (fun pid hin => absurd hin List.not_mem_nil) htakeable
      (by simpa [filled, StagedLayer.fresh] using nodup_own ht (hown.authors hc))
    refine ⟨state', htakes.append htakes', hfilled.lands ho hreplica ?_ ?_ ?_ hc hl hout hearlier⟩
    · simp [filled, StagedLayer.fresh]
    · simp [filled, StagedLayer.fresh]
    · simp [filled, StagedLayer.fresh, hdefsOf hk]

/-- **The blocks of all layers bring all layers.** -/
theorem Ready.blocks (ho : Orderly hash texts registry) {layers : List Layer} {blocks : List (List Record)}
    (hr : List.Forall₂ (fun layer block => blockRecords texts registry layer = .ok block) layers blocks)
    (h : Ready registry beside done state) (hin : ∀ layer ∈ layers, layer ∈ exportedLayers registry.conn.readLayers)
    (hsorted : layers.Pairwise fun layer next => layer.id < next.id)
    (hbelow : ∀ id ∈ done, ∀ layer ∈ layers, id < layer.id)
    (hall : ∀ id, registry.conn.isCommitted id → id ∈ done ∨ ∃ layer ∈ layers, layer.id = id) :
    ∃ state' done', Takes hash state blocks.flatten state' ∧ Ready registry beside done' state' ∧
      ∀ id, id ∈ done' ↔ id ∈ done ∨ ∃ layer ∈ layers, layer.id = id := by
  induction hr generalizing done state with
  | nil => exact ⟨state, done, .nil, h, by simp⟩
  | @cons layer block rest others hblock _ ih =>
    obtain ⟨hfirst, hsorted⟩ := List.pairwise_cons.1 hsorted
    have hout : layer.id ∉ done := fun hm => lt_irrefl _ (hbelow _ hm layer List.mem_cons_self)
    have hdone (id : LayerId) (hc : registry.conn.isCommitted id) (hlt : id < layer.id) : id ∈ done := by
      refine (hall id hc).resolve_right ?_
      rintro ⟨found, hfound, rfl⟩
      rcases List.mem_cons.1 hfound with rfl | hrest
      · exact lt_irrefl _ hlt
      · exact lt_asymm hlt (hfirst found hrest)
    obtain ⟨next, htakes, hnext⟩ := h.block ho (hin layer List.mem_cons_self) hout hdone hblock
    obtain ⟨state', done', htakes', hlast, hmem⟩ := ih hnext (fun other hm => hin other (List.mem_cons_of_mem _ hm))
      hsorted (by
        intro id hm other hother
        rcases List.mem_cons.1 hm with rfl | hm
        · exact hfirst other hother
        · exact hbelow id hm other (List.mem_cons_of_mem _ hother))
      (fun id hc => by
        rcases hall id hc with hm | ⟨found, hfound, rfl⟩
        · exact Or.inl (List.mem_cons_of_mem _ hm)
        · rcases List.mem_cons.1 hfound with rfl | hrest
          · exact Or.inl List.mem_cons_self
          · exact Or.inr ⟨found, hrest, rfl⟩)
    refine ⟨state', done', htakes.append htakes', hlast, fun id => ?_⟩
    rw [hmem]
    simp only [List.mem_cons, exists_eq_or_imp, eq_comm (a := id), or_assoc, or_left_comm]

/-! ### What is ahead of the layers -/

/-- The files beside a store as they come back: in their order, and without the transactions that were open. -/
def carried (beside : Sidecars) : Sidecars where
  allocations := beside.allocations
  transactions := { (default : Transactions) with txIdleTimeout := beside.transactions.txIdleTimeout }
  producers := beside.producers.insertionSort fun row next => row.id ≤ next.id
  paused := (beside.paused.insertionSort (· ≤ ·)).destutter (· ≠ ·)
  broken := beside.broken.insertionSort fun row next =>
    row.branch < next.branch ∨ row.branch = next.branch ∧ row.producer ≤ next.producer

/-- Rows of one of the files, which are put behind those it has. -/
theorem takes_rows {α : Type} {make : α → Record} {put : Sidecars → List α → Sidecars}
    (hnil : ∀ beside, put beside [] = beside)
    (happend : ∀ beside rows rows', put (put beside rows) rows' = put beside (rows ++ rows'))
    (htake : ∀ row line state,
      take hash line (make row) state = .ok () { state with beside := put state.beside [row] }) (rows : List α) :
    Takes hash state (rows.map make) { state with beside := put state.beside rows } := by
  induction rows generalizing state with
  | nil =>
    rw [hnil]
    exact .nil
  | cons row rest ih =>
    have hrest := @ih { state with beside := put state.beside [row] }
    rw [happend] at hrest
    exact .cons (fun line => htake row line state) hrest

theorem takes_beside (hb : state.beside = default) (beside : Sidecars) :
    Takes hash state (besideRecords beside) { state with beside := carried beside } := by
  have hfirst : Takes hash state [.allocations beside.allocations.next, .txTimeout beside.transactions.txIdleTimeout]
      { state with beside := { state.beside with
        allocations := beside.allocations
        transactions := { state.beside.transactions with
          txIdleTimeout := beside.transactions.txIdleTimeout } } } :=
    .cons (fun line => rfl) (.single fun line => rfl)
  have hproducers (state : Importing) := @takes_rows hash state _ .producer
    (fun beside rows => { beside with producers := beside.producers ++ rows })
    (by simp) (by simp) (fun _ _ _ => rfl) (carried beside).producers
  have hbroken (state : Importing) := @takes_rows hash state _ .poison
    (fun beside rows => { beside with broken := beside.broken ++ rows })
    (by simp) (by simp) (fun _ _ _ => rfl) (carried beside).broken
  have hpaused (state : Importing) := @takes_rows hash state _ .paused
    (fun beside rows => { beside with paused := beside.paused ++ rows })
    (by simp) (by simp) (fun _ _ _ => rfl) (carried beside).paused
  have hall := ((hfirst.append (hproducers _)).append (hbroken _)).append (hpaused _)
  rw [hb] at hall
  exact hall

/-- The branches are recorded before any layer is. -/
theorem takes_branches (hm : state.process.Mirrors store ∅) (rows : List Branch) : ∃ process count,
    Takes hash state (rows.map .branch) { state with process := process, branches := count } ∧
      process.Mirrors { store with
        branches := rows.foldl (fun found branch => AList.insert branch.id branch found) store.branches } ∅ := by
  induction rows generalizing state store with
  | nil => exact ⟨state.process, state.branches, .nil, hm⟩
  | cons row rest ih =>
    obtain ⟨process, hrun, hm'⟩ := SqliteProcess.Agree.run (hm.putBranch row :)
    obtain ⟨last, count, htakes, hlast⟩ :=
      @ih _ { state with process := process, branches := state.branches + 1 } hm'
    refine ⟨last, count, .cons (fun line => ?_) htakes, hlast⟩
    rw [take, Calls.bind_ok (onProcess_run hrun)]
    rfl

theorem nodup_branchIds (hids : ∀ {id branch}, conn.branches.lookup id = some branch → branch.id = id) :
    ((conn.readBranches.insertionSort fun branch next => branch.id ≤ next.id).map Branch.id).Nodup := by
  have hperm := List.perm_insertionSort (fun branch next : Branch => branch.id ≤ next.id) conn.readBranches
  rw [(hperm.map Branch.id).nodup_iff, readBranches, AssocMap.map_values hids]
  exact conn.branches.nodupKeys

/-- An import begins with nothing, and has the branches before it has a layer. -/
theorem ready_start (ho : Orderly hash texts registry) : ∃ state,
    Takes hash (.start none) (besideRecords registry.beside ++ branchRecords registry.conn.readBranches) state ∧
      Ready registry (carried registry.beside) [] state := by
  have hstart : (Importing.start none).process.Mirrors .new ∅ := SqliteProcess.mirrors_new
  obtain ⟨process, count, htakes, hm⟩ := @takes_branches hash .new
    { Importing.start none with beside := carried registry.beside } hstart
    (registry.conn.readBranches.insertionSort fun branch next => branch.id ≤ next.id)
  refine ⟨_, (takes_beside rfl registry.beside).append htakes, Standing.ready ⟨rfl, rfl, ⟨_, ?_, hm⟩, ?_⟩⟩
  · refine ⟨fun _ => rfl, fun _ => by simp [MemoryStorage.new], by simp, by simp,
      fun _ => by simp [MemoryStorage.new], fun _ _ => by simp [MemoryStorage.new], fun id =>
      Option.ext fun branch => ?_⟩
    refine (AssocMap.lookup_foldl_insert (nodup_branchIds ho.branchIds) _).trans ?_
    rw [List.mem_insertionSort, readBranches, AssocMap.mem_values]
    constructor
    · rintro (⟨⟨key, hl⟩, rfl⟩ | ⟨-, hl⟩)
      · rw [ho.branchIds hl]
        exact hl
      · cases hl
    · exact fun hl => Or.inl ⟨⟨id, hl⟩, ho.branchIds hl⟩
  · intro pid bytes
    simp [Importing.start]

/-- A registry has come back: the layers, what is in them and the branches are those of the other one, so is the
content that its events refer to, and the files beside the store are the ones an export carries. -/
structure CameBack (registry registry' : Registry) : Prop where
  layers : exportedLayers registry'.conn.readLayers = exportedLayers registry.conn.readLayers
  described : ∀ {id row layer}, registry'.conn.layers.lookup id = some row → row.metadata = some layer →
    (registry.conn.layers.lookup id).bind LayerRow.layer = some layer
  committed : ∀ id, registry'.conn.isCommitted id = registry.conn.isCommitted id
  events : ∀ id, registry.conn.isCommitted id → registry'.conn.readLayer id = registry.conn.readLayer id
  defs : ∀ id, registry.conn.isCommitted id → registry'.conn.readDefLayer id = registry.conn.readDefLayer id
  branches : ∀ id, registry'.conn.branches.lookup id = registry.conn.branches.lookup id
  content : ∀ pid bytes, registry'.interned.lookup pid = some bytes ↔ registry.interned.lookup pid = some bytes ∧
    ∃ id, registry.conn.isCommitted id ∧ Refers id (registry.conn.readLayer id) pid
  beside : registry'.beside = carried registry.beside

/-- An import that has every layer has the registry. -/
theorem Standing.cameBack (h : Standing registry (carried registry.beside) done state)
    (ho : Orderly hash texts registry)
    (hdone : ∀ id, id ∈ done ↔ registry.conn.isCommitted id) :
    CameBack registry ⟨state.process.conn, state.interned, state.beside⟩ := by
  obtain ⟨base, hreplica, hm⟩ := h.store
  have hcommitted (id : LayerId) : state.process.conn.isCommitted id ↔ registry.conn.isCommitted id := by
    rw [← hdone, ← hreplica.members]
    refine ⟨hm.of_committed, fun hsome => ?_⟩
    obtain ⟨membership, hmember⟩ := Option.isSome_iff_exists.1 hsome
    exact (hm.committed hmember).1
  have hrow (id : LayerId) (hc : registry.conn.isCommitted id) :
      (state.process.conn.layers.lookup id).bind LayerRow.layer =
        (registry.conn.layers.lookup id).bind LayerRow.layer := by
    obtain ⟨row, hr, hstate⟩ := isCommitted_iff.1 ((hcommitted id).2 hc)
    obtain ⟨row', hr', hstate'⟩ := isCommitted_iff.1 hc
    have hmeta := hm.metadata hr
    rw [hreplica.described, if_pos ((hdone id).2 hc), hr', Option.bind_some] at hmeta
    rw [hr, hr', Option.bind_some, Option.bind_some, LayerRow.layer, hmeta, hstate]
    unfold LayerRow.layer
    rw [hstate']
    cases row'.metadata <;> rfl
  refine
    { layers := ?_
      described := fun {id row layer} hr hmeta => ?_
      committed := fun id => Bool.eq_iff_iff.2 (hcommitted id)
      events := fun id hc => ?_
      defs := fun id hc => ?_
      branches := fun id => ?_
      content := fun pid bytes => ?_
      beside := h.beside }
  · obtain ⟨-, -, hd⟩ := ho.tables
    have hd' : Described state.process.conn := hm.describes
    refine Rows.eq_of_pairwise_lt Layer.id (ascending hd') (ascending hd) fun layer => ?_
    rw [mem_exportedLayers hd', mem_exportedLayers hd, hcommitted]
    exact and_congr_right fun hc => by rw [hrow _ hc]
  · rw [hm.metadata hr, hreplica.described] at hmeta
    split at hmeta
    · exact hmeta
    · cases hmeta
  · rw [← hreplica.contents id ((hdone id).2 hc)]
    exact hm.readLayer ((hcommitted id).2 hc)
  · rw [← hreplica.defs id ((hdone id).2 hc)]
    obtain ⟨membership, hmember⟩ := Option.isSome_iff_exists.1 (hm.of_committed ((hcommitted id).2 hc))
    exact (hm.committed hmember).2.2.2.ofGroup
  · rw [← hreplica.branches, ← hm.branches]
  · refine (h.content pid bytes).trans (and_congr_right fun _ => exists_congr fun id => ?_)
    rw [hdone]

/-- A stream that was exported is read to its end. -/
theorem restore_of_export (ho : Orderly hash texts registry)
    (he : exported texts binary registry = .ok records) {codec : Codec} (hc : ∀ record ∈ records, codec.Reads record) :
    ∃ state, restore hash codec 1 (records.map codec.encode) (.start none) = .ok binary state ∧
      CameBack registry ⟨state.process.conn, state.interned, state.beside⟩ := by
  obtain ⟨ht, -, hd⟩ := ho.tables
  rw [exported_legible ho.legible] at he
  obtain ⟨blocks, hblocks, he⟩ := Calls.except_bind_eq_ok he
  cases he
  obtain ⟨first, htakes, hready⟩ := ready_start ho
  have hlayers (id : LayerId) (hc : registry.conn.isCommitted id) :
      ∃ layer ∈ exportedLayers registry.conn.readLayers, layer.id = id := by
    obtain ⟨layer, hl⟩ := Option.isSome_iff_exists.1 (ho.described hc)
    obtain ⟨row, hr, hl'⟩ := Option.bind_eq_some_iff.1 hl
    obtain ⟨rfl, -, -⟩ := layer_of_row hd hr hl'
    exact ⟨layer, (mem_exportedLayers hd).2 ⟨hc, hl⟩, rfl⟩
  obtain ⟨last, done, htakes', ⟨closed, hclose, hstanding⟩, hdone⟩ :=
    hready.blocks ho (Calls.forall₂_of_mapM hblocks) (fun _ hin => hin) (ascending hd)
      (fun id hin => absurd hin List.not_mem_nil) fun id hc => Or.inr (hlayers id hc)
  have hcomplete (id : LayerId) : id ∈ done ↔ registry.conn.isCommitted id := by
    rw [hdone]
    refine ⟨fun hor => ?_, fun hc => Or.inr (hlayers id hc)⟩
    obtain ⟨layer, hin, rfl⟩ := hor.resolve_left List.not_mem_nil
    exact ((mem_exportedLayers hd).1 hin).1
  obtain ⟨hheader, hblank⟩ := hc _ List.mem_cons_self
  have hread := (htakes.append htakes').readOn (fun record hin => hc record (List.mem_cons_of_mem _ hin)) 2
  have hparsed : lifted (parsed codec 1 (codec.encode (.header streamVersion binary))) (.start none) =
      .ok (.header streamVersion binary) (.start none) := by
    rw [parsed, hheader]
    rfl
  refine ⟨closed, ?_, hstanding.cameBack ho hcomplete⟩
  rw [List.map_cons, restore, if_neg hblank, Calls.bind_ok hparsed]
  dsimp only
  rw [if_neg (not_not.2 rfl), Calls.bind_ok hread, Calls.bind_ok hclose]
  rfl

theorem imported_of_restore {codec : Codec} {lines : List String} {binary : String}
    (h : restore hash codec 1 lines (.start none) = .ok binary state) (path : String) :
    imported hash codec path none lines =
      (.ok ⟨state.layers, state.events, state.branches, state.head, binary⟩,
        some ⟨state.process.conn, state.interned, state.beside⟩) := by
  rw [imported, if_neg (by decide), h]

/-- **What is exported comes back**: the import goes through, under the same binary's name, and every layer, event,
def and branch, the content that is referred to and the files beside the store are there. -/
theorem import_of_export (ho : Orderly hash texts registry) (binary path : String)
    (he : exported texts binary registry = .ok records) {codec : Codec} (hc : ∀ record ∈ records, codec.Reads record) :
    ∃ summary registry', imported hash codec path none (records.map codec.encode) = (.ok summary, some registry') ∧
      summary.writtenBy = binary ∧ CameBack registry registry' := by
  obtain ⟨state, hrun, hback⟩ := restore_of_export ho he hc
  exact ⟨_, _, imported_of_restore hrun path, rfl, hback⟩

/-! ### Exported again -/

theorem besideRecords_carried (beside : Sidecars) : besideRecords (carried beside) = besideRecords beside := by
  have hproducers := List.pairwise_insertionSort (fun row next : Repo.Implementation => row.id ≤ next.id)
    beside.producers
  have htotal : Std.Total fun row next : BrokenProducer =>
      row.branch < next.branch ∨ row.branch = next.branch ∧ row.producer ≤ next.producer := ⟨fun row next => by
    rcases lt_trichotomy row.branch next.branch with hlt | heq | hgt
    · exact Or.inl (Or.inl hlt)
    · refine (le_total row.producer next.producer).imp (fun hle => Or.inr ⟨heq, hle⟩) ?_
      exact fun hle => Or.inr ⟨heq.symm, hle⟩
    · exact Or.inr (Or.inl hgt)⟩
  have htrans : IsTrans BrokenProducer fun row next =>
      row.branch < next.branch ∨ row.branch = next.branch ∧ row.producer ≤ next.producer := ⟨by
    rintro row next last (hlt | ⟨heq, hle⟩) (hlt' | ⟨heq', hle'⟩)
    · exact Or.inl (hlt.trans hlt')
    · exact Or.inl (heq' ▸ hlt)
    · exact Or.inl (heq ▸ hlt')
    · exact Or.inr ⟨heq.trans heq', hle.trans hle'⟩⟩
  have hbroken := List.pairwise_insertionSort (fun row next : BrokenProducer =>
    row.branch < next.branch ∨ row.branch = next.branch ∧ row.producer ≤ next.producer) beside.broken
  have hpaused : ((beside.paused.insertionSort (· ≤ ·)).destutter (· ≠ ·)).Pairwise (· ≤ ·) :=
    (List.pairwise_insertionSort (· ≤ ·) beside.paused).sublist (List.destutter_sublist ..)
  simp only [besideRecords, carried]
  rw [hproducers.insertionSort_eq, hbroken.insertionSort_eq, hpaused.insertionSort_eq, List.destutter_idem]

theorem memberRecords_congr {interned interned' : Interned} {layer : LayerId} {events : List Event}
    (h : ∀ pid, Refers layer events pid → interned'.lookup pid = interned.lookup pid) (seen : List Pid) :
    memberRecords interned' layer seen events = memberRecords interned layer seen events := by
  induction events generalizing seen with
  | nil => rfl
  | cons event rest ih =>
    have hrest := ih fun pid hr => h pid (refers_cons.2 (Or.inr hr))
    rw [memberRecords, memberRecords]
    split
    · rw [hrest]
    · rename_i hown
      cases hcontent : Values.contentOf event.value with
      | none => simp only [hrest]
      | some pid =>
        have hread : contentRecords interned' pid = contentRecords interned pid := by
          have hl := h pid (refers_cons.2 (Or.inl ⟨not_not.1 hown, hcontent⟩))
          unfold contentRecords
          cases pid with
          | allocated kind branch allocator counter => rfl
          | content kind hash => rw [Values.readInterned, Values.readInterned, hl]
        simp only [hrest, hread]

/-- What is read back of a registry is read back of the one that came of it. -/
theorem CameBack.legible (h : CameBack registry registry') (hl : texts.Legible registry.conn) :
    texts.Legible registry'.conn where
  events {id event} hc hin := by
    rw [h.committed] at hc
    exact hl.events hc (h.events id hc ▸ hin)
  defs {id event} hc hin := by
    rw [h.committed] at hc
    exact hl.defs hc (h.defs id hc ▸ hin)
  layers {id row layer} hr hm state := by
    obtain ⟨found, hfound, hlayer⟩ := Option.bind_eq_some_iff.1 (h.described hr hm)
    obtain ⟨described, hmeta, rfl⟩ := Option.map_eq_some_iff.1 hlayer
    exact hl.layers hfound hmeta state
  branches hb := hl.branches ((h.branches _).symm.trans hb)

theorem CameBack.blockRecords_eq (h : CameBack registry registry') (hl : texts.Legible registry.conn)
    (hc : registry.conn.isCommitted layer.id) :
    blockRecords texts registry' layer = blockRecords texts registry layer := by
  have hinterned (pid : Pid) (hr : Refers layer.id (registry.conn.readLayer layer.id) pid) :
      registry'.interned.lookup pid = registry.interned.lookup pid :=
    Option.ext fun bytes => (h.content pid bytes).trans (and_iff_left ⟨layer.id, hc, hr⟩)
  rw [blockRecords_legible hl hc, blockRecords_legible (h.legible hl) (h.committed _ ▸ hc), h.events _ hc, h.defs _ hc,
    memberRecords_congr hinterned]

theorem CameBack.branchRecords_eq (h : CameBack registry registry') (ho : Orderly hash texts registry) :
    branchRecords registry'.conn.readBranches = branchRecords registry.conn.readBranches := by
  have hsorted {conn : Database} (hids : ∀ {id branch}, conn.branches.lookup id = some branch → branch.id = id) :
      (conn.readBranches.insertionSort fun branch next => branch.id ≤ next.id).Pairwise fun branch next =>
        branch.id < next.id := by
    have hle := List.pairwise_insertionSort (fun branch next : Branch => branch.id ≤ next.id) conn.readBranches
    exact (hle.and (List.pairwise_map.1 (nodup_branchIds hids))).imp fun hboth => lt_of_le_of_ne hboth.1 hboth.2
  unfold branchRecords
  rw [Rows.eq_of_pairwise_lt Branch.id (hsorted fun hl => ho.branchIds ((h.branches _).symm.trans hl))
    (hsorted ho.branchIds)]
  intro branch
  simp only [List.mem_insertionSort, readBranches, AssocMap.mem_values, h.branches]

theorem CameBack.exported_eq (h : CameBack registry registry') (ho : Orderly hash texts registry) (binary : String) :
    exported texts binary registry' = exported texts binary registry := by
  obtain ⟨-, -, hd⟩ := ho.tables
  have hblocks (layers : List Layer) (hin : ∀ layer ∈ layers, layer ∈ exportedLayers registry.conn.readLayers) :
      layers.mapM (blockRecords texts registry') = layers.mapM (blockRecords texts registry) := by
    induction layers with
    | nil => rfl
    | cons layer rest ih =>
      have hc := ((mem_exportedLayers hd).1 (hin layer List.mem_cons_self)).1
      rw [List.mapM_cons, List.mapM_cons, h.blockRecords_eq ho.legible hc,
        ih fun other hother => hin other (List.mem_cons_of_mem _ hother)]
  rw [exported_legible ho.legible, exported_legible (h.legible ho.legible), h.layers, hblocks _ fun _ hin => hin,
    h.branchRecords_eq ho, h.beside, besideRecords_carried]

/-- **What was imported is exported as the stream it was imported from.** -/
theorem export_again (ho : Orderly hash texts registry) (binary path : String)
    (he : exported texts binary registry = .ok records) {codec : Codec} (hc : ∀ record ∈ records, codec.Reads record)
    {summary : Imported}
    (hi : imported hash codec path none (records.map codec.encode) = (.ok summary, some registry')) :
    exported texts binary registry' = .ok records := by
  obtain ⟨state, hrun, hback⟩ := restore_of_export ho he hc
  rw [imported_of_restore hrun] at hi
  cases hi
  rw [hback.exported_eq ho, he]

/-! ### Two branches -/

namespace Sample

def name : CellRef := ⟨.objectProp "Acme" "name", .pid (.allocated .object 1 1 1)⟩

def loud : CellRef := ⟨.objectProp "Acme" "loud", .pid (.allocated .object 1 1 1)⟩

/-- The bytes themselves, as far as they go. -/
def digest (bytes : List UInt8) : Vector UInt8 32 := Vector.ofFn fun i => bytes.getD i 0

def greeting : List UInt8 := [0x68, 0x69]

def hello : Pid := .content .string (digest greeting)

def defs : List DefEvent :=
  [.declareField "Acme" "name" .string 1 .source, .declareField "Acme" "loud" .bool 1 (.derived 9),
    .pushProducer ⟨9, .pipeline, .object "Acme", 4, 1, some "f9"⟩]

def derivation : Derivation := ⟨9, 5, [⟨name, 4⟩]⟩

/-- A layer of defs, one that stores content, one on a branch that derives from it, and one that names an event of
that branch; a fifth is left open. -/
def calls : List StoreCall :=
  [.putBranch ⟨1, some "main", none⟩, .putBranch ⟨2, some "dev", some 5⟩,
    .openLayer 1 4, .putDef 4 defs[0], .putDef 4 defs[1], .putDef 4 defs[2], .sealLayer 4,
    .putLayerMeta ⟨4, 1, .defs, .source, .sealed, none, []⟩, .commitLayer 4,
    .openLayer 1 5, .authorEvent 5 name ⟨.ref hello, 4, .source, none⟩,
    .authorEvent 5 loud ⟨.bool false, 4, .source, none⟩, .sealLayer 5,
    .putLayerMeta ⟨5, 1, .value, .source, .sealed, some 4, [⟨[name], 4⟩]⟩, .commitLayer 5,
    .openLayer 2 6, .authorEvent 6 loud ⟨.bool true, 4, .derived, some derivation⟩, .sealLayer 6,
    .putLayerMeta ⟨6, 2, .value, .derived 9 5, .sealed, none, []⟩, .commitLayer 6,
    .openLayer 1 7, .includeEvent 7 3, .authorEvent 7 name ⟨.tombstone, 4, .source, none⟩, .sealLayer 7,
    .putLayerMeta ⟨7, 1, .value, .source, .sealed, some 5, []⟩, .commitLayer 7,
    .openLayer 1 8, .authorEvent 8 name ⟨.int 7, 4, .source, none⟩]

def process : SqliteProcess := SqliteProcess.new.after calls

def files : Sidecars where
  allocations := ⟨12⟩
  transactions := { (default : Transactions) with txIdleTimeout := 60 }
  producers := [⟨9, "loud", "Acme", "bin/loud", .stdio⟩]
  paused := [2]
  broken := [⟨1, 9, 4, "no such file", 6⟩]

def site : Registry := ⟨process.conn, AList.insert hello greeting ∅, files⟩

def stream : List Record :=
  [.header 1 "borg", .allocations 12, .txTimeout 60, .producer ⟨9, "loud", "Acme", "bin/loud", .stdio⟩,
    .poison ⟨1, 9, 4, "no such file", 6⟩, .paused 2, .branch ⟨1, some "main", none⟩, .branch ⟨2, some "dev", some 5⟩,
    .layer ⟨4, 1, .defs, .source, none, []⟩, .define defs[0], .define defs[1], .define defs[2],
    .layer ⟨5, 1, .value, .source, some 4, [⟨["Acme:o-040g2.name"], 4⟩]⟩,
    .content ⟨hello.display.getD "", some "hi", none⟩,
    .event ⟨1, "Acme:o-040g2.name", .ref (hello.display.getD ""), 4, .source, none⟩,
    .event ⟨2, "Acme:o-040g2.loud", .bool false, 4, .source, none⟩,
    .layer ⟨6, 2, .value, .derived 9 5, none, []⟩,
    .event ⟨3, "Acme:o-040g2.loud", .bool true, 4, .derived, some ⟨9, 5, [⟨"Acme:o-040g2.name", 4⟩]⟩⟩,
    .layer ⟨7, 1, .value, .source, some 5, []⟩, .member 3,
    .event ⟨4, "Acme:o-040g2.name", .tombstone, 4, .source, none⟩]

/-- What is written as its place in a list, and read back from it. -/
def place {α : Type} [DecidableEq α] (known : List α) (a : α) : String :=
  String.ofList [Char.ofNat (48 + known.idxOf a)]

def placed {α : Type} [DecidableEq α] (known : List α) (text : String) : Option α :=
  known.find? fun a => text = place known a

def codec : Codec where
  encode := place stream
  decode text := match placed stream text with
    | some record => .ok record
    | none => .error "no record"

def json {α : Type} [DecidableEq α] (known : List α) : Json α where
  encode := place known
  decode text := match placed known text with
    | some a => .ok a
    | none => .error (.storage "expected value")

def states : List LayerState := [.open, .sealed, .committed, .aborted]

def described : List Layer :=
  [⟨4, 1, .defs, .source, .sealed, none, []⟩, ⟨5, 1, .value, .source, .sealed, some 4, [⟨[name], 4⟩]⟩,
    ⟨6, 2, .value, .derived 9 5, .sealed, none, []⟩, ⟨7, 1, .value, .source, .sealed, some 5, []⟩]

def columns : Texts where
  buffer := json [name.buffer, loud.buffer]
  key := json [name.key]
  value := json [.ref hello, .bool false, .bool true, .tombstone]
  derivation := json [derivation]
  defEvent := json defs
  layer := json (states.flatMap fun state =>
    described.map fun layer => { layer with state })
  branch := json [⟨1, some "main", none⟩, ⟨2, some "dev", some 5⟩]

theorem reads : ∀ record ∈ stream, codec.Reads record := by
  unfold Codec.Reads
  decide +kernel

theorem exports : exported columns "borg" site = .ok stream := by
  decide +kernel

theorem forall_committed {p : LayerId → Prop} (h : ∀ id ∈ site.conn.layers.keys, p id) {id : LayerId}
    (hc : site.conn.isCommitted id) : p id := by
  obtain ⟨row, hr, -⟩ := isCommitted_iff.1 hc
  exact h id (AssocMap.mem_keys_iff.2 ⟨row, hr⟩)

theorem reached : SqliteProcess.Reachable process :=
  SqliteProcess.Steps.calls ⟨trivial, trivial, trivial, rfl, rfl, rfl, rfl, ⟨List.mem_cons_self, rfl⟩,
    List.mem_cons_self, trivial, rfl, rfl, rfl, ⟨List.mem_cons_self, rfl⟩, List.mem_cons_self, trivial, rfl, rfl,
    ⟨List.mem_cons_self, rfl⟩, List.mem_cons_self, trivial, ⟨rfl, _, rfl, rfl⟩, rfl, rfl,
    ⟨List.mem_cons_self, rfl⟩, List.mem_cons_self, trivial, rfl, trivial⟩

theorem legible : columns.Legible site.conn where
  events {id event} hc hin := by
    have hall : ∀ id ∈ site.conn.layers.keys, ∀ event ∈ site.conn.readLayer id, columns.toEvent event = .ok event := by
      decide +kernel
    exact forall_committed hall hc event hin
  defs {id event} hc hin := by
    have hall : ∀ id ∈ site.conn.layers.keys, ∀ event ∈ site.conn.readDefLayer id,
        columns.defEvent.carry event = .ok event := by decide +kernel
    exact forall_committed hall hc event hin
  layers {id row layer} hr hm state := by
    have hall : ∀ row ∈ site.conn.layers.values, ∀ layer ∈ row.metadata, ∀ state ∈ states,
        columns.layer.carry { layer with state } = .ok { layer with state } := by decide +kernel
    exact hall row (AssocMap.mem_values.2 ⟨id, hr⟩) layer hm state (by cases state <;> decide)
  branches {id branch} hb := by
    have hall : ∀ branch ∈ site.conn.branches.values, columns.branch.carry branch = .ok branch := by decide +kernel
    exact hall branch (AssocMap.mem_values.2 ⟨id, hb⟩)

theorem mem_readLayer (hin : event ∈ conn.readLayer id) :
    ∃ row ∈ conn.layerEvents.toPairs, row.1.1 = id ∧ conn.events.lookup row.2 = some event := by
  obtain ⟨found, hm, he⟩ := List.mem_filterMap.1 hin
  obtain ⟨row, hrow, rfl⟩ := List.mem_map.1 hm
  obtain ⟨hpairs, hgroup⟩ := List.mem_filter.1 ((List.mem_insertionSort _).1 hrow)
  exact ⟨row, hpairs, of_decide_eq_true hgroup, he⟩

theorem orderly : Orderly digest columns site where
  reached := ⟨process, reached, by rw [site]⟩
  legible := legible
  described {id} hc := by
    have hall : ∀ id ∈ site.conn.layers.keys, site.conn.isCommitted id →
        ((site.conn.layers.lookup id).bind LayerRow.layer).isSome := by decide +kernel
    exact forall_committed hall hc hc
  printable {id event} hin := by
    obtain ⟨row, -, -, he⟩ := mem_readLayer hin
    have hall : ∀ event ∈ site.conn.events.values, event.value ∈ [.ref hello, .bool false, .bool true, .tombstone] := by
      decide +kernel
    have hvalue := hall event (AssocMap.mem_values.2 ⟨_, he⟩)
    simp only [List.mem_cons, List.not_mem_nil, or_false] at hvalue
    rcases hvalue with h | h | h | h <;> rw [h] <;> trivial
  earlier {id event} hin := by
    obtain ⟨row, hrow, rfl, he⟩ := mem_readLayer hin
    have hall : ∀ row ∈ site.conn.layerEvents.toPairs, ∀ event ∈ site.conn.events.lookup row.2,
        event.authored ≤ row.1.1 := by decide +kernel
    exact hall row hrow event he
  ofKind := by decide +kernel
  addressed {pid bytes} hl := by
    have hall : ∀ row ∈ site.interned.toPairs, Values.contentPid digest row.1.kind row.2 = .ok row.1 := by
      decide +kernel
    exact hall (pid, bytes) (AssocMap.mem_toPairs.2 hl)

end Sample

theorem import_of_export_two_branches : ∃ summary registry',
    imported Sample.digest Sample.codec "data" none (Sample.stream.map Sample.codec.encode) =
        (.ok summary, some registry') ∧
      summary.writtenBy = "borg" ∧ CameBack Sample.site registry' :=
  import_of_export Sample.orderly "borg" "data" Sample.exports Sample.reads

theorem export_again_two_branches : ∃ summary registry',
    imported Sample.digest Sample.codec "data" none (Sample.stream.map Sample.codec.encode) =
        (.ok summary, some registry') ∧
      exported Sample.columns "borg" registry' = .ok Sample.stream := by
  obtain ⟨state, hrun, -⟩ := restore_of_export Sample.orderly Sample.exports Sample.reads
  have hi := imported_of_restore hrun "data"
  exact ⟨_, _, hi, export_again Sample.orderly "borg" "data" Sample.exports Sample.reads hi⟩

end Stream

end BorgCore
