import BorgCore.Lib.Calls
import BorgCore.Storage.Process
import BorgCore.Storage.Seeks

/-!
# The tables mirror the memory store

What a process has in the tables and in its handles is what a memory store has: the same layers committed
with the same members, and the same layers open, part of their members flushed and the rest pending.  Rows
may be left of layers nobody has a handle of; a memory store has nothing for those.
-/

namespace BorgCore

/-- The staged layer with one more member. -/
def StagedLayer.taking (staged : StagedLayer) (id : EventId) (authored : Option Event) : StagedLayer :=
  { staged with members := staged.members ++ [id], authored := staged.authored ++ authored.toList }

namespace Database

variable {db db' : Database} {store store' : MemoryStorage} {handle other : SqliteOpenLayer}
  {staged staged' : StagedLayer} {layer : LayerId} {id : EventId} {event : Event} {rows : List PendingRow}
  {ids : List EventId}

/-- An open layer, in the tables and in its handle, is a staged layer of the memory store. -/
structure Writing (db : Database) (handle : SqliteOpenLayer) (staged : StagedLayer) : Prop where
  row : db.layers.lookup handle.id = some ⟨handle.branch, .open, none⟩
  branch : staged.branch = handle.branch
  unsealed : staged.isSealed = false
  split : ∃ ids, db.layerEvents.Holds handle.id ids ∧
    staged.members = ids ++ handle.pending.map PendingRow.event ∧ db.Ready handle.id ids handle.pending
  seq : handle.seq = staged.members.length
  defs : db.defEvents.Holds handle.id staged.defs
  defCount : handle.defs = staged.defs.length
  authored : ∀ event, event ∈ staged.authored ↔
    db.events.lookup event.id = some event ∧ event.authored = handle.id ∨
      event ∈ handle.pending.filterMap PendingRow.authored
  indexed : db.Projects handle.id
  authors : db.Authors handle.id

/-- A sealed layer, in the tables alone, is a sealed layer of the memory store. -/
structure Closed (db : Database) (layer : LayerId) (staged : StagedLayer) : Prop where
  row : ∃ row, db.layers.lookup layer = some row ∧ row.branch = staged.branch ∧ row.state = .sealed
  closed : staged.isSealed = true
  members : db.layerEvents.Holds layer staged.members
  defs : db.defEvents.Holds layer staged.defs
  authored : ∀ event, event ∈ staged.authored ↔
    db.events.lookup event.id = some event ∧ event.authored = layer
  indexed : db.Projects layer
  authors : db.Authors layer

/-- What a layer authored is found by its identity. -/
theorem find?_authored {authored : List Event} (hsound : db.Sound) (hauthored : ∀ event, event ∈ authored ↔
    db.events.lookup event.id = some event ∧ event.authored = layer) :
    authored.find? (fun event => event.id = id) = some event ↔
      db.events.lookup id = some event ∧ event.authored = layer := by
  constructor
  · intro hf
    obtain ⟨he, howner⟩ := (hauthored event).1 (List.mem_of_find?_eq_some hf)
    have hid : event.id = id := by simpa using List.find?_some hf
    exact ⟨hid ▸ he, howner⟩
  · rintro ⟨he, howner⟩
    have hid := hsound.event_id he
    have hin := (hauthored event).2 ⟨hid ▸ he, howner⟩
    cases hf : authored.find? fun event => event.id = id with
    | none => exact absurd (decide_eq_true hid) (List.find?_eq_none.1 hf event hin)
    | some found =>
      have hfound : found.id = id := by simpa using List.find?_some hf
      have hsame := ((hauthored found).1 (List.mem_of_find?_eq_some hf)).1
      rw [hfound, he] at hsame
      exact hsame.symm

theorem Writing.branchOf (h : db.Writing handle staged) : db.branchOf handle.id = some handle.branch := by
  rw [Database.branchOf, h.row]
  rfl

theorem Writing.not_committed (h : db.Writing handle staged) : ¬ db.isCommitted handle.id := by
  rw [isCommitted, h.row]
  simp

theorem Writing.congr (h : db.Writing handle staged) (he : db'.events = db.events)
    (hrow : db'.layers.lookup handle.id = db.layers.lookup handle.id)
    (hc : ∀ layer, db.isCommitted layer → db'.isCommitted layer)
    (hm : db'.layerEvents = db.layerEvents)
    (hi : ∀ key, key.landed = handle.id → db'.cellIndex.lookup key = db.cellIndex.lookup key)
    (hd : ∀ defs, db.defEvents.Holds handle.id defs → db'.defEvents.Holds handle.id defs) :
    db'.Writing handle staged where
  row := hrow.trans h.row
  branch := h.branch
  unsealed := h.unsealed
  split := by
    obtain ⟨ids, hrows, hmembers, hready⟩ := h.split
    refine ⟨ids, hm ▸ hrows, hmembers, hready.seq, ?_, ?_, hready.distinct⟩
    · rw [he]
      exact hready.own
    · rw [he]
      exact fun hin hown => (hready.named hin hown).imp fun event hevent => ⟨hevent.1, hc _ hevent.2⟩
  seq := h.seq
  defs := hd _ h.defs
  defCount := h.defCount
  authored := by
    rw [he]
    exact h.authored
  indexed := h.indexed.congr hi (congrArg (Option.map LayerRow.branch) hrow)
    (by rw [readLayer, readMembership, he, hm]; rfl)
  authors := h.authors.congr (fun hl _ => he ▸ hl) fun i => by rw [hm]

theorem Closed.congr (h : db.Closed layer staged) (he : db'.events = db.events)
    (hrow : ∀ row, db.layers.lookup layer = some row → ∃ row', db'.layers.lookup layer = some row' ∧
      row'.branch = row.branch ∧ row'.state = row.state)
    (hm : db'.layerEvents = db.layerEvents)
    (hi : ∀ key, key.landed = layer → db'.cellIndex.lookup key = db.cellIndex.lookup key)
    (hd : ∀ defs, db.defEvents.Holds layer defs → db'.defEvents.Holds layer defs) :
    db'.Closed layer staged where
  row := by
    obtain ⟨row, hl, hb, hs⟩ := h.row
    obtain ⟨row', hl', hb', hs'⟩ := hrow row hl
    exact ⟨row', hl', hb'.trans hb, hs'.trans hs⟩
  closed := h.closed
  members := hm ▸ h.members
  defs := hd _ h.defs
  authored := by
    rw [he]
    exact h.authored
  indexed := by
    obtain ⟨row, hl, -⟩ := h.row
    obtain ⟨row', hl', hb', -⟩ := hrow row hl
    refine h.indexed.congr hi ?_ (by rw [readLayer, readMembership, he, hm]; rfl)
    rw [branchOf, branchOf, hl, hl', Option.map_some, Option.map_some, hb']
  authors := h.authors.congr (fun hl _ => he ▸ hl) fun i => by rw [hm]

theorem Ready.concat (h : db.Ready layer ids rows) {row : PendingRow} (hseq : row.seq = ids.length + rows.length)
    (hown : ∀ event, row.authored = some event → event.id = row.event ∧ event.authored = layer ∧
      db.events.lookup row.event = none ∧ ∀ other ∈ rows.filterMap PendingRow.authored, other.id ≠ row.event)
    (hnamed : row.authored = none → ∃ event, db.events.lookup row.event = some event ∧
      db.isCommitted event.authored) : db.Ready layer ids (rows ++ [row]) where
  seq {i found} hi := by
    rcases Nat.lt_trichotomy i rows.length with hlt | rfl | hgt
    · exact h.seq ((List.getElem?_append_left hlt).symm.trans hi)
    · rw [List.getElem?_append_right (Nat.le_refl _), Nat.sub_self, List.getElem?_cons_zero] at hi
      exact Option.some.inj hi ▸ hseq
    · rw [List.getElem?_eq_none (by simp; omega)] at hi
      cases hi
  own {found event} hm he := by
    rcases List.mem_append.1 hm with hm | hm
    · exact h.own hm he
    · obtain rfl := List.mem_singleton.1 hm
      obtain ⟨hid, howner, hnew, -⟩ := hown event he
      exact ⟨hid, howner, hnew⟩
  named {found} hm he := by
    rcases List.mem_append.1 hm with hm | hm
    · exact h.named hm he
    · exact hnamed (List.mem_singleton.1 hm ▸ he) |>.imp fun _ hf => List.mem_singleton.1 hm ▸ hf
  distinct := by
    cases he : row.authored with
    | none => simpa [List.filterMap_append, he] using h.distinct
    | some event =>
      obtain ⟨hid, -, -, hother⟩ := hown event he
      rw [List.filterMap_append, List.filterMap_cons_some he, List.filterMap_nil, List.map_append, List.map_singleton,
        List.nodup_append]
      refine ⟨h.distinct, List.nodup_singleton _, ?_⟩
      rintro found hf last hlast rfl
      obtain ⟨other, ho, rfl⟩ := List.mem_map.1 hf
      exact hother other ho ((List.mem_singleton.1 hlast).trans hid)

/-- What a batch adds to the events are its own, and they are new. -/
theorem Written.lookup_iff (hw : db.Written layer ids rows db') (h : db.Ready layer ids rows) :
    db'.events.lookup id = some event ↔
      event ∈ rows.filterMap PendingRow.authored ∧ event.id = id ∨ db.events.lookup id = some event := by
  have hnew {found : Event} (hin : found ∈ rows.filterMap PendingRow.authored) :
      db.events.lookup found.id = none := by
    obtain ⟨row, hm, hown⟩ := List.mem_filterMap.1 hin
    obtain ⟨hid, -, hfree⟩ := h.own hm hown
    rw [hid, hfree]
  rw [hw.events id]
  cases hf : (rows.filterMap PendingRow.authored).find? fun event => event.id = id with
  | none =>
    rw [Option.none_or]
    refine ⟨Or.inr, fun hor => hor.resolve_left fun hin => ?_⟩
    exact List.find?_eq_none.1 hf event hin.1 (decide_eq_true hin.2)
  | some found =>
    have hin := List.mem_of_find?_eq_some hf
    have hid : found.id = id := by simpa using List.find?_some hf
    rw [Option.some_or]
    constructor
    · rintro ⟨⟩
      exact Or.inl ⟨hin, hid⟩
    · rintro (⟨hin', hid'⟩ | hold)
      · exact congrArg some (List.inj_on_of_nodup_map h.distinct hin hin' (hid.trans hid'.symm))
      · rw [← hid, hnew hin] at hold
        cases hold

/-- A layer has the row, the members and the defs it had, and its members are the events they were. -/
structure Keeps (db db' : Database) (layer : LayerId) : Prop where
  row : db'.layers.lookup layer = db.layers.lookup layer
  members : ∀ {ids}, db.layerEvents.Holds layer ids → db'.layerEvents.Holds layer ids
  defs : ∀ {defs}, db.defEvents.Holds layer defs → db'.defEvents.Holds layer defs
  events : ∀ {ids id}, db.layerEvents.Holds layer ids → id ∈ ids → db'.events.lookup id = db.events.lookup id

theorem Keeps.refl (db : Database) (layer : LayerId) : db.Keeps db layer := ⟨rfl, id, id, fun _ _ => rfl⟩

theorem Keeps.trans {db'' : Database} (h : db.Keeps db' layer) (h' : db'.Keeps db'' layer) : db.Keeps db'' layer where
  row := h'.row.trans h.row
  members hm := h'.members (h.members hm)
  defs hd := h'.defs (h.defs hd)
  events hm hid := (h'.events (h.members hm) hid).trans (h.events hm hid)

theorem Written.keeps (hw : db.Written layer ids rows db') (h : db.Ready layer ids rows) (hs : db.Sound)
    {other : LayerId} (hne : other ≠ layer) : db.Keeps db' other where
  row := by rw [hw.layers]
  members hm := hw.others hne hm
  defs hd := hw.defEvents ▸ hd
  events hm hid := by
    obtain ⟨event, he⟩ := hs.mem_events hm hid
    rw [(hw.lookup_iff h).2 (Or.inr he), he]

end Database

/-- The tables and the handles of a process mirror a memory store; rows are left of no layers but the orphans. -/
structure SqliteProcess.Mirrors (process : SqliteProcess) (store : MemoryStorage) (orphans : Set LayerId) :
    Prop where
  tables : process.conn.Sound
  members : process.conn.Owned
  sound : store.Sound
  next : process.storage.nextEvent = store.nextEvent + 1
  branches : process.conn.branches = store.branches
  branchIds : ∀ {id branch}, store.branches.lookup id = some branch → branch.id = id
  /-- A layer's metadata is its own. -/
  describes : ∀ {layer row described}, process.conn.layers.lookup layer = some row →
    row.metadata = some described → described.id = layer ∧ described.branch = row.branch
  metadata : ∀ {layer row}, process.conn.layers.lookup layer = some row →
    row.metadata = store.layerMeta.lookup layer
  described : ∀ {layer}, (store.layerMeta.lookup layer).isSome → (process.conn.layers.lookup layer).isSome
  /-- The events of the memory store are those of committed layers. -/
  events : ∀ id event, store.events.lookup id = some event ↔
    process.conn.events.lookup id = some event ∧ process.conn.isCommitted event.authored
  minted : ∀ {id event}, process.conn.events.lookup id = some event →
    id ≤ store.nextEvent ∧ (process.conn.layers.lookup event.authored).isSome
  committed : ∀ {layer membership}, store.members.lookup layer = some membership →
    process.conn.isCommitted layer ∧ process.conn.branchOf layer = some membership.branch ∧
      process.conn.layerEvents.Holds layer membership.events ∧
      process.conn.defEvents.Holds layer (store.readDefLayer layer)
  of_committed : ∀ {layer}, process.conn.isCommitted layer → (store.members.lookup layer).isSome
  opened : ∀ {layer handle}, process.opened.lookup layer = some handle → handle.id = layer ∧
    ∃ staged, store.staged.lookup layer = some staged ∧ process.conn.Writing handle staged
  closed : ∀ {layer}, layer ∈ process.sealedLayers →
    ∃ staged, store.staged.lookup layer = some staged ∧ process.conn.Closed layer staged
  staged : ∀ {layer}, (store.staged.lookup layer).isSome →
    (process.opened.lookup layer).isSome ∨ layer ∈ process.sealedLayers
  owned : ∀ {layer}, (process.conn.layers.lookup layer).isSome →
    (store.staged.lookup layer).isSome ∨ (store.members.lookup layer).isSome ∨ layer ∈ orphans

namespace SqliteProcess

open Database

variable {process process' : SqliteProcess} {store store' : MemoryStorage} {layer : LayerId}
  {orphans : Set LayerId} {handle : SqliteOpenLayer} {staged : StagedLayer} {event : Event} {id : EventId}

theorem mirrors_new : new.Mirrors .new ∅ where
  tables := sound_empty
  members layer := .inl fun id event h => by simp [new, SqliteStorage.new, empty] at h
  sound := MemoryStorage.sound_new
  next := rfl
  branches := rfl
  branchIds h := by simp [MemoryStorage.new] at h
  describes h := by simp [new, SqliteStorage.new, empty] at h
  metadata h := by simp [new, SqliteStorage.new, empty] at h
  described h := by simp [MemoryStorage.new] at h
  events id event := by simp [new, SqliteStorage.new, empty, MemoryStorage.new]
  minted h := by simp [new, SqliteStorage.new, empty] at h
  committed h := by simp [MemoryStorage.new] at h
  of_committed h := by simp [new, SqliteStorage.new, empty, isCommitted] at h
  opened h := by simp [new] at h
  closed h := by simp [new] at h
  staged h := by simp [MemoryStorage.new] at h
  owned h := by simp [new, SqliteStorage.new, empty] at h

/-! ### The answers -/

theorem Mirrors.readLayer (h : process.Mirrors store orphans) (hc : process.conn.isCommitted layer) :
    process.conn.readLayer layer = store.contents layer := by
  obtain ⟨membership, hm⟩ := Option.isSome_iff_exists.1 (h.of_committed hc)
  rw [readLayer_eq (h.committed hm).2.2.1, MemoryStorage.contents, MemoryStorage.readMembership, hm]
  refine List.filterMap_congr fun id hid => ?_
  obtain ⟨event, he⟩ := Option.isSome_iff_exists.1 (h.sound.stored hm hid)
  rw [he, ((h.events id event).1 he).1]

theorem Mirrors.sameRecords (h : process.Mirrors store orphans) : process.conn.SameRecords store := by
  intro branch cell version layer
  unfold Database.recordAt MemoryStorage.recordAt
  by_cases hc : process.conn.isCommitted layer = true
  · obtain ⟨membership, hm⟩ := Option.isSome_iff_exists.1 (h.of_committed hc)
    rw [hm, (h.committed hm).2.1, h.readLayer hc]
    simp [hc]
  · cases hm : store.members.lookup layer with
    | none => simp [hc]
    | some membership => exact absurd (h.committed hm).1 hc

/-- A layer that is open is neither committed nor anybody else's. -/
theorem Mirrors.writing (h : process.Mirrors store orphans) (hl : process.opened.lookup layer = some handle) :
    ∃ staged, store.staged.lookup layer = some staged ∧ process.conn.Writing handle staged ∧
      handle.id = layer ∧ layer ∉ process.sealedLayers := by
  obtain ⟨hid, staged, hs, hw⟩ := h.opened hl
  refine ⟨staged, hs, hw, hid, fun hin => ?_⟩
  obtain ⟨staged', hs', hclosed⟩ := h.closed hin
  rw [hs] at hs'
  cases hs'
  have := hw.unsealed.symm.trans hclosed.closed
  cases this

/-! ### Calls that end alike -/

/-- Nobody writes the layer any more, or can commit it: it is in the tables, and that is all. -/
structure Settled (process : SqliteProcess) (layer : LayerId) : Prop where
  row : (process.conn.layers.lookup layer).isSome
  unopened : process.opened.lookup layer = none
  unsealed : layer ∉ process.sealedLayers

theorem Settled.ne {other : LayerId} (h : process.Settled layer) (hl : process.opened.lookup other = some handle) :
    layer ≠ other := by
  rintro rfl
  rw [h.unopened] at hl
  cases hl

theorem Settled.ne_sealed {other : LayerId} (h : process.Settled layer) (hin : other ∈ process.sealedLayers) :
    layer ≠ other := by
  rintro rfl
  exact h.unsealed hin

/-- What a call leaves of a process has a settled layer as it was. -/
def Leaves (process process' : SqliteProcess) : Prop :=
  ∀ layer, process.Settled layer → process'.Settled layer ∧ process.conn.Keeps process'.conn layer

theorem Leaves.refl (process : SqliteProcess) : process.Leaves process := fun layer hs => ⟨hs, .refl _ layer⟩

theorem Leaves.trans {process'' : SqliteProcess} (h : process.Leaves process') (h' : process'.Leaves process'') :
    process.Leaves process'' := fun layer hs =>
  have hleft := h layer hs
  have hleft' := h' layer hleft.1
  ⟨hleft'.1, hleft.2.trans hleft'.2⟩

/-- A layer that is written through its handle is not a settled one. -/
theorem leaves_through {other : LayerId} (hl : process.opened.lookup other = some handle)
    {storage : SqliteStorage} {handle' : SqliteOpenLayer}
    (hk : ∀ layer, layer ≠ other → process.conn.Keeps storage.conn layer) :
    process.Leaves { process with storage := storage, opened := process.opened.insert other handle' } :=
  fun layer hs =>
    have hkept := hk layer (hs.ne hl)
    ⟨⟨(congrArg Option.isSome hkept.row).trans hs.row,
      (AssocMap.lookup_insert_eq ..).trans ((if_neg (hs.ne hl)).trans hs.unopened), hs.unsealed⟩, hkept⟩

/-- Two calls end alike: both have the same answer or neither has one, the process one of them leaves mirrors
the store the other leaves, and settled layers are as they were. -/
structure Agree {α : Type} (process : SqliteProcess) (result : EStateM.Result BorgError SqliteProcess α)
    (result' : EStateM.Result BorgError MemoryStorage α) (orphans : Set LayerId) : Prop where
  answer : (Calls.outcome result).toOption = (Calls.outcome result').toOption
  mirrors : (Calls.left result).Mirrors (Calls.left result') orphans
  leaves : process.Leaves (Calls.left result)

theorem Agree.returning {α β : Type} {x : ProcessM α} {y : StoreM α}
    (h : Agree process (x process) (y store) orphans) (f : α → β) :
    Agree process ((do return f (← x) : ProcessM β) process) ((do return f (← y) : StoreM β) store) orphans := by
  simp only [bind, EStateM.bind, pure, EStateM.pure]
  cases hx : x process <;> cases hy : y store <;> rw [hx, hy] at h
  · have heq := h.answer
    cases heq
    exact ⟨rfl, h.mirrors, h.leaves⟩
  · cases h.answer
  · cases h.answer
  · exact ⟨rfl, h.mirrors, h.leaves⟩

/-! ### Opening -/

theorem Mirrors.row_of_staged (h : process.Mirrors store orphans) (hs : (store.staged.lookup layer).isSome) :
    (process.conn.layers.lookup layer).isSome := by
  rcases h.staged hs with hopened | hin
  · obtain ⟨handle, hl⟩ := Option.isSome_iff_exists.1 hopened
    obtain ⟨_, -, hw, rfl, -⟩ := h.writing hl
    rw [hw.row]
    rfl
  · obtain ⟨staged, -, hclosed⟩ := h.closed hin
    obtain ⟨row, hrow, -⟩ := hclosed.row
    rw [hrow]
    rfl

theorem Mirrors.row_of_member (h : process.Mirrors store orphans) (hm : (store.members.lookup layer).isSome) :
    (process.conn.layers.lookup layer).isSome := by
  obtain ⟨membership, hm⟩ := Option.isSome_iff_exists.1 hm
  obtain ⟨row, hrow, -⟩ := isCommitted_iff.1 (h.committed hm).1
  rw [hrow]
  rfl

theorem Mirrors.lookup_eq_none (h : process.Mirrors store orphans) (hrow : process.conn.layers.lookup layer = none) :
    store.staged.lookup layer = none ∧ store.members.lookup layer = none ∧ store.layerMeta.lookup layer = none := by
  have hnone {β : Type} {found : Option β} (hf : found.isSome → (process.conn.layers.lookup layer).isSome) :
      found = none := by
    rw [hrow] at hf
    cases found with
    | none => rfl
    | some _ => exact absurd (hf rfl) Bool.false_ne_true
  exact ⟨hnone h.row_of_staged, hnone h.row_of_member, hnone h.described⟩

/-- A process that has opened a layer. -/
def opening (process : SqliteProcess) (branch : BranchId) (layer : LayerId) : SqliteProcess :=
  { process with
    storage := { process.storage with
      conn := { process.conn with layers := process.conn.layers.insert layer ⟨branch, .open, none⟩ } }
    opened := process.opened.insert layer ⟨layer, branch, 0, 0, []⟩ }

theorem Mirrors.opening (h : process.Mirrors store orphans) (branch : BranchId)
    (hrow : process.conn.layers.lookup layer = none) :
    (process.opening branch layer).Mirrors
      { store with staged := store.staged.insert layer (.fresh branch) } orphans := by
  obtain ⟨hs, hm, hdescribed⟩ := h.lookup_eq_none hrow
  have hlookup (other : LayerId) : (process.opening branch layer).conn.layers.lookup other =
      if other = layer then some ⟨branch, .open, none⟩ else process.conn.layers.lookup other :=
    AssocMap.lookup_insert_eq ..
  have hcommitted (other : LayerId) :
      (process.opening branch layer).conn.isCommitted other = process.conn.isCommitted other := by
    refine (isCommitted_insert ..).trans ?_
    split
    · subst other
      simp [isCommitted, hrow]
    · rfl
  have hne {other : LayerId} {row : LayerRow} (hl : process.conn.layers.lookup other = some row) :
      other ≠ layer := by
    rintro rfl
    rw [hrow] at hl
    cases hl
  refine
    { tables := h.tables.opened hrow branch
      members := h.members.replaced fun hstate => by cases hstate
      sound := h.sound.openLayer branch hm
      next := h.next
      branches := h.branches
      branchIds := h.branchIds
      describes := fun {other row described} hl hd => ?_
      metadata := fun {other row} hl => ?_
      described := fun hd => AssocMap.isSome_lookup_insert (h.described hd) layer _
      events := fun id event => ?_
      minted := fun he => ⟨(h.minted he).1, AssocMap.isSome_lookup_insert (h.minted he).2 layer _⟩
      committed := fun {other membership} hm => ?_
      of_committed := fun {other} hc => h.of_committed (hcommitted other ▸ hc)
      opened := fun {other found} hf => ?_
      closed := fun {other} hin => ?_
      staged := fun {other} hsome => ?_
      owned := fun {other} hl => ?_ }
  · rw [hlookup] at hl
    split at hl
    · cases hl
      cases hd
    · exact h.describes hl hd
  · rw [hlookup] at hl
    split at hl
    · cases hl
      subst other
      exact hdescribed.symm
    · exact h.metadata hl
  · rw [hcommitted]
    exact h.events id event
  · obtain ⟨hc, hb, hheld⟩ := h.committed hm
    obtain ⟨row, hl, -⟩ := isCommitted_iff.1 hc
    refine ⟨(hcommitted other).trans hc, ?_, hheld⟩
    exact (branchOf_insert ..).trans ((if_neg (hne hl)).trans hb)
  · simp only [SqliteProcess.opening, AssocMap.lookup_insert_eq] at hf ⊢
    split at hf
    · cases hf
      subst other
      refine ⟨rfl, _, if_pos rfl, ?_⟩
      exact
        { row := by simp
          branch := rfl
          unsealed := rfl
          split := ⟨[], h.tables.holds_nil hrow, rfl, ready_nil⟩
          seq := rfl
          defs := h.tables.defRows_nil hrow
          defCount := rfl
          authored := fun event => by
            constructor
            · intro hin
              cases hin
            · rintro (⟨he, rfl⟩ | hin)
              · have := (h.minted he).2
                rw [hrow] at this
                cases this
              · cases hin
          indexed := h.tables.projects_of_none hrow branch
          authors := fun id event he howner => by
            have := (h.minted he).2
            rw [howner, hrow] at this
            cases this }
    · rename_i hother
      obtain ⟨hid, staged, hs, hw⟩ := h.opened hf
      refine ⟨hid, staged, by rw [if_neg hother, hs], hw.congr rfl ?_ ?_ rfl (fun _ _ => rfl) fun _ hd => hd⟩
      · exact (hlookup _).trans (if_neg (hid ▸ hother))
      · exact fun other hc => (hcommitted other).trans hc
  · obtain ⟨staged, hs, hclosed⟩ := h.closed hin
    obtain ⟨row, hl, -⟩ := hclosed.row
    refine ⟨staged, ?_, hclosed.congr rfl (fun row hl => ⟨row, ?_, rfl, rfl⟩) rfl (fun _ _ => rfl) fun _ hd => hd⟩
    · exact (AssocMap.lookup_insert_eq ..).trans ((if_neg (hne hl)).trans hs)
    · exact (hlookup other).trans ((if_neg (hne hl)).trans hl)
  · simp only [SqliteProcess.opening, AssocMap.lookup_insert_eq] at hsome ⊢
    split
    · exact Or.inl rfl
    · rename_i hother
      rw [if_neg hother] at hsome
      exact h.staged hsome
  · rw [hlookup] at hl
    simp only [AssocMap.lookup_insert_eq]
    split at hl
    · rename_i heq
      rw [if_pos heq]
      exact Or.inl rfl
    · rename_i hother
      rw [if_neg hother]
      exact h.owned hl

theorem leaves_opening (branch : BranchId) (hrow : process.conn.layers.lookup layer = none) :
    process.Leaves (process.opening branch layer) := by
  intro other hs
  have hne : other ≠ layer := by
    rintro rfl
    have := hs.row
    rw [hrow] at this
    cases this
  have hlookup : (process.opening branch layer).conn.layers.lookup other = process.conn.layers.lookup other :=
    (AssocMap.lookup_insert_eq ..).trans (if_neg hne)
  refine ⟨⟨?_, ?_, hs.unsealed⟩, ⟨hlookup, id, id, fun _ _ => rfl⟩⟩
  · rw [hlookup]
    exact hs.row
  · exact (AssocMap.lookup_insert_eq ..).trans ((if_neg hne).trans hs.unopened)

theorem Mirrors.openLayer (h : process.Mirrors store orphans) (branch : BranchId) (hfree : layer ∉ orphans) :
    Agree process (openLayer branch layer process) (MemoryStorage.openLayer branch layer store) orphans := by
  cases hrow : process.conn.layers.lookup layer with
  | some row =>
    have howned := h.owned (Option.isSome_iff_exists.2 ⟨row, hrow⟩)
    have hbusy : ((store.staged.lookup layer).isSome || (store.members.lookup layer).isSome) = true := by
      rw [Bool.or_eq_true]
      exact howned.imp_right fun hor => hor.resolve_right hfree
    unfold SqliteProcess.openLayer SqliteStorage.openLayer MemoryStorage.openLayer
    rw [hrow, hbusy]
    exact ⟨rfl, h, .refl process⟩
  | none =>
    obtain ⟨hs, hm, -⟩ := h.lookup_eq_none hrow
    rw [MemoryStorage.openLayer_run branch hs hm]
    unfold SqliteProcess.openLayer SqliteStorage.openLayer
    rw [hrow]
    exact ⟨rfl, h.opening branch hrow, leaves_opening branch hrow⟩

end SqliteProcess

end BorgCore
