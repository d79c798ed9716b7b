import BorgCore.Storage.Backends

/-!
# What a process leaves to the next one

Layers that were committed when a process stopped are there for the next one, and layers that were not are
cut off: the tables have their rows, nobody has their handle, and nobody ever sees them.  A seal or an abort
that stops half way cuts its layer off as well.
-/

namespace BorgCore

namespace SqliteProcess

open Database

variable {process process' : SqliteProcess} {store : MemoryStorage} {orphans : Set LayerId} {layer : LayerId}
  {made : StoreCall} {handle : SqliteOpenLayer}

theorem le_foldr_max {id : EventId} {ids : List EventId} (h : id ∈ ids) : id ≤ ids.foldr max 0 := by
  induction ids with
  | nil => cases h
  | cons head rest ih =>
    rcases List.mem_cons.1 h with rfl | h
    · exact le_max_left ..
    · exact (ih h).trans (le_max_right ..)

/-- The next process mirrors a memory store that has the committed layers, and leaves the others orphans. -/
theorem Mirrors.crash (h : process.Mirrors store orphans) : process.crash.Mirrors
    { store with staged := ∅, nextEvent := process.conn.events.keys.foldr max 0 }
    {layer | ¬ process.conn.isCommitted layer} where
  tables := h.tables
  sound :=
    { event_id := fun he => ⟨(h.sound.event_id he).1,
        le_foldr_max (AssocMap.mem_keys_iff.2 ⟨_, ((h.events _ _).1 he).1⟩)⟩
      authored := fun hs => by simp at hs
      authored_inj := fun hs => by simp at hs
      staged_members := fun hs => by simp at hs
      stored := h.sound.stored
      apart := fun hs => by simp at hs
      indexed := h.sound.indexed }
  members := h.members
  next := rfl
  branches := h.branches
  branchIds := h.branchIds
  describes := h.describes
  metadata := h.metadata
  described := h.described
  events := h.events
  minted he := ⟨le_foldr_max (AssocMap.mem_keys_iff.2 ⟨_, he⟩), (h.minted he).2⟩
  committed := h.committed
  of_committed := h.of_committed
  opened hl := by simp [SqliteProcess.crash] at hl
  closed hin := by simp [SqliteProcess.crash] at hin
  staged hs := by simp at hs
  owned {layer} _ := by
    by_cases hc : process.conn.isCommitted layer = true
    · exact Or.inr (Or.inl (h.of_committed hc))
    · exact Or.inr (Or.inr hc)

theorem openLayer_taken (branch : BranchId) {row : LayerRow} (hrow : process.conn.layers.lookup layer = some row) :
    Calls.left (call (.openLayer branch layer) process) = process := by
  show Calls.left ((do openLayer branch layer; return none : ProcessM (Option EventId)) process) = process
  have hrefused : openLayer branch layer process =
      .error (.storage s!"layer {layer} already exists: UNIQUE constraint failed: layers.id") process := by
    unfold openLayer SqliteStorage.openLayer
    rw [hrow]
    rfl
  rw [Calls.bind_error hrefused]
  rfl

theorem Mirrors.narrow (h : process.Mirrors store orphans) :
    process.Mirrors store {layer | layer ∈ orphans ∧ (process.conn.layers.lookup layer).isSome} :=
  { h with owned := fun hrow => (h.owned hrow).imp_right (Or.imp_right fun hin => ⟨hin, hrow⟩) }

/-- A seal that stops half way has written the layer out and given it up. -/
theorem Mirrors.flush_run (h : process.Mirrors store orphans) (hl : process.opened.lookup layer = some handle) :
    ∃ conn, (process.flushed layer handle conn).Mirrors store orphans ∧
      spending layer SqliteOpenLayer.flush process = .ok () ((process.flushed layer handle conn).losing layer 0) ∧
        process.Leaves (process.flushed layer handle conn) := by
  obtain ⟨conn, hrun, hm, hk⟩ := h.flush hl
  refine ⟨conn, hm, ?_, leaves_through hl hk⟩
  unfold spending through SqliteOpenLayer.flush
  rw [hl]
  dsimp only
  rw [hrun]
  rfl

theorem Mirrors.step (h : process.Mirrors store orphans) (hs : Step process process') :
    ∃ store' orphans', process'.Mirrors store' orphans' ∧ process.Leaves process' := by
  cases hs with
  | crash =>
    refine ⟨_, _, h.crash, fun layer hsettled => ⟨⟨hsettled.row, ?_, ?_⟩, .refl _ layer⟩⟩
    · simp [SqliteProcess.crash]
    · simp [SqliteProcess.crash]
  | sealCut layer hp =>
    obtain ⟨handle, hl⟩ := Option.isSome_iff_exists.1 hp
    obtain ⟨conn, hm, hspent, hleaves⟩ := h.flush_run hl
    have hl' : (process.flushed layer handle conn).opened.lookup layer = some { handle with pending := [] } :=
      AList.lookup_insert ..
    rw [hspent]
    exact ⟨_, _, hm.losing hl' 0, hleaves.trans (hm.leaves_losing hl' 0)⟩
  | abortCut layer done hp =>
    obtain ⟨handle, hl⟩ := Option.isSome_iff_exists.1 hp
    rw [abortFirst_run hl (h.opened hl).1]
    exact ⟨_, _, h.losing hl done, h.leaves_losing hl done⟩
  | call made hp =>
    by_cases htaken : ∃ branch layer, made = .openLayer branch layer ∧
        (process.conn.layers.lookup layer).isSome
    · obtain ⟨branch, layer, rfl, hrow⟩ := htaken
      obtain ⟨row, hrow⟩ := Option.isSome_iff_exists.1 hrow
      rw [openLayer_taken branch hrow]
      exact ⟨store, orphans, h, .refl process⟩
    · have hagree := h.narrow.call hp fun branch layer heq hin => htaken ⟨branch, layer, heq, hin.2⟩
      exact ⟨_, _, hagree.mirrors, hagree.leaves⟩

theorem Mirrors.steps (h : process.Mirrors store orphans) (hs : Steps process process') :
    ∃ store' orphans', process'.Mirrors store' orphans' ∧ process.Leaves process' := by
  induction hs with
  | refl => exact ⟨store, orphans, h, .refl process⟩
  | tail _ hstep ih =>
    obtain ⟨_, _, hm, hleaves⟩ := ih
    obtain ⟨store', orphans', hm', hleaves'⟩ := hm.step hstep
    exact ⟨store', orphans', hm', hleaves.trans hleaves'⟩

theorem Reachable.mirrors (h : Reachable process) : ∃ store orphans, process.Mirrors store orphans := by
  obtain ⟨store, orphans, hm, -⟩ := mirrors_new.steps h
  exact ⟨store, orphans, hm⟩

/-! ### The index is a projection of the log -/

/-- The tables answer reads alike; rows that are in no particular order are the same up to order. -/
structure SameReads (db db' : Database) : Prop where
  getCell : ∀ path cell version, db'.getCell path cell version = db.getCell path cell version
  cellVersions : ∀ path cell, (db'.cellVersions path cell).Perm (db.cellVersions path cell)
  scanBuffer : ∀ path buffer, (db'.scanBuffer path buffer).Perm (db.scanBuffer path buffer)

/-- Two databases that have the records of one memory store. -/
theorem SameReads.of_records {db db' : Database} (h : db.Sound) (h' : db'.Sound) (hs : store.Sound)
    (hr : db.SameRecords store) (hr' : db'.SameRecords store) : SameReads db db' where
  getCell path cell version := by
    have heq := (hr'.getCell h' hs path cell version).symm.trans (hr.getCell h hs path cell version)
    exact Except.ok.inj heq
  cellVersions path cell := (hr'.cellVersions h' hs path cell).trans (hr.cellVersions h hs path cell).symm
  scanBuffer path buffer := by
    obtain ⟨rows, hrows, hp⟩ := hr.scanBuffer h hs path buffer
    obtain ⟨rows', hrows', hp'⟩ := hr'.scanBuffer h' hs path buffer
    obtain rfl := Except.ok.inj (hrows.symm.trans hrows')
    exact hp'.trans hp.symm

/-- The tables have rows of the layer, and nobody writes it or can commit it any more. -/
structure CutOff (process : SqliteProcess) (layer : LayerId) : Prop extends process.Settled layer where
  uncommitted : ¬ process.conn.isCommitted layer

/-- The index is short of rows of layers that are cut off, and of no others. -/
theorem Mirrors.lookup_reindexed (h : process.Mirrors store orphans) (key : IndexKey) :
    process.conn.reindexed.cellIndex.lookup key = process.conn.cellIndex.lookup key ∨
      process.CutOff key.landed ∧ process.conn.cellIndex.lookup key = none := by
  by_cases hp : process.conn.Projects key.landed
  · exact .inl (hp.lookup_reindexed h.tables rfl)
  · have hs := (h.tables.indexed key.landed).resolve_left hp
    refine .inr ⟨⟨⟨?_, ?_, fun hin => ?_⟩, hs.uncommitted⟩, hs.unindexed key rfl⟩
    · by_contra hrow
      have hrow : process.conn.layers.lookup key.landed = none := by simpa using hrow
      refine hp fun other id hkey => ?_
      rw [hs.unindexed other hkey, branchOf, hkey, hrow]
      simp
    · cases hl : process.opened.lookup key.landed with
      | none => rfl
      | some handle =>
        obtain ⟨_, -, hw, hid, -⟩ := h.writing hl
        exact absurd (hid ▸ hw.indexed) hp
    · obtain ⟨_, -, hclosed⟩ := h.closed hin
      exact hp hclosed.indexed

/-- **To regenerate the index changes no read**, whatever is open, flushed or cut off, and wherever a seal or an
abort has stopped.  Every layer's rows are what its members are then, and they were already: only an abort that
was cut short has taken rows away, and the layer that gets them back is cut off. -/
theorem rebuild_changes_nothing (h : Reachable process) : ∃ rebuilt : Database,
    call .rebuildReadIndex process = .ok none { process with storage := { process.storage with conn := rebuilt } } ∧
      (∀ layer, rebuilt.Projects layer) ∧
      (∀ key, rebuilt.cellIndex.lookup key = process.conn.cellIndex.lookup key ∨
        process.CutOff key.landed ∧ process.conn.cellIndex.lookup key = none) ∧
      { rebuilt with cellIndex := process.conn.cellIndex } = process.conn ∧ SameReads process.conn rebuilt := by
  obtain ⟨store, orphans, hm⟩ := h.mirrors
  refine ⟨_, rfl, hm.tables.projects_reindexed, hm.lookup_reindexed, rfl, ?_⟩
  exact .of_records hm.tables hm.tables.reindexed hm.sound hm.sameRecords hm.sameRecords

/-! ### A store that processes have left half way -/

namespace Sample

/-- A layer that names an event of another and authors one of its own. -/
def writing : SqliteProcess := landed.after [.openLayer 1 6, .includeEvent 6 1, .authorEvent 6 name (draft 10)]

/-- Its seal stops half way. -/
def written : SqliteProcess := Calls.left (spending 6 SqliteOpenLayer.flush writing)

def discarding : SqliteProcess := written.after [.openLayer 2 7, .authorEvent 7 label (draft 11)]

/-- Another layer's abort stops half way. -/
def discarded : SqliteProcess := Calls.left (spending 7 (SqliteOpenLayer.abortFirst 3) discarding)

/-- And one more layer is open. -/
def begun : SqliteProcess := discarded.after [.openLayer 1 8, .includeEvent 8 2, .authorEvent 8 label (draft 12)]

theorem landed_reachable : Reachable landed := Steps.calls landing_permitted

theorem writing_steps : Steps landed writing :=
  Steps.calls ⟨trivial, ⟨rfl, _, rfl, rfl⟩, rfl, trivial⟩

theorem written_reachable : Reachable written :=
  (landed_reachable.trans writing_steps).tail (.sealCut 6 rfl)

theorem begun_steps : Steps written begun := by
  have hdiscarding : Steps written discarding := Steps.calls ⟨trivial, rfl, trivial⟩
  exact (hdiscarding.tail (.abortCut 7 3 rfl)).trans (Steps.calls ⟨trivial, ⟨rfl, _, rfl, rfl⟩, rfl, trivial⟩)

end Sample

theorem rebuild_changes_nothing_while_open : ∃ rebuilt : Database,
    call .rebuildReadIndex Sample.begun =
        .ok none { Sample.begun with storage := { Sample.begun.storage with conn := rebuilt } } ∧
      (∀ layer, rebuilt.Projects layer) ∧
      (∀ key, rebuilt.cellIndex.lookup key = Sample.begun.conn.cellIndex.lookup key ∨
        Sample.begun.CutOff key.landed ∧ Sample.begun.conn.cellIndex.lookup key = none) ∧
      { rebuilt with cellIndex := Sample.begun.conn.cellIndex } = Sample.begun.conn ∧
      SameReads Sample.begun.conn rebuilt :=
  rebuild_changes_nothing (Sample.written_reachable.trans Sample.begun_steps)

/-! ### What is committed stays, and what is cut off stays so -/

theorem Leaves.reads (h : process.Leaves process') (ht : process.conn.Sound) (hs : process.Settled layer) :
    process'.conn.layers.lookup layer = process.conn.layers.lookup layer ∧
      process'.conn.readMembership layer = process.conn.readMembership layer ∧
      process'.conn.readLayer layer = process.conn.readLayer layer ∧
      process'.conn.readDefLayer layer = process.conn.readDefLayer layer := by
  obtain ⟨-, hkept⟩ := h layer hs
  obtain ⟨ids, hrows⟩ := ht.rows layer
  obtain ⟨defs, hdefs⟩ := ht.defRows layer
  refine ⟨hkept.row, ?_, readLayer_congr hrows (hkept.members hrows) fun id hid => hkept.events hrows hid, ?_⟩
  · rw [readMembership, readMembership, hrows.ofGroup, (hkept.members hrows).ofGroup]
  · rw [readDefLayer, readDefLayer, hdefs.ofGroup, (hkept.defs hdefs).ofGroup]

theorem Mirrors.settled_of_committed (h : process.Mirrors store orphans) (hc : process.conn.isCommitted layer) :
    process.Settled layer where
  row := by
    obtain ⟨row, hrow, -⟩ := isCommitted_iff.1 hc
    rw [hrow]
    rfl
  unopened := by
    cases hl : process.opened.lookup layer with
    | none => rfl
    | some handle =>
      obtain ⟨_, -, hw, rfl, -⟩ := h.writing hl
      exact absurd hc hw.not_committed
  unsealed hin := by
    obtain ⟨_, -, hclosed⟩ := h.closed hin
    obtain ⟨row, hrow, -, hsealed⟩ := hclosed.row
    obtain ⟨row', hrow', hcommitted⟩ := isCommitted_iff.1 hc
    obtain rfl := Option.some.inj (hrow.symm.trans hrow')
    rw [hsealed] at hcommitted
    cases hcommitted

/-- **What is committed is there for good**: whatever is called, and wherever a process stops, the layer is
committed on its branch with the metadata, the events and the defs it had. -/
theorem committed_layer_is_durable (h : Reachable process) (hs : Steps process process')
    (hc : process.conn.isCommitted layer) :
    process'.conn.layers.lookup layer = process.conn.layers.lookup layer ∧
      process'.conn.readMembership layer = process.conn.readMembership layer ∧
      process'.conn.readLayer layer = process.conn.readLayer layer ∧
      process'.conn.readDefLayer layer = process.conn.readDefLayer layer := by
  obtain ⟨store, orphans, hm⟩ := h.mirrors
  obtain ⟨-, -, -, hleaves⟩ := hm.steps hs
  exact hleaves.reads hm.tables (hm.settled_of_committed hc)

/-- A seal and an abort of other layers stop half way, and then the process does. -/
theorem committed_layer_survives_crash :
    Sample.begun.crash.conn.layers.lookup 5 = Sample.landed.conn.layers.lookup 5 ∧
      Sample.begun.crash.conn.readMembership 5 = [1, 2, 3] ∧
      Sample.begun.crash.conn.readLayer 5 = Sample.landed.conn.readLayer 5 ∧
      Sample.begun.crash.conn.readDefLayer 4 = [.declareField "Acme" "name" .int 1 .source] := by
  have hs : Steps Sample.landed Sample.begun.crash :=
    ((Sample.writing_steps.tail (.sealCut 6 rfl)).trans Sample.begun_steps).tail .crash
  obtain ⟨hrow, hmembers, hevents, -⟩ :=
    committed_layer_is_durable Sample.landed_reachable hs (rfl : Sample.landed.conn.isCommitted 5)
  obtain ⟨-, -, -, hdefs⟩ :=
    committed_layer_is_durable Sample.landed_reachable hs (rfl : Sample.landed.conn.isCommitted 4)
  exact ⟨hrow, hmembers.trans (by decide +kernel), hevents, hdefs.trans (by decide +kernel)⟩

/-- A record is in a committed layer, and of an event that a committed layer authored. -/
theorem committed_of_answer {db : Database} (h : db.Sound) {cell : CellRef} {version : DefVersion}
    {segment : BranchId × LayerId} {landedAt : LayerId} {event : Event}
    (ha : db.answer cell version segment = some (landedAt, event)) :
    db.isCommitted landedAt ∧ db.isCommitted event.authored := by
  have hr := (Timeline.latest_eq_some_iff.1 ha).2.1
  have hc : db.isCommitted landedAt := by
    unfold recordAt at hr
    split at hr
    · rename_i hcommitted
      exact hcommitted.1
    · cases hr
  obtain ⟨ids, hrows⟩ := h.rows landedAt
  have hm := (recordAt_mem hr).1
  rw [readLayer_eq hrows] at hm
  obtain ⟨id, hid, he⟩ := List.mem_filterMap.1 hm
  obtain ⟨i, hi⟩ := hrows.mem_iff.1 hid
  obtain ⟨-, found, hfound, howner⟩ := h.named hi
  obtain rfl := Option.some.inj (he.symm.trans hfound)
  exact ⟨hc, howner.elim (fun hown => hown ▸ hc) fun hother => hother⟩

theorem committed_of_getCell {db : Database} (h : db.Sound) {path : ReadPath} {cell : CellRef}
    {version : DefVersion} {landed : Landed} (hl : db.getCell path cell version = some landed) :
    db.isCommitted landed.landedAt ∧ db.isCommitted landed.event.authored := by
  rw [h.getCell] at hl
  obtain ⟨entry, hn, rfl⟩ := Option.map_eq_some_iff.1 hl
  obtain ⟨segment, -, hle, hr⟩ := Timeline.nearest_mem hn
  have ha : db.answer cell version (segment.1, entry.1) = some (entry.1, entry.2) :=
    Timeline.latest_of_top (Nat.le_refl _) hr fun j hlt hj => absurd hj (Nat.not_le.2 hlt)
  exact committed_of_answer h ha

theorem committed_of_mem_scanFrom {db : Database} (h : db.Sound) {buffer : BufferId} {seen : List CellRef}
    {segments : List (BranchId × LayerId)} {event : Event} (hm : event ∈ db.scanFrom buffer seen segments) :
    db.isCommitted event.authored := by
  induction segments generalizing seen with
  | nil => cases hm
  | cons segment outer ih =>
    rcases List.mem_append.1 hm with hm | hm
    · obtain ⟨-, -, landedAt, ha⟩ := h.mem_scanSegment.1 hm
      exact (committed_of_answer h ha).2
    · exact ih hm

theorem Mirrors.cutOff_losing (h : process.Mirrors store orphans) (hl : process.opened.lookup layer = some handle)
    {done : Nat} (hd : done < 5) : (process.losing layer done).CutOff layer := by
  obtain ⟨_, -, hw, rfl, hout⟩ := h.writing hl
  have hrow : (process.conn.dropping handle.id done).layers.lookup handle.id =
      some ⟨handle.branch, .open, none⟩ := by
    rw [lookup_dropping_layers, if_neg (by omega), hw.row]
  refine ⟨⟨Option.isSome_iff_exists.2 ⟨_, hrow⟩, ?_, hout⟩, ?_⟩
  · exact (AssocMap.lookup_erase_eq ..).trans (if_pos rfl)
  · rw [show (process.losing handle.id done).conn.isCommitted handle.id = _ from
      isCommitted_dropping hw.not_committed _]
    exact hw.not_committed

/-- What cuts a layer off: the end of its process before it was committed, a seal that did not go through, or an
abort that stopped before its last statement. -/
inductive Cuts (process : SqliteProcess) (layer : LayerId) : SqliteProcess → Prop where
  | crash (hrow : (process.conn.layers.lookup layer).isSome) (hc : ¬ process.conn.isCommitted layer) :
    process.Cuts layer process.crash
  | sealCut (hp : process.Permits (.sealLayer layer)) :
    process.Cuts layer (Calls.left (spending layer SqliteOpenLayer.flush process))
  | abortCut {done : Nat} (hd : done < 5) (hp : process.Permits (.abort layer)) :
    process.Cuts layer (Calls.left (spending layer (SqliteOpenLayer.abortFirst done) process))

theorem Cuts.step (hcut : process.Cuts layer process') : Step process process' := by
  cases hcut with
  | crash => exact .crash
  | sealCut hp => exact .sealCut layer hp
  | abortCut hd hp => exact .abortCut layer _ hp

theorem Cuts.cutOff (h : Reachable process) (hcut : process.Cuts layer process') : process'.CutOff layer := by
  obtain ⟨store, orphans, hm⟩ := h.mirrors
  cases hcut with
  | crash hrow hc => exact ⟨⟨hrow, by simp [SqliteProcess.crash], by simp [SqliteProcess.crash]⟩, hc⟩
  | sealCut hp =>
    obtain ⟨handle, hl⟩ := Option.isSome_iff_exists.1 hp
    obtain ⟨conn, hm', hspent, -⟩ := hm.flush_run hl
    rw [hspent]
    exact hm'.cutOff_losing (AList.lookup_insert ..) (by omega)
  | abortCut hd hp =>
    obtain ⟨handle, hl⟩ := Option.isSome_iff_exists.1 hp
    rw [abortFirst_run hl (hm.opened hl).1]
    exact hm.cutOff_losing hl hd

/-- **What is cut off is never seen**: a layer that was not committed when its process stopped, or whose seal or
abort did not go through, never becomes visible, whatever the processes after it do, and no read shows an event
it landed or authored. -/
theorem cut_off_layer_is_never_seen {cut : SqliteProcess} (h : Reachable process) (hcut : process.Cuts layer cut)
    (hs : Steps cut process') : process'.CutOff layer ∧
      (∀ path cell version landed, process'.conn.getCell path cell version = some landed →
        landed.landedAt ≠ layer ∧ landed.event.authored ≠ layer) ∧
      ∀ path buffer, ∀ event ∈ process'.conn.scanBuffer path buffer, event.authored ≠ layer := by
  have hoff := hcut.cutOff h
  have hreach : Reachable cut := h.tail hcut.step
  obtain ⟨store, orphans, hm⟩ := hreach.mirrors
  obtain ⟨_, _, hm', hleaves⟩ := hm.steps hs
  obtain ⟨hsettled, hkept⟩ := hleaves layer hoff.toSettled
  have hout : ¬ process'.conn.isCommitted layer := by
    rw [isCommitted, hkept.row]
    exact hoff.uncommitted
  refine ⟨⟨hsettled, hout⟩, fun path cell version landed hl => ?_, fun path buffer event hin => ?_⟩
  · obtain ⟨hlanded, hauthored⟩ := committed_of_getCell hm'.tables hl
    exact ⟨fun heq => hout (heq ▸ hlanded), fun heq => hout (heq ▸ hauthored)⟩
  · have hauthored := committed_of_mem_scanFrom hm'.tables hin
    exact fun heq => hout (heq ▸ hauthored)

/-- The layer whose seal stopped half way has rows of its own event and of another's. -/
theorem opened_layer_is_cut_off : Sample.begun.crash.conn.readMembership 6 = [1, 4] ∧
    Sample.begun.crash.CutOff 6 ∧
      (∀ path cell version landed, Sample.begun.crash.conn.getCell path cell version = some landed →
        landed.landedAt ≠ 6 ∧ landed.event.authored ≠ 6) ∧
      ∀ path buffer, ∀ event ∈ Sample.begun.crash.conn.scanBuffer path buffer, event.authored ≠ 6 := by
  have hwriting : Reachable Sample.writing := Sample.landed_reachable.trans Sample.writing_steps
  exact ⟨by decide +kernel, cut_off_layer_is_never_seen hwriting (.sealCut rfl) (Sample.begun_steps.tail .crash)⟩

end SqliteProcess

end BorgCore
