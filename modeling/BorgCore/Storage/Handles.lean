import BorgCore.Storage.Mirrors

/-!
# Through the handle of an open layer

An event is taken in by the handle and written out with its batch, and a process mirrors the same memory
store before a batch is written and after.
-/

namespace BorgCore

namespace SqliteProcess

open Database

variable {process : SqliteProcess} {store : MemoryStorage} {orphans : Set LayerId} {layer : LayerId}
  {handle : SqliteOpenLayer} {staged : StagedLayer} {event : Event} {id : EventId}

/-- A process that has taken a row in, and not written it out. -/
def taking (process : SqliteProcess) (layer : LayerId) (handle : SqliteOpenLayer) (id : EventId)
    (authored : Option Event) (next : EventId) : SqliteProcess :=
  { process with
    storage := { process.storage with nextEvent := next + 1 }
    opened := process.opened.insert layer { handle with
      seq := handle.seq + 1
      pending := handle.pending ++ [⟨handle.seq, id, authored⟩] } }

/-- A row a layer may take in: an event of its own under an identity nothing has, or a committed one. -/
def Takes (process : SqliteProcess) (layer : LayerId) (id : EventId) (authored : Option Event) : Prop :=
  (∀ event, authored = some event → event.id = id ∧ event.authored = layer ∧ process.Unheard id) ∧
    (authored = none → ∃ event, process.conn.events.lookup id = some event ∧
      process.conn.isCommitted event.authored)

theorem Mirrors.taking (h : process.Mirrors store orphans) (hl : process.opened.lookup layer = some handle)
    (hs : store.staged.lookup layer = some staged) {authored : Option Event} {next : EventId}
    (hnext : store.nextEvent ≤ next) (ht : process.Takes layer id authored)
    (hsound : MemoryStorage.Sound { store with
      nextEvent := next, staged := store.staged.insert layer (staged.taking id authored) }) :
    (process.taking layer handle id authored next).Mirrors { store with
      nextEvent := next, staged := store.staged.insert layer (staged.taking id authored) } orphans where
  tables := h.tables
  members := h.members
  sound := hsound
  next := rfl
  branches := h.branches
  branchIds := h.branchIds
  describes := h.describes
  metadata := h.metadata
  described := h.described
  events := h.events
  minted he := ⟨(h.minted he).1.trans hnext, (h.minted he).2⟩
  committed := h.committed
  of_committed := h.of_committed
  opened {other found} hf := by
    obtain ⟨staged', hs', hw, hid, -⟩ := h.writing hl
    rw [hs] at hs'
    cases hs'
    simp only [SqliteProcess.taking, AssocMap.lookup_insert_eq] at hf ⊢
    split at hf
    · cases hf
      subst other
      refine ⟨hid, _, if_pos rfl, ?_⟩
      obtain ⟨ids, hrows, hmembers, hready⟩ := hw.split
      have hbrought : [(⟨handle.seq, id, authored⟩ : PendingRow)].filterMap PendingRow.authored =
          authored.toList := by
        cases authored <;> rfl
      refine
        { row := hw.row
          branch := hw.branch
          unsealed := hw.unsealed
          split := ⟨ids, hrows, by simp [StagedLayer.taking, hmembers], hready.concat ?_ ?_ ht.2⟩
          seq := by simp [StagedLayer.taking, hw.seq]
          defs := hw.defs
          defCount := hw.defCount
          authored := fun event => ?_
          indexed := hw.indexed
          authors := hw.authors }
      · rw [hw.seq, hmembers, List.length_append, List.length_map]
      · intro event he
        obtain ⟨hevent, howner, hfree, hwaits⟩ := ht.1 event he
        exact ⟨hevent, howner.trans hid.symm, hfree, hwaits _ handle hl⟩
      · rw [List.filterMap_append, hbrought]
        simp only [StagedLayer.taking, List.mem_append, hw.authored, or_assoc]
    · rename_i hne
      obtain ⟨hid', staged', hs', hw'⟩ := h.opened hf
      exact ⟨hid', staged', by rw [if_neg hne, hs'], hw'⟩
  closed {other} hin := by
    obtain ⟨staged', hs', hclosed⟩ := h.closed hin
    obtain ⟨-, -, -, -, hout⟩ := h.writing hl
    refine ⟨staged', ?_, hclosed⟩
    rw [AssocMap.lookup_insert_eq, if_neg, hs']
    rintro rfl
    exact hout hin
  staged {other} hsome := by
    simp only [SqliteProcess.taking, AssocMap.lookup_insert_eq] at hsome ⊢
    split
    · exact Or.inl rfl
    · rename_i hne
      rw [if_neg hne] at hsome
      exact h.staged hsome
  owned hrow := (h.owned hrow).imp_left fun hsome => AssocMap.isSome_lookup_insert hsome layer _

/-- A process that has written out what one of its handles had pending. -/
def flushed (process : SqliteProcess) (layer : LayerId) (handle : SqliteOpenLayer) (conn : Database) :
    SqliteProcess :=
  { process with
    storage := { process.storage with conn := conn }
    opened := process.opened.insert layer { handle with pending := [] } }

theorem isCommitted_congr {db db' : Database} (h : db'.layers = db.layers) (layer : LayerId) :
    db'.isCommitted layer = db.isCommitted layer := by
  unfold Database.isCommitted
  rw [h]

theorem branchOf_congr {db db' : Database} (h : db'.layers = db.layers) (layer : LayerId) :
    db'.branchOf layer = db.branchOf layer := by
  unfold Database.branchOf
  rw [h]

/-- What is pending in a handle is among what its staged layer has authored. -/
theorem pending_authored {db : Database} (hw : db.Writing handle staged)
    (hin : event ∈ handle.pending.filterMap PendingRow.authored) :
    event ∈ staged.authored ∧ event.authored = handle.id := by
  obtain ⟨ids, -, -, hready⟩ := hw.split
  obtain ⟨row, hm, hown⟩ := List.mem_filterMap.1 hin
  exact ⟨(hw.authored event).2 (Or.inr hin), (hready.own hm hown).2.1⟩

section Flush

variable {db db' : Database} {ids : List EventId}

/-- Only what its own layer authors is new in a batch. -/
theorem flushed_lookup (hw : db.Writing handle staged) (hready : db.Ready handle.id ids handle.pending)
    (hwritten : db.Written handle.id ids handle.pending db') (hne : event.authored ≠ handle.id) :
    db'.events.lookup id = some event ↔ db.events.lookup id = some event := by
  rw [hwritten.lookup_iff hready]
  exact ⟨fun hor => hor.resolve_left fun hin => hne (pending_authored hw hin.1).2, Or.inr⟩

theorem flushed_writing (hw : db.Writing handle staged) (hready : db.Ready handle.id ids handle.pending)
    (hmembers : staged.members = ids ++ handle.pending.map PendingRow.event)
    (hwritten : db.Written handle.id ids handle.pending db') : db'.Writing { handle with pending := [] } staged where
  row := hwritten.layers ▸ hw.row
  branch := hw.branch
  unsealed := hw.unsealed
  split := ⟨staged.members, hmembers ▸ hwritten.members, by simp, ready_nil⟩
  seq := hw.seq
  defs := hwritten.defEvents ▸ hw.defs
  defCount := hw.defCount
  authored event := by
    show _ ↔ db'.events.lookup event.id = some event ∧ event.authored = handle.id ∨ event ∈ []
    rw [hw.authored, hwritten.lookup_iff hready]
    constructor
    · rintro (⟨hold, howner⟩ | hin)
      · exact Or.inl ⟨Or.inr hold, howner⟩
      · exact Or.inl ⟨Or.inl ⟨hin, rfl⟩, (pending_authored hw hin).2⟩
    · rintro (⟨⟨hin, -⟩ | hold, howner⟩ | hin)
      · exact Or.inr hin
      · exact Or.inl ⟨hold, howner⟩
      · cases hin
  indexed := hwritten.projects hw.indexed
  authors := hwritten.authors hw.not_committed hw.authors

/-- What another layer has pending is as ready as it was: two open layers do not author one event. -/
theorem flushed_ready (hsound : store.Sound) (hs : store.staged.lookup layer = some staged)
    (hw : db.Writing handle staged) (hready : db.Ready handle.id ids handle.pending)
    (hwritten : db.Written handle.id ids handle.pending db') {other : LayerId} {found : SqliteOpenLayer}
    {staged' : StagedLayer} {ids' : List EventId} (hs' : store.staged.lookup other = some staged')
    (hw' : db.Writing found staged') (hready' : db.Ready found.id ids' found.pending)
    (hother : found.id ≠ handle.id) : db'.Ready found.id ids' found.pending := by
  refine ⟨hready'.seq, fun {row event} hm hown => ?_, fun hm hown => ?_, hready'.distinct⟩
  · obtain ⟨hevent, howner, hfree⟩ := hready'.own hm hown
    refine ⟨hevent, howner, ?_⟩
    cases hnew : db'.events.lookup row.event with
    | none => rfl
    | some event' =>
      rcases (hwritten.lookup_iff hready).1 hnew with ⟨hin, hsame⟩ | hold
      · obtain ⟨hauthored, howned⟩ := pending_authored hw hin
        have hauthored' := (pending_authored hw' (List.mem_filterMap.2 ⟨row, hm, hown⟩)).1
        have heq := hsound.authored_inj hs hs' hauthored hauthored' (hsame.trans hevent.symm)
        exact absurd ((heq ▸ howner).symm.trans howned) hother
      · rw [hfree] at hold
        cases hold
  · obtain ⟨event, he, hc⟩ := hready'.named hm hown
    exact ⟨event, (hwritten.lookup_iff hready).2 (Or.inr he), (isCommitted_congr hwritten.layers _).trans hc⟩

theorem flushed_writing_other (hsound : store.Sound) (hs : store.staged.lookup layer = some staged)
    (hw : db.Writing handle staged) (hready : db.Ready handle.id ids handle.pending)
    (hwritten : db.Written handle.id ids handle.pending db') {other : LayerId} {found : SqliteOpenLayer}
    {staged' : StagedLayer} (hs' : store.staged.lookup other = some staged') (hw' : db.Writing found staged')
    (hother : found.id ≠ handle.id) : db'.Writing found staged' where
  row := hwritten.layers ▸ hw'.row
  branch := hw'.branch
  unsealed := hw'.unsealed
  split := by
    obtain ⟨ids', hrows', hmembers', hready'⟩ := hw'.split
    exact ⟨ids', hwritten.others hother hrows', hmembers',
      flushed_ready hsound hs hw hready hwritten hs' hw' hready' hother⟩
  seq := hw'.seq
  defs := hwritten.defEvents ▸ hw'.defs
  defCount := hw'.defCount
  authored event := by
    rw [hw'.authored]
    exact or_congr_left (and_congr_left fun howner =>
      (flushed_lookup hw hready hwritten (howner ▸ hother)).symm)
  indexed := hwritten.projects hw'.indexed
  authors := hwritten.authors hw.not_committed hw'.authors

theorem flushed_closed (hw : db.Writing handle staged) (hready : db.Ready handle.id ids handle.pending)
    (hwritten : db.Written handle.id ids handle.pending db') {other : LayerId} {staged' : StagedLayer}
    (hclosed : db.Closed other staged') (hother : other ≠ handle.id) : db'.Closed other staged' where
  row := hwritten.layers ▸ hclosed.row
  closed := hclosed.closed
  members := hwritten.others hother hclosed.members
  defs := hwritten.defEvents ▸ hclosed.defs
  authored event := by
    rw [hclosed.authored]
    exact and_congr_left fun howner => (flushed_lookup hw hready hwritten (howner ▸ hother)).symm
  indexed := hwritten.projects hclosed.indexed
  authors := hwritten.authors hw.not_committed hclosed.authors

end Flush

/-- **A batch is written out, and a process mirrors what it mirrored before.** -/
theorem Mirrors.flush (h : process.Mirrors store orphans) (hl : process.opened.lookup layer = some handle) :
    ∃ conn, handle.pending.foldlM (insertRow handle.branch handle.id) process.conn = .ok conn ∧
      (process.flushed layer handle conn).Mirrors store orphans ∧
        ∀ other, other ≠ layer → process.conn.Keeps conn other := by
  obtain ⟨staged, hs, hw, hid, hout⟩ := h.writing hl
  obtain ⟨ids, hrows, hmembers, hready⟩ := hw.split
  obtain ⟨conn, hrun, hwritten⟩ := hready.flush h.tables hw.indexed hw.branchOf hrows
  refine ⟨conn, hrun, ?_, fun other hne => hwritten.keeps hready h.tables (hid ▸ hne)⟩
  have hcommitted (other : LayerId) : conn.isCommitted other = process.conn.isCommitted other :=
    isCommitted_congr hwritten.layers other
  refine
    { tables := hwritten.sound
      members := hwritten.owned h.members hw.authors hw.not_committed
      sound := h.sound
      next := h.next
      branches := hwritten.branches.trans h.branches
      branchIds := h.branchIds
      describes := fun hr => h.describes (hwritten.layers ▸ hr)
      metadata := fun hr => h.metadata (hwritten.layers ▸ hr)
      described := fun hr => hwritten.layers.symm ▸ h.described hr
      events := fun id event => ?_
      minted := fun {id event} he => ?_
      committed := fun {other membership} hm => ?_
      of_committed := fun hc => h.of_committed (hcommitted _ ▸ hc)
      opened := fun {other found} hf => ?_
      closed := fun {other} hin => ?_
      staged := fun {other} hsome => ?_
      owned := fun hrow => h.owned (hwritten.layers ▸ hrow) }
  · show _ ↔ conn.events.lookup id = some event ∧ conn.isCommitted event.authored
    rw [hcommitted, h.events]
    refine and_congr_left fun hc => (flushed_lookup hw hready hwritten fun howner => ?_).symm
    exact hw.not_committed (howner ▸ hc)
  · rw [show (process.flushed layer handle conn).conn = conn from rfl, hwritten.layers]
    rcases (hwritten.lookup_iff hready).1 he with ⟨hin, rfl⟩ | hold
    · obtain ⟨hauthored, howner⟩ := pending_authored hw hin
      exact ⟨(h.sound.authored hs hauthored).2.1, by rw [howner, hw.row]; rfl⟩
    · exact h.minted hold
  · obtain ⟨hc, hb, hheld, hdefs⟩ := h.committed hm
    have hne : other ≠ handle.id := fun heq => hw.not_committed (heq ▸ hc)
    exact ⟨hcommitted other ▸ hc, (branchOf_congr hwritten.layers other).trans hb, hwritten.others hne hheld,
      hwritten.defEvents ▸ hdefs⟩
  · simp only [flushed, AssocMap.lookup_insert_eq] at hf
    split at hf
    · cases hf
      subst other
      exact ⟨hid, staged, hs, flushed_writing hw hready hmembers hwritten⟩
    · rename_i hne
      obtain ⟨hid', staged', hs', hw'⟩ := h.opened hf
      have hother : found.id ≠ handle.id := by rw [hid, hid']; exact hne
      exact ⟨hid', staged', hs', flushed_writing_other h.sound hs hw hready hwritten hs' hw' hother⟩
  · obtain ⟨staged', hs', hclosed⟩ := h.closed hin
    have hother : other ≠ handle.id := by
      rw [hid]
      rintro rfl
      exact hout hin
    exact ⟨staged', hs', flushed_closed hw hready hwritten hclosed hother⟩
  · rcases h.staged hsome with hopened | hin
    · refine Or.inl ?_
      simp only [flushed, AssocMap.lookup_insert_eq]
      split
      · rfl
      · exact hopened
    · exact Or.inr hin

theorem Mirrors.push (h : process.Mirrors store orphans) (hl : process.opened.lookup layer = some handle)
    (hs : store.staged.lookup layer = some staged) (id : EventId) (authored : Option Event) {next : EventId}
    (hnext : store.nextEvent ≤ next) (ht : process.Takes layer id authored)
    (hsound : MemoryStorage.Sound { store with
      nextEvent := next, staged := store.staged.insert layer (staged.taking id authored) }) :
    ∃ state, SqliteOpenLayer.push id authored ⟨{ process.storage with nextEvent := next + 1 }, handle⟩ =
        .ok () state ∧
      Mirrors { process with storage := state.storage, opened := process.opened.insert layer state.handle }
        { store with nextEvent := next, staged := store.staged.insert layer (staged.taking id authored) } orphans ∧
      ∀ other, other ≠ layer → process.conn.Keeps state.storage.conn other := by
  have htaken := h.taking hl hs hnext ht hsound
  unfold SqliteOpenLayer.push
  dsimp only
  split
  · have hl' : (process.taking layer handle id authored next).opened.lookup layer = some { handle with
        seq := handle.seq + 1, pending := handle.pending ++ [⟨handle.seq, id, authored⟩] } := by
      simp [SqliteProcess.taking]
    obtain ⟨conn, hrun, hm, hk⟩ := htaken.flush hl'
    refine ⟨⟨⟨conn, next + 1⟩, { handle with seq := handle.seq + 1, pending := [] }⟩, ?_, ?_, hk⟩
    · unfold SqliteOpenLayer.flush
      have hrun : List.foldlM (insertRow handle.branch handle.id) process.storage.conn
          (handle.pending ++ [⟨handle.seq, id, authored⟩]) = .ok conn := hrun
      dsimp only
      rw [hrun]
    · simpa only [flushed, SqliteProcess.taking, AList.insert_insert] using hm
  · exact ⟨_, rfl, htaken, fun other _ => .refl _ other⟩

theorem Mirrors.authorEvent (h : process.Mirrors store orphans) (hopen : (process.opened.lookup layer).isSome)
    (cell : CellRef) (draft : EventDraft) :
    Agree process (through layer (SqliteOpenLayer.authorEvent cell draft) process)
      (MemoryStorage.authorEvent layer cell draft store) orphans := by
  obtain ⟨handle, hl⟩ := Option.isSome_iff_exists.1 hopen
  obtain ⟨staged, hs, hw, hid, -⟩ := h.writing hl
  have hunheard : process.Unheard (store.nextEvent + 1) := by
    refine ⟨?_, fun other found hf event hin heq => ?_⟩
    · cases he : process.conn.events.lookup (store.nextEvent + 1) with
      | none => rfl
      | some event => exact absurd (h.minted he).1 (Nat.not_succ_le_self _)
    · obtain ⟨staged', hs', hw', -⟩ := h.writing hf
      have hle := (h.sound.authored hs' (pending_authored hw' hin).1).2.1
      rw [heq] at hle
      exact Nat.not_succ_le_self _ hle
  have hsound := h.sound.author cell draft hs
  obtain ⟨state, hrun, hm, hk⟩ := h.push hl hs (store.nextEvent + 1)
    (some (draft.event (store.nextEvent + 1) cell layer)) (Nat.le_succ _)
    ⟨fun event he => by cases he; exact ⟨rfl, rfl, hunheard⟩, by simp⟩ hsound
  rw [MemoryStorage.authorEvent_run cell draft hs hw.unsealed]
  unfold through SqliteOpenLayer.authorEvent
  rw [hl]
  dsimp only
  rw [h.next, hid, Calls.bind_ok hrun]
  exact ⟨rfl, hm, leaves_through hl hk⟩

theorem Mirrors.reopened (h : process.Mirrors store orphans) (hl : process.opened.lookup layer = some handle) :
    Mirrors { process with opened := process.opened.insert layer handle } store orphans := by
  have hlookup (other : LayerId) :
      (process.opened.insert layer handle).lookup other = process.opened.lookup other := by
    rw [AssocMap.lookup_insert_eq]
    split
    · subst other
      exact hl.symm
    · rfl
  exact
    { h with
      opened := fun {other found} hf => h.opened ((hlookup other).symm.trans hf)
      staged := fun {other} hsome => (h.staged hsome).imp_left fun ho => (congrArg _ (hlookup other)).trans ho }

theorem Mirrors.adoptEvent (h : process.Mirrors store orphans) (hopen : (process.opened.lookup layer).isSome)
    (hunheard : process.Unheard event.id) : Agree process (through layer (SqliteOpenLayer.adoptEvent event) process)
      (MemoryStorage.adoptEvent layer event store) orphans := by
  obtain ⟨handle, hl⟩ := Option.isSome_iff_exists.1 hopen
  obtain ⟨staged, hs, hw, hid, -⟩ := h.writing hl
  unfold through SqliteOpenLayer.adoptEvent MemoryStorage.adoptEvent
  rw [hl]
  dsimp only
  rw [hid]
  by_cases ha : event.authored = layer
  · rw [if_neg (not_not.2 ha), if_neg (not_not.2 ha)]
    have hnew : store.events.lookup event.id = none := by
      cases he : store.events.lookup event.id with
      | none => rfl
      | some found =>
        have := ((h.events _ _).1 he).1
        rw [hunheard.1] at this
        cases this
    have hfresh {other : LayerId} {staged' : StagedLayer} {found : Event}
        (hs' : store.staged.lookup other = some staged') (hin : found ∈ staged'.authored) : found.id ≠ event.id := by
      rintro heq
      have hheard {db : Database} {found : Event} (hf : db.events.lookup found.id = some found)
          (heq : found.id = event.id) : db.events.lookup event.id ≠ none := by
        rw [← heq, hf]
        simp
      rcases h.staged (Option.isSome_iff_exists.2 ⟨_, hs'⟩) with ho | hin'
      · obtain ⟨handle', hl'⟩ := Option.isSome_iff_exists.1 ho
        obtain ⟨found', hs'', hw', -⟩ := h.writing hl'
        obtain rfl := Option.some.inj (hs''.symm.trans hs')
        rcases (hw'.authored found).1 hin with ⟨hold, -⟩ | hpending
        · exact hheard hold heq hunheard.1
        · exact hunheard.2 _ _ hl' _ hpending heq
      · obtain ⟨found', hs'', hclosed⟩ := h.closed hin'
        obtain rfl := Option.some.inj (hs''.symm.trans hs')
        exact hheard ((hclosed.authored found).1 hin).1 heq hunheard.1
    have hsound := h.sound.adopt hs ha (le_max_left store.nextEvent event.id) (le_max_right ..) hnew hfresh
    obtain ⟨state, hrun, hm, hk⟩ := h.push hl hs event.id (some event) (le_max_left store.nextEvent event.id)
      ⟨fun found hf => by cases hf; exact ⟨rfl, ha, hunheard⟩, by simp⟩ hsound
    have hnext : max process.storage.nextEvent (event.id + 1) = max store.nextEvent event.id + 1 := by
      rw [h.next, Nat.succ_max_succ]
    rw [hnext, hrun, @MemoryStorage.restage_run { store with nextEvent := max store.nextEvent event.id } layer staged
      _ hs hw.unsealed]
    exact ⟨rfl, hm, leaves_through hl hk⟩
  · rw [if_pos ha, if_pos ha]
    exact ⟨rfl, h.reopened hl, leaves_through hl fun other _ => .refl _ other⟩

theorem Mirrors.includeEvent (h : process.Mirrors store orphans) (hopen : (process.opened.lookup layer).isSome)
    (he : process.conn.events.lookup id = some event) (hc : process.conn.isCommitted event.authored) :
    Agree process (through layer (SqliteOpenLayer.includeEvent id) process) (MemoryStorage.includeEvent layer id store)
      orphans := by
  obtain ⟨handle, hl⟩ := Option.isSome_iff_exists.1 hopen
  obtain ⟨staged, hs, hw, hid, -⟩ := h.writing hl
  have hstored : (store.events.lookup id).isSome := Option.isSome_iff_exists.2 ⟨event, (h.events _ _).2 ⟨he, hc⟩⟩
  have hsound : MemoryStorage.Sound { store with staged := store.staged.insert layer (staged.taking id none) } := by
    refine h.sound.insert_same hs (List.append_nil _) fun found hfound => ?_
    rcases List.mem_append.1 hfound with hold | hnew
    · exact Or.inl hold
    · exact Or.inr (List.mem_singleton.1 hnew ▸ hstored)
  obtain ⟨state, hrun, hm, hk⟩ := h.push hl hs id none (Nat.le_refl store.nextEvent)
    ⟨fun _ hf => (by cases hf), fun _ => ⟨event, he, hc⟩⟩ hsound
  have hsame : ({ process.storage with nextEvent := store.nextEvent + 1 } : SqliteStorage) = process.storage := by
    rw [← h.next]
  rw [hsame] at hrun
  rw [MemoryStorage.includeEvent_run hstored hs hw.unsealed]
  unfold through SqliteOpenLayer.includeEvent
  rw [hl]
  dsimp only
  rw [hrun]
  refine ⟨rfl, ?_, leaves_through hl hk⟩
  have hname : staged.name id = staged.taking id none := by simp [StagedLayer.name, StagedLayer.taking]
  show Mirrors _ { store with staged := store.staged.insert layer (staged.name id) } orphans
  rw [hname]
  exact hm

/-- A process that has written a def event. -/
def defining (process : SqliteProcess) (layer : LayerId) (handle : SqliteOpenLayer) (event : DefEvent) :
    SqliteProcess :=
  { process with
    storage := { process.storage with
      conn := { process.conn with defEvents := process.conn.defEvents.insert (layer, handle.defs) event } }
    opened := process.opened.insert layer { handle with defs := handle.defs + 1 } }

theorem Mirrors.defining (h : process.Mirrors store orphans) (hl : process.opened.lookup layer = some handle)
    (hs : store.staged.lookup layer = some staged) (event : DefEvent) :
    (process.defining layer handle event).Mirrors
      { store with staged := store.staged.insert layer (staged.define event) } orphans := by
  obtain ⟨staged', hs', hw, hid, hout⟩ := h.writing hl
  obtain rfl := Option.some.inj (hs'.symm.trans hs)
  subst hid
  have hothers {other : LayerId} {defs : List DefEvent} (hne : other ≠ handle.id)
      (hd : process.conn.defEvents.Holds other defs) :
      (process.defining handle.id handle event).conn.defEvents.Holds other defs := hd.insert_other hne _ _
  refine
    { tables := ?_
      members := h.members.congr rfl rfl fun _ hc => h.members.authors hc
      sound := h.sound.insert_same hs rfl fun id hin => Or.inl hin
      next := h.next
      branches := h.branches
      branchIds := h.branchIds
      describes := h.describes
      metadata := h.metadata
      described := h.described
      events := h.events
      minted := h.minted
      committed := fun {other membership} hm => ?_
      of_committed := h.of_committed
      opened := fun {other found} hf => ?_
      closed := fun {other} hin => ?_
      staged := fun {other} hsome => ?_
      owned := fun hrow => (h.owned hrow).imp_left fun hsome => AssocMap.isSome_lookup_insert hsome _ _ }
  · have hrow : (process.conn.layers.lookup handle.id).isSome := by rw [hw.row]; rfl
    have := h.tables.defining hw.defs hrow event
    rwa [← hw.defCount] at this
  · obtain ⟨hc, hb, hheld, hdefs⟩ := h.committed hm
    exact ⟨hc, hb, hheld, hothers (fun heq => hw.not_committed (heq ▸ hc)) hdefs⟩
  · simp only [SqliteProcess.defining, AssocMap.lookup_insert_eq] at hf ⊢
    split at hf
    · cases hf
      subst other
      refine ⟨rfl, _, if_pos rfl, ?_⟩
      exact
        { row := hw.row
          branch := hw.branch
          unsealed := hw.unsealed
          split := hw.split.imp fun ids hsplit =>
            ⟨hsplit.1, hsplit.2.1, hsplit.2.2.seq, hsplit.2.2.own, hsplit.2.2.named, hsplit.2.2.distinct⟩
          seq := hw.seq
          defs := hw.defCount ▸ hw.defs.insert event
          defCount := by simp [StagedLayer.define, hw.defCount]
          authored := hw.authored
          indexed := hw.indexed
          authors := hw.authors }
    · rename_i hother
      obtain ⟨hid, staged', hs', hw'⟩ := h.opened hf
      refine ⟨hid, staged', by rw [if_neg hother, hs'], hw'.congr rfl rfl (fun _ hc => hc) rfl (fun _ _ => rfl)
        fun _ hd => ?_⟩
      exact hothers (hid ▸ hother) hd
  · obtain ⟨staged', hs', hclosed⟩ := h.closed hin
    have hne : other ≠ handle.id := by
      rintro rfl
      exact hout hin
    refine ⟨staged', ?_, hclosed.congr rfl (fun row hl => ⟨row, hl, rfl, rfl⟩) rfl
      (fun _ _ => rfl) fun _ hd => hothers hne hd⟩
    rw [AssocMap.lookup_insert_eq, if_neg hne, hs']
  · simp only [SqliteProcess.defining, AssocMap.lookup_insert_eq] at hsome ⊢
    split
    · exact Or.inl rfl
    · rename_i hother
      rw [if_neg hother] at hsome
      exact h.staged hsome

theorem Mirrors.putDef (h : process.Mirrors store orphans) (hopen : (process.opened.lookup layer).isSome)
    (event : DefEvent) : Agree process (through layer (SqliteOpenLayer.putDef event) process)
      (MemoryStorage.putDef layer event store) orphans := by
  obtain ⟨handle, hl⟩ := Option.isSome_iff_exists.1 hopen
  obtain ⟨staged, hs, hw, hid, -⟩ := h.writing hl
  rw [MemoryStorage.putDef_run event hs hw.unsealed]
  have hfree : (process.conn.defEvents.lookup (handle.id, handle.defs)).isSome = false := by
    rw [hw.defCount, hw.defs.lookup_length]
    rfl
  unfold through SqliteOpenLayer.putDef
  rw [hl]
  dsimp only
  subst hid
  rw [show process.storage.conn = process.conn from rfl, hfree]
  refine ⟨rfl, h.defining hl hs event, leaves_through hl fun other hne => ?_⟩
  exact ⟨rfl, id, fun hd => hd.insert_other hne _ _, fun _ _ => rfl⟩

end SqliteProcess

end BorgCore
