import BorgCore.Storage.Scan
import BorgCore.Storage.Tables

/-!
# What a read of the tables finds

The rows a read joins are those of the timeline: one for each record and committed layer of the branch that
holds it.  So a seek for the highest landing is the latest entry of a timeline, as it is in the memory store.
-/

namespace BorgCore

namespace Database

variable {db db' : Database} {branch : BranchId} {layer : LayerId} {cell : CellRef} {version : DefVersion}
  {record : CellAt} {event : Event} {row : Selected} {segment : BranchId × LayerId} {buffer : BufferId}
  {seen seen' : List CellRef} {path : ReadPath}

/-- The record of a cell at a version that a committed layer of a branch holds. -/
def recordAt (db : Database) (branch : BranchId) (cell : CellRef) (version : DefVersion) (layer : LayerId) :
    Option Event :=
  if db.isCommitted layer ∧ db.branchOf layer = some branch then lastOf cell version (db.readLayer layer)
  else none

/-- The record a segment answers a read with. -/
def answer (db : Database) (cell : CellRef) (version : DefVersion) (segment : BranchId × LayerId) :
    Option (LayerId × Event) :=
  Timeline.latest (db.recordAt segment.1 cell version) segment.2

theorem Sound.lookup_of_mem_readLayer (h : db.Sound) (hm : event ∈ db.readLayer layer) :
    db.events.lookup event.id = some event := by
  obtain ⟨id, -, he⟩ := List.mem_filterMap.1 hm
  rw [h.event_id he, he]

theorem recordAt_mem (h : db.recordAt branch cell version layer = some event) :
    event ∈ db.readLayer layer ∧ event.at = ⟨cell, version⟩ := by
  unfold recordAt at h
  split at h
  · exact lastOf_mem h
  · cases h

/-- **The rows a read joins are the records of the timeline.** -/
theorem Sound.mem_select (h : db.Sound) : row ∈ db.select segment ↔ row.landed ≤ segment.2 ∧
    db.recordAt segment.1 row.record.cell row.record.version row.landed = some row.event := by
  unfold select
  rw [List.mem_filterMap]
  constructor
  · rintro ⟨⟨key, id⟩, hm, hif⟩
    split at hif
    · rename_i hkey
      obtain ⟨hbranch, hc, hle⟩ := hkey
      obtain ⟨found, hfound, rfl⟩ := Option.map_eq_some_iff.1 hif
      obtain ⟨hb, hlast⟩ := (h.projects hc key id rfl).1 (AssocMap.mem_toPairs.1 hm)
      obtain ⟨last, hlast, hid⟩ := Option.map_eq_some_iff.1 hlast
      have hsame := h.lookup_of_mem_readLayer (lastOf_mem hlast).1
      dsimp only at hbranch hc hle hfound
      rw [hid, hfound] at hsame
      obtain rfl := Option.some.inj hsame
      exact ⟨hle, by rw [recordAt, if_pos ⟨hc, hbranch ▸ hb⟩, hlast]⟩
    · cases hif
  · obtain ⟨record, landed, event⟩ := row
    rintro ⟨hle, hrecord⟩
    dsimp only at hle hrecord
    have hmem := (recordAt_mem hrecord).1
    rw [recordAt] at hrecord
    split at hrecord
    · rename_i hcommitted
      refine ⟨(⟨segment.1, record, landed⟩, event.id), AssocMap.mem_toPairs.2 ?_, ?_⟩
      · exact (h.projects hcommitted.1 _ _ rfl).2 ⟨hcommitted.2, by rw [hrecord]; rfl⟩
      · rw [if_pos ⟨rfl, hcommitted.1, hle⟩]
        dsimp only
        rw [h.lookup_of_mem_readLayer hmem]
        rfl
    · cases hrecord

/-- A seek finds the latest entry of the record's timeline. -/
theorem Sound.newest_select (h : db.Sound) (record : CellAt) (segment : BranchId × LayerId) :
    newest (db.select segment) record =
      (db.answer record.cell record.version segment).map fun entry => ⟨record, entry.1, entry.2⟩ := by
  have hmem (row : Selected) : row ∈ (db.select segment).filter (fun row => row.record = record) ↔
      row.record = record ∧ row.landed ≤ segment.2 ∧
        db.recordAt segment.1 record.cell record.version row.landed = some row.event := by
    rw [List.mem_filter, h.mem_select, decide_eq_true_iff, and_comm]
    exact and_congr_right fun hrecord => by rw [hrecord]
  unfold answer newest
  cases hmax : ((db.select segment).filter fun row => row.record = record).argmax Selected.landed with
  | none =>
    have hnil := List.argmax_eq_none.1 hmax
    refine (Option.map_eq_none_iff.2 (Timeline.latest_eq_none_iff.2 fun j hj => ?_)).symm
    cases hr : db.recordAt segment.1 record.cell record.version j with
    | none => rfl
    | some event =>
      have hin := (hmem ⟨record, j, event⟩).2 ⟨rfl, hj, hr⟩
      rw [hnil] at hin
      cases hin
  | some row =>
    obtain ⟨rfl, hle, hr⟩ := (hmem row).1 (List.argmax_mem hmax)
    have hlatest : Timeline.latest (db.recordAt segment.1 row.record.cell row.record.version) segment.2 =
        some (row.landed, row.event) := by
      refine Timeline.latest_eq_some_iff.2 ⟨hle, hr, fun j hij hj => ?_⟩
      cases hj' : db.recordAt segment.1 row.record.cell row.record.version j with
      | none => rfl
      | some event =>
        have hin := (hmem ⟨row.record, j, event⟩).2 ⟨rfl, hj, hj'⟩
        exact absurd (List.le_of_mem_argmax hin hmax) (Nat.not_le.2 hij)
    rw [hlatest]
    rfl

/-- **A read of the tables is the latest record of the first segment that holds one.** -/
theorem Sound.getCell (h : db.Sound) (path : ReadPath) (cell : CellRef) (version : DefVersion) :
    db.getCell path cell version =
      (Timeline.nearest (db.recordAt · cell version) path.segments).map fun entry => ⟨entry.2, entry.1⟩ := by
  unfold Database.getCell Timeline.nearest
  induction path.segments with
  | nil => rfl
  | cons segment outer ih =>
    rw [getCellFrom, h.newest_select, Timeline.firstOf, ih, answer]
    cases Timeline.latest (db.recordAt segment.1 cell version) segment.2 with
    | none => rfl
    | some entry => rfl

/-! ### Scans -/

theorem answer_at {landedAt : LayerId} (h : db.answer cell version segment = some (landedAt, event)) :
    event.cell = cell ∧ event.version = version := by
  have hat := (recordAt_mem (Timeline.latest_eq_some_iff.1 h).2.1).2
  exact ⟨congrArg CellAt.cell hat, congrArg CellAt.version hat⟩

/-- A record is among those of a segment where the segment answers a read of it. -/
theorem Sound.exists_select (h : db.Sound) : (∃ row ∈ db.select segment, row.record = record) ↔
    (db.answer record.cell record.version segment).isSome := by
  unfold answer
  rw [Option.isSome_iff_ne_none, Ne, Timeline.latest_eq_none_iff]
  push Not
  constructor
  · rintro ⟨row, hm, rfl⟩
    obtain ⟨hle, hr⟩ := h.mem_select.1 hm
    exact ⟨row.landed, hle, by rw [hr]; exact Option.some_ne_none _⟩
  · rintro ⟨landed, hle, hne⟩
    obtain ⟨event, hr⟩ := Option.ne_none_iff_exists'.1 hne
    exact ⟨⟨record, landed, event⟩, h.mem_select.2 ⟨hle, hr⟩, rfl⟩

theorem newest_filter {rows : List Selected} (hb : record.cell.buffer = buffer) :
    newest (rows.filter fun row => row.record.cell.buffer = buffer) record = newest rows record := by
  unfold newest
  rw [List.filter_filter]
  refine congrArg (List.argmax Selected.landed) (List.filter_congr fun row _ => ?_)
  by_cases hrecord : row.record = record
  · simp [hrecord, hb]
  · simp [hrecord]

theorem Sound.mem_scanSegment (h : db.Sound) : event ∈ db.scanSegment buffer seen segment ↔
    event.cell.buffer = buffer ∧ event.cell ∉ seen ∧
      ∃ landedAt, db.answer event.cell event.version segment = some (landedAt, event) := by
  unfold scanSegment
  simp only [List.mem_filter, List.mem_map, List.mem_filterMap, List.mem_dedup, decide_eq_true_iff]
  constructor
  · rintro ⟨⟨row, ⟨record, ⟨found, ⟨-, hbuffer⟩, rfl⟩, hnewest⟩, rfl⟩, hseen⟩
    rw [newest_filter hbuffer, h.newest_select] at hnewest
    obtain ⟨⟨landedAt, last⟩, ha, rfl⟩ := Option.map_eq_some_iff.1 hnewest
    obtain ⟨hcell, hversion⟩ := answer_at ha
    dsimp only at hseen ⊢
    exact ⟨by rw [hcell, hbuffer], hseen, landedAt, by rw [hcell, hversion, ha]⟩
  · rintro ⟨hbuffer, hseen, landedAt, ha⟩
    have hnewest := h.newest_select event.at segment
    rw [show db.answer event.at.cell event.at.version segment = some (landedAt, event) from ha] at hnewest
    have hsome : (db.answer event.at.cell event.at.version segment).isSome := Option.isSome_iff_exists.2 ⟨_, ha⟩
    obtain ⟨found, hm, hrecord⟩ := h.exists_select.2 hsome
    refine ⟨⟨⟨event.at, landedAt, event⟩, ⟨event.at, ⟨found, ⟨hm, ?_⟩, hrecord⟩, ?_⟩, rfl⟩, hseen⟩
    · rw [hrecord]
      exact hbuffer
    · rw [newest_filter hbuffer, hnewest]
      rfl

theorem Sound.scanSegment_nodup (h : db.Sound) (buffer : BufferId) (seen : List CellRef)
    (segment : BranchId × LayerId) : (db.scanSegment buffer seen segment).Nodup := by
  unfold scanSegment
  refine List.Nodup.filter _ ?_
  rw [List.map_filterMap]
  refine List.Nodup.filterMap ?_ (List.nodup_dedup _)
  have hrecord {record : CellAt} {event : Event} (hm : event ∈ (newest ((db.select segment).filter fun row =>
      row.record.cell.buffer = buffer) record).map Selected.event) : event.at = record := by
    obtain ⟨row, hn, rfl⟩ := Option.map_eq_some_iff.1 hm
    obtain ⟨hin, he⟩ := List.mem_filter.1 (List.argmax_mem hn)
    obtain ⟨-, hr⟩ := h.mem_select.1 (List.mem_of_mem_filter hin)
    exact (recordAt_mem hr).2.trans (of_decide_eq_true he)
  exact fun record record' event hm hm' => (hrecord hm).symm.trans (hrecord hm')

theorem Sound.mem_cellVersions (h : db.Sound) : version ∈ db.cellVersions path cell ↔
    ∃ segment ∈ path.segments, (db.answer cell version segment).isSome := by
  unfold cellVersions
  rw [List.mem_dedup, List.mem_flatMap]
  refine exists_congr fun segment => and_congr_right fun _ => ?_
  have hrecord : (∃ row ∈ db.select segment, row.record = ⟨cell, version⟩) ↔
      (db.answer cell version segment).isSome := h.exists_select
  rw [← hrecord, List.mem_map]
  constructor
  · rintro ⟨row, hm, rfl⟩
    obtain ⟨hin, hcell⟩ := List.mem_filter.1 hm
    obtain rfl := of_decide_eq_true hcell
    exact ⟨row, hin, rfl⟩
  · rintro ⟨row, hm, he⟩
    refine ⟨row, List.mem_filter.2 ⟨hm, ?_⟩, congrArg CellAt.version he⟩
    exact decide_eq_true (congrArg CellAt.cell he)

/-! ### The two stores -/

section Stores

variable {store : MemoryStorage}

/-- The tables and a memory store hold the same records. -/
def SameRecords (db : Database) (store : MemoryStorage) : Prop :=
  ∀ branch cell version layer, db.recordAt branch cell version layer = store.recordAt branch cell version layer

theorem SameRecords.answer (hr : db.SameRecords store) (cell : CellRef) (version : DefVersion)
    (segment : BranchId × LayerId) : db.answer cell version segment = store.answer cell version segment :=
  Timeline.latest_congr fun layer _ => hr segment.1 cell version layer

theorem SameRecords.getCell (hr : db.SameRecords store) (h : db.Sound) (hs : store.Sound) (path : ReadPath)
    (cell : CellRef) (version : DefVersion) :
    store.getCell path cell version = .ok (db.getCell path cell version) := by
  have hsame : (fun branch => db.recordAt branch cell version) = fun branch => store.recordAt branch cell version :=
    funext fun branch => funext fun layer => hr branch cell version layer
  rw [hs.getCell, h.getCell, hsame]

theorem SameRecords.cellVersions (hr : db.SameRecords store) (h : db.Sound) (hs : store.Sound) (path : ReadPath)
    (cell : CellRef) : (db.cellVersions path cell).Perm (store.cellVersions path cell) := by
  refine (List.perm_ext_iff_of_nodup (List.nodup_dedup _) (List.nodup_dedup _)).2 fun version => ?_
  show version ∈ db.cellVersions path cell ↔ version ∈ store.cellVersions path cell
  rw [h.mem_cellVersions, hs.mem_cellVersions]
  refine exists_congr fun segment => and_congr_right fun _ => ?_
  rw [hr.answer, Option.isSome_iff_ne_none, Ne, MemoryStorage.answer_eq_none_iff, not_not]

theorem SameRecords.scanSegment (hr : db.SameRecords store) (h : db.Sound) (hs : store.Sound)
    (hseen : ∀ cell, cell ∈ seen ↔ cell ∈ seen') (segment : BranchId × LayerId) :
    (db.scanSegment buffer seen segment).Perm (store.shownOn buffer seen' segment) := by
  refine (List.perm_ext_iff_of_nodup (h.scanSegment_nodup ..)
    (.of_map _ (MemoryStorage.shownOn_nodup ..))).2 fun event => ?_
  rw [h.mem_scanSegment, MemoryStorage.mem_shownOn hs, hseen]
  simp only [hr.answer]

theorem SameRecords.scanFrom (hr : db.SameRecords store) (h : db.Sound) (hs : store.Sound)
    (hseen : ∀ cell, cell ∈ seen ↔ cell ∈ seen') (segments : List (BranchId × LayerId)) :
    (db.scanFrom buffer seen segments).Perm (store.shown buffer seen' segments) := by
  induction segments generalizing seen seen' with
  | nil => exact List.Perm.refl _
  | cons segment outer ih =>
    have hsegment : (db.scanSegment buffer seen segment).Perm (store.shownOn buffer seen' segment) :=
      hr.scanSegment h hs hseen segment
    refine hsegment.append (ih fun cell => ?_)
    rw [List.mem_append, List.mem_append, (hsegment.map Event.cell).mem_iff, hseen]

theorem SameRecords.scanBuffer (hr : db.SameRecords store) (h : db.Sound) (hs : store.Sound) (path : ReadPath)
    (buffer : BufferId) : ∃ rows, store.scanBuffer path buffer = .ok rows ∧
      (db.scanBuffer path buffer).Perm rows :=
  ⟨_, hs.scanBuffer, hr.scanFrom h hs (fun _ => Iff.rfl) path.segments⟩

end Stores

end Database

end BorgCore
