import BorgCore.Storage.Scan

/-!
# The read index as a projection

The index is built as layers commit, in whatever order they do, and rebuilt in the order of their ids.
Both times it is what the members of the layers say, so nothing that is read can tell one from the other.
-/

namespace BorgCore

namespace MemoryStorage

variable {store : MemoryStorage} {path : ReadPath} {cell : CellRef} {version : DefVersion}

/-- The layer a read is answered from is the highest within the segment's bound that holds the record. -/
theorem answer_eq_some_iff {segment : BranchId × LayerId} {landedAt : LayerId} {event : Event} :
    store.answer cell version segment = some (landedAt, event) ↔
      landedAt ≤ segment.2 ∧ store.recordAt segment.1 cell version landedAt = some event ∧
        ∀ layer, landedAt < layer → layer ≤ segment.2 → store.recordAt segment.1 cell version layer = none :=
  Timeline.latest_eq_some_iff

theorem Sound.scanBuffer_perm {reads : ReadIndex} (h : store.Sound)
    (h' : Sound { store with reads := reads }) (buffer : BufferId) :
    ∃ rows rows', MemoryStorage.scanBuffer { store with reads := reads } path buffer = .ok rows' ∧
      store.scanBuffer path buffer = .ok rows ∧ rows'.Perm rows := by
  refine ⟨_, _, h'.scanBuffer, h.scanBuffer, ?_⟩
  refine (List.perm_ext_iff_of_nodup (.of_map _ (shown_nodup h' ..)) (.of_map _ (shown_nodup h ..))).2 ?_
  intro event
  rw [mem_shown h, mem_shown h']
  rfl

theorem Sound.cellVersions_perm {reads : ReadIndex} (h : store.Sound)
    (h' : Sound { store with reads := reads }) :
    (cellVersions { store with reads := reads } path cell).Perm (store.cellVersions path cell) := by
  refine (List.perm_ext_iff_of_nodup (List.nodup_dedup _) (List.nodup_dedup _)).2 fun version => ?_
  show version ∈ cellVersions { store with reads := reads } path cell ↔ version ∈ store.cellVersions path cell
  rw [h.mem_cellVersions, h'.mem_cellVersions]
  rfl

/-- **The read index is a projection of membership.**  A read never fails; it finds the last event that is
a version of the record among the members of the highest layer, within the bound of the first segment that
has any such layer.  Rebuilding the index changes the answer of no read. -/
theorem getCell_projects (h : store.Reachable) :
    (∀ path cell version, (∃ found, store.getCell path cell version = .ok found) ∧
      ∀ event landedAt, store.getCell path cell version = .ok (some ⟨event, landedAt⟩) ↔
        ∃ inner segment outer, path.segments = inner ++ segment :: outer ∧
          (landedAt ≤ segment.2 ∧ store.recordAt segment.1 cell version landedAt = some event ∧
            ∀ layer, landedAt < layer → layer ≤ segment.2 → store.recordAt segment.1 cell version layer = none) ∧
          ∀ nearer ∈ inner, ¬ store.Holds nearer cell version) ∧
      ∃ rebuilt, rebuildReadIndex store = .ok () rebuilt ∧
        (∀ path cell version, rebuilt.getCell path cell version = store.getCell path cell version) ∧
        (∀ path cell, (rebuilt.cellVersions path cell).Perm (store.cellVersions path cell)) ∧
        (∀ path buffer, ∃ rows rows', rebuilt.scanBuffer path buffer = .ok rows' ∧
          store.scanBuffer path buffer = .ok rows ∧ rows'.Perm rows) ∧
        ∀ layer, rebuilt.readMembership layer = store.readMembership layer ∧
          rebuilt.readLayer layer = store.readLayer layer ∧
          rebuilt.readDefLayer layer = store.readDefLayer layer := by
  have hsound := h.sound
  obtain ⟨reads, hrun, hrebuilt⟩ := hsound.rebuildReadIndex
  refine ⟨fun path cell version => ⟨⟨_, hsound.getCell path cell version⟩, fun event landedAt => ?_⟩, _, hrun,
    fun path cell version => ?_, fun path cell => hsound.cellVersions_perm hrebuilt,
    fun path buffer => hsound.scanBuffer_perm hrebuilt buffer, fun layer => ⟨rfl, rfl, rfl⟩⟩
  · rw [hsound.getCell_eq_some]
    simp only [answer_eq_some_iff]
  · rw [hsound.getCell, hrebuilt.getCell]
    rfl

/-- After a fork's layer has landed above its parent's. -/
theorem getCell_projects_forked :
    ∃ rebuilt, rebuildReadIndex Forked.migrated = .ok () rebuilt ∧
      ∀ path cell version, rebuilt.getCell path cell version = Forked.migrated.getCell path cell version := by
  obtain ⟨-, rebuilt, hrun, hsame, -⟩ := getCell_projects Forked.reachable
  exact ⟨rebuilt, hrun, hsame⟩

end MemoryStorage

end BorgCore
