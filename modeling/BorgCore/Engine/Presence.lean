import BorgCore.Engine.Anchors

/-!
# Records along a path

`Seen` says that a path finds a record; it depends on the segments of the path and on what has been
committed, so it survives a longer path and a longer run.  A layer's own path, from its branch at its
id outward, lies within every path that sees the layer.
-/

namespace BorgCore

namespace MemoryStorage

variable {store : MemoryStorage} {buffer : BufferId} {seen : List CellRef} {cell : CellRef}

/-! ### Scanning a buffer -/

theorem Sound.newest_stored (h : store.Sound) {branch : BranchId} {version : DefVersion}
    {history : History} {bound layer : LayerId} {id : EventId}
    (hh : store.reads.lookup (branch, cell, version) = some history)
    (hn : newestAt history bound = some (layer, id)) :
    ∃ event, store.events.lookup id = some event ∧ event.cell = cell := by
  have hm : (layer, id) ∈ history :=
    (List.mem_filter.1 (List.mem_reverse.1 (List.argmax_mem hn))).1
  have hindexed : (layer, id) ∈ store.reads.getD (branch, cell, version) [] := by
    rw [AssocMap.getD, hh]
    exact hm
  obtain ⟨event, hr, rfl⟩ := Option.map_eq_some_iff.1 ((h.indexed _ _ _ _ _).1 hindexed)
  obtain ⟨hcontents, hat⟩ := recordAt_mem hr
  exact ⟨event, lookup_of_mem_contents h hcontents, congrArg CellAt.cell hat⟩

theorem mem_scanSegment {segment : BranchId × LayerId} {id : EventId} :
    (cell, id) ∈ store.scanSegment buffer seen segment ↔
      cell.buffer = buffer ∧ cell ∉ seen ∧ ∃ version history layer,
        store.reads.lookup (segment.1, cell, version) = some history ∧
          newestAt history segment.2 = some (layer, id) := by
  simp only [scanSegment, List.mem_filterMap, Prod.exists, AssocMap.mem_toPairs]
  constructor
  · rintro ⟨branch, indexed, version, history, hl, hrow⟩
    split at hrow
    · rename_i hc
      obtain ⟨entry, hn, he⟩ := Option.map_eq_some_iff.1 hrow
      cases he
      obtain ⟨rfl, hb, hs⟩ := hc
      exact ⟨hb, hs, version, history, entry.1, hl, hn⟩
    · cases hrow
  · rintro ⟨hb, hs, version, history, layer, hl, hn⟩
    refine ⟨segment.1, cell, version, history, hl, ?_⟩
    rw [if_pos ⟨rfl, hb, hs⟩, hn]
    rfl

theorem Sound.scanFrom_stored (h : store.Sound) (path : List (BranchId × LayerId)) :
    ∀ id ∈ store.scanFrom buffer seen path, (store.events.lookup id).isSome := by
  induction path generalizing seen with
  | nil => nofun
  | cons segment outer ih =>
    intro id hid
    rw [scanFrom] at hid
    rcases List.mem_append.1 hid with hid | hid
    · obtain ⟨⟨found, id⟩, hrow, rfl⟩ := List.mem_map.1 hid
      obtain ⟨_, _, version, history, layer, hl, hn⟩ := mem_scanSegment.1 hrow
      obtain ⟨event, he, _⟩ := h.newest_stored hl hn
      show (store.events.lookup id).isSome
      rw [he]
      rfl
    · exact ih id hid

/-- A cell with a record along the path has a row: it is shadowed only by a row of its own. -/
theorem Sound.scanFrom_covers (h : store.Sound) {version : DefVersion}
    {path : List (BranchId × LayerId)} (hb : cell.buffer = buffer) (hseen : cell ∉ seen)
    (hfound : ∃ segment ∈ path, (store.newestOn segment.1 segment.2 cell version).isSome) :
    ∃ id ∈ store.scanFrom buffer seen path, ∃ event,
      store.events.lookup id = some event ∧ event.cell = cell := by
  induction path generalizing seen with
  | nil =>
    obtain ⟨_, hm, _⟩ := hfound
    cases hm
  | cons first outer ih =>
    rw [scanFrom]
    by_cases hrow : ∃ id, (cell, id) ∈ store.scanSegment buffer seen first
    · obtain ⟨id, hrow⟩ := hrow
      obtain ⟨_, _, _, history, layer, hl, hn⟩ := mem_scanSegment.1 hrow
      exact ⟨id, List.mem_append_left _ (List.mem_map.2 ⟨_, hrow, rfl⟩), h.newest_stored hl hn⟩
    · have hseen' : cell ∉ (store.scanSegment buffer seen first).map Prod.fst ++ seen := by
        intro hm
        rcases List.mem_append.1 hm with hm | hm
        · obtain ⟨row, hin, rfl⟩ := List.mem_map.1 hm
          exact hrow ⟨row.2, hin⟩
        · exact hseen hm
      have houter : ∃ segment ∈ outer,
          (store.newestOn segment.1 segment.2 cell version).isSome := by
        obtain ⟨segment, hm, hs⟩ := hfound
        rcases List.mem_cons.1 hm with rfl | hm
        · obtain ⟨⟨layer, id⟩, hn⟩ := Option.isSome_iff_exists.1 hs
          unfold MemoryStorage.newestOn AssocMap.getD at hn
          cases hl : store.reads.lookup (segment.1, cell, version) with
          | none =>
            rw [hl] at hn
            cases hn
          | some history =>
            rw [hl, Option.getD_some] at hn
            exact absurd ⟨id, mem_scanSegment.2 ⟨hb, hseen, version, history, layer, hl, hn⟩⟩ hrow
        · exact ⟨segment, hm, hs⟩
      obtain ⟨id, hid, hevent⟩ := ih hseen' houter
      exact ⟨id, List.mem_append_right _ hid, hevent⟩

/-- **A scan lists every cell of its buffer that a read along the path finds.** -/
theorem Sound.scanBuffer_covers (h : store.Sound) {path : ReadPath} {version : DefVersion}
    {found : Landed} (hget : store.getCell path cell version = .ok (some found)) :
    ∃ rows, store.scanBuffer path cell.buffer = .ok rows ∧ ∃ row ∈ rows, row.cell = cell := by
  have hseen : (Timeline.nearest (store.recordAt · cell version) path.segments).isSome := by
    rw [h.getCell, Except.ok.injEq, Option.map_eq_some_iff] at hget
    obtain ⟨entry, hn, _⟩ := hget
    rw [hn]
    rfl
  obtain ⟨segment, hm, i, hi, hs⟩ := Timeline.nearest_isSome_iff.1 hseen
  have hnewest : (store.newestOn segment.1 segment.2 cell version).isSome := by
    rw [h.newestOn, Option.isSome_map]
    refine Option.isSome_iff_ne_none.2 fun hnone => ?_
    rw [Timeline.latest_eq_none_iff.1 hnone i hi] at hs
    cases hs
  obtain ⟨id, hid, event, he, hc⟩ :=
    h.scanFrom_covers rfl List.not_mem_nil ⟨segment, hm, hnewest⟩
  exact ⟨_, mapM_event (h.scanFrom_stored _), event, List.mem_filterMap.2 ⟨id, hid, he⟩, hc⟩

end MemoryStorage

namespace Log

variable {log log' : Log} {branch parent child : BranchId} {cell : CellRef} {version : DefVersion}
  {since id : LayerId}

/-! ### What a path finds -/

/-- A record of a cell at a version lies along a path. -/
def Seen (log : Log) (path : ReadPath) (cell : CellRef) (version : DefVersion) : Prop :=
  ∃ segment ∈ path.segments, ∃ id ≤ segment.2, (log.recordAt cell version segment.1 id).isSome

theorem Sound.seen_iff (h : log.Sound) {path : ReadPath} :
    log.Seen path cell version ↔ ∃ found, log.storage.getCell path cell version = .ok (some found) := by
  rw [h.getCell, Seen, ← Timeline.nearest_isSome_iff]
  cases Timeline.nearest (log.recordAt cell version) path.segments <;> simp

theorem Grows.recordAt_isSome (hg : Grows log log')
    (hr : (log.recordAt cell version branch id).isSome) :
    (log'.recordAt cell version branch id).isSome := by
  obtain ⟨commit, hc, hrest⟩ := recordAt_isSome_iff.1 hr
  exact recordAt_isSome_iff.2 ⟨commit, hg.commits hc, hrest⟩

theorem Seen.grows {path : ReadPath} (hs : log.Seen path cell version) (hg : Grows log log') :
    log'.Seen path cell version := by
  obtain ⟨segment, hm, id, hle, hr⟩ := hs
  exact ⟨segment, hm, id, hle, hg.recordAt_isSome hr⟩

/-- One path lies within another: wherever it looks, the other looks at least as far up. -/
def Within (path path' : ReadPath) : Prop :=
  ∀ segment ∈ path.segments, ∃ bound, segment.2 ≤ bound ∧ (segment.1, bound) ∈ path'.segments

theorem Seen.within {path path' : ReadPath} (hs : log.Seen path cell version)
    (hw : Within path path') : log.Seen path' cell version := by
  obtain ⟨segment, hm, id, hle, hr⟩ := hs
  obtain ⟨bound, hbound, hm'⟩ := hw segment hm
  exact ⟨_, hm', id, Nat.le_trans hle hbound, hr⟩

/-! ### The path of a layer -/

theorem CommittedOn.branchOf (hc : log.CommittedOn branch id) : log.branchOf id = some branch := by
  obtain ⟨commit, hc, hb⟩ := hc
  obtain ⟨layer, hl, _, hbr, _⟩ := commitAt_eq_some hc
  simp [Log.branchOf, Log.layer, hl, ← hbr, hb]

theorem Sound.outward_mem (h : log.Sound) {requested : Option LayerId} {fuel : Nat}
    {current : BranchId} {bound : LayerId} {segment outer : BranchId × LayerId} {origin : LayerId}
    (hfuel : current < fuel) (hm : segment ∈ log.segmentsFrom requested fuel current bound)
    (ho : log.outward segment.1 = some (parent, origin))
    (hr : ∀ layer, requested = some layer → origin ≤ layer)
    (hout : outer ∈ (log.readPath parent (some origin)).segments) :
    outer ∈ log.segmentsFrom requested fuel current bound := by
  induction fuel generalizing current bound with
  | zero => cases hfuel
  | succ fuel ih =>
    rw [segmentsFrom_succ] at hm ⊢
    refine List.mem_cons_of_mem _ ?_
    rcases List.mem_cons.1 hm with rfl | hm
    · -- The climb goes on from here, and nothing clamps it.
      rw [ho]
      have hclamp : clamp requested origin = origin := by
        cases requested with
        | none => rfl
        | some layer => exact Nat.min_eq_right (hr layer rfl)
      have hrest : (log.readPath parent (some origin)).segments =
          log.segmentsFrom requested fuel parent (clamp requested origin) := by
        have hlt := h.outward_lt ho
        have hle {parent' origin'} (ho' : log.outward parent = some (parent', origin')) :
            origin' ≤ origin := Nat.le_of_lt (h.outward_origin_lt ho ho')
        have hfuel' : parent < fuel := Nat.lt_of_lt_of_le hlt (Nat.lt_succ_iff.1 hfuel)
        rw [hclamp]
        unfold readPath
        rw [h.segmentsFrom_clamp hle, h.segmentsFrom_fuel (Nat.lt_succ_self parent) hfuel']
        cases requested with
        | none => rfl
        | some layer =>
          exact (h.segmentsFrom_clamp fun ho' => Nat.le_trans (hle ho') (hr layer rfl)).symm
      rw [hrest] at hout
      exact hout
    · cases hcur : log.outward current with
      | none =>
        rw [hcur] at hm
        cases hm
      | some next =>
        rw [hcur] at hm
        have hlt := h.outward_lt hcur
        exact ih (Nat.lt_of_lt_of_le hlt (Nat.lt_succ_iff.1 hfuel)) hm

/-- **Whoever sees a layer sees what the layer saw.** -/
theorem Sound.readPath_within (h : log.Sound) {requested : Option LayerId}
    {segment : BranchId × LayerId} (hm : segment ∈ (log.readPath branch requested).segments)
    (hc : log.CommittedOn segment.1 id) (hle : id ≤ segment.2) :
    Within (log.readPath segment.1 (some id)) (log.readPath branch requested) := by
  have hb := hc.branchOf
  intro own hown
  rw [h.readPath_some hb] at hown
  rcases List.mem_cons.1 hown with rfl | hown
  · exact ⟨segment.2, hle, hm⟩
  · cases ho : log.outward segment.1 with
    | none =>
      rw [ho] at hown
      cases hown
    | some next =>
      obtain ⟨parent, origin⟩ := next
      rw [ho] at hown
      obtain ⟨found, hf, hfo, _⟩ := outward_eq_some ho
      have hlt := h.origin_lt hc hf hfo
      refine ⟨own.2, Nat.le_refl _, h.outward_mem (Nat.lt_succ_self _) hm ho ?_ hown⟩
      intro layer hlayer
      subst hlayer
      have hbound : segment.2 ≤ layer := segmentsFrom_bound_le (Nat.le_refl _) hm
      exact Nat.le_trans (Nat.le_of_lt hlt) (Nat.le_trans hle hbound)

theorem Sound.within_opened (h : log.Sound) (hg : Grows log log') (h' : log'.Sound)
    (hb : (log.branches.lookup branch).isSome) (hopen : log'.branchOf log.nextLayer = some branch) :
    Within (log.readPath branch none) (log'.readPath branch (some log.nextLayer)) := by
  intro segment hm
  rw [h.readPath_none] at hm
  rw [h'.readPath_some hopen, hg.outward hb h]
  rcases List.mem_cons.1 hm with rfl | hm
  · refine ⟨log.nextLayer, ?_, List.mem_cons_self⟩
    cases hh : log.head branch with
    | none => exact Nat.zero_le _
    | some top =>
      obtain ⟨commit, hc, _⟩ := ((h.projected.heads_iff branch top).1 hh).1
      exact Nat.le_of_lt (h.commitAt_lt hc).2
  · cases ho : log.outward branch with
    | none =>
      rw [ho] at hm
      cases hm
    | some next =>
      obtain ⟨parent, origin⟩ := next
      rw [ho] at hm
      refine ⟨segment.2, Nat.le_refl _, List.mem_cons_of_mem _ ?_⟩
      simp only
      rw [hg.readPath_some h (h.outward_registered ho)]
      exact hm

/-- What a branch was forked with lies within the path of every layer of the branch it stands on. -/
theorem Anchored.within (ha : log.Anchored child parent since) (h : log.Sound)
    {origin : LayerId} {owner : BranchId} (ho : log.outward child = some (owner, origin))
    (hb : log.branchOf id = some parent) (hlt : since < id) :
    Within (log.readPath owner (some origin)) (log.readPath parent (some id)) := by
  obtain ⟨_, owner', ho', howner⟩ := ha
  rw [ho] at ho'
  cases ho'
  intro segment hm
  rw [h.readPath_some hb]
  rcases howner with rfl | howner
  · obtain ⟨_, _, _, hp⟩ := outward_eq_some ho
    rw [h.readPath_some hp] at hm
    rcases List.mem_cons.1 hm with rfl | hm
    · exact ⟨id, Nat.le_of_lt hlt, List.mem_cons_self⟩
    · exact ⟨segment.2, Nat.le_refl _, List.mem_cons_of_mem _ hm⟩
  · rw [howner]
    exact ⟨segment.2, Nat.le_refl _, List.mem_cons_of_mem _ hm⟩

end Log

end BorgCore
