import Mathlib.Data.List.Dedup
import BorgCore.Storage.Runs

/-!
# What a scan of a buffer shows

A read is of one record, a cell at a def-version, and a nearer segment's record stands before an ancestor's
of the same record.  A scan puts a nearer segment's records before everything an ancestor holds of the same
cells.  Where a cell is materialized at one def-version on a fork and at another on its parent, a read finds
both and a scan shows the fork's alone.
-/

namespace BorgCore

namespace MemoryStorage

variable {store : MemoryStorage} {path : ReadPath} {buffer : BufferId} {segment : BranchId × LayerId}
  {seen : List CellRef} {cell : CellRef} {version : DefVersion} {event : Event}

/-- A segment of a path has a record of a cell at a def-version, at or below its bound. -/
def Holds (store : MemoryStorage) (segment : BranchId × LayerId) (cell : CellRef) (version : DefVersion) : Prop :=
  ∃ layer, layer ≤ segment.2 ∧ (store.recordAt segment.1 cell version layer).isSome

/-- The record a segment answers a read with. -/
def answer (store : MemoryStorage) (cell : CellRef) (version : DefVersion) (segment : BranchId × LayerId) :
    Option (LayerId × Event) :=
  Timeline.latest (store.recordAt segment.1 cell version) segment.2

theorem answer_eq_none_iff : store.answer cell version segment = none ↔ ¬ store.Holds segment cell version := by
  unfold answer Holds
  rw [Timeline.latest_eq_none_iff]
  push Not
  simp only [Option.not_isSome_iff_eq_none]

theorem answer_at {landedAt : LayerId} (h : store.answer cell version segment = some (landedAt, event)) :
    event.cell = cell ∧ event.version = version := by
  have hrecord := (Timeline.latest_eq_some_iff.1 h).2.1
  have hat := (recordAt_mem hrecord).2
  exact ⟨congrArg CellAt.cell hat, congrArg CellAt.version hat⟩

theorem Sound.mem_toPairs (h : store.Sound) {landedAt : LayerId}
    (ha : store.answer cell version segment = some (landedAt, event)) :
    ∃ history, ((segment.1, cell, version), history) ∈ store.reads.toPairs := by
  have hrecord := (Timeline.latest_eq_some_iff.1 ha).2.1
  have hin := (h.indexed segment.1 cell version landedAt event.id).2 (by rw [hrecord]; rfl)
  unfold AssocMap.getD at hin
  cases hl : store.reads.lookup (segment.1, cell, version) with
  | none =>
    rw [hl] at hin
    cases hin
  | some history => exact ⟨history, AssocMap.mem_toPairs.2 hl⟩

theorem Sound.newestAt (h : store.Sound) {branch : BranchId} {bound : LayerId} {history : History}
    (hm : ((branch, cell, version), history) ∈ store.reads.toPairs) :
    newestAt history bound = (store.answer cell version (branch, bound)).map fun entry => (entry.1, entry.2.id) := by
  have hnewest := h.newestOn branch bound cell version
  unfold MemoryStorage.newestOn AssocMap.getD at hnewest
  rwa [AssocMap.mem_toPairs.1 hm, Option.getD_some] at hnewest

/-! ### Which versions there are -/

theorem Sound.mem_versionsOn (h : store.Sound) :
    version ∈ store.versionsOn cell segment ↔ store.Holds segment cell version := by
  unfold versionsOn
  rw [List.mem_filterMap]
  constructor
  · rintro ⟨⟨⟨branch, indexed, found⟩, history⟩, hm, hif⟩
    dsimp only at hif
    split at hif
    · rename_i hkey
      obtain ⟨rfl, rfl, hany⟩ := hkey
      cases hif
      obtain ⟨⟨landedAt, id⟩, hin, hle⟩ := List.any_eq_true.1 hany
      have hrecord := (h.indexed segment.1 indexed version landedAt id).1 (by
        unfold AssocMap.getD
        rw [AssocMap.mem_toPairs.1 hm]
        exact hin)
      obtain ⟨event, hevent, -⟩ := Option.map_eq_some_iff.1 hrecord
      exact ⟨landedAt, of_decide_eq_true hle, by rw [hevent]; rfl⟩
    · cases hif
  · rintro ⟨layer, hle, hsome⟩
    obtain ⟨event, hevent⟩ := Option.isSome_iff_exists.1 hsome
    have hin := (h.indexed segment.1 cell version layer event.id).2 (by rw [hevent]; rfl)
    unfold AssocMap.getD at hin
    cases hl : store.reads.lookup (segment.1, cell, version) with
    | none =>
      rw [hl] at hin
      cases hin
    | some history =>
      rw [hl] at hin
      refine ⟨((segment.1, cell, version), history), AssocMap.mem_toPairs.2 hl, if_pos ⟨rfl, rfl, ?_⟩⟩
      exact List.any_eq_true.2 ⟨_, hin, decide_eq_true hle⟩

theorem Sound.mem_cellVersions (h : store.Sound) :
    version ∈ store.cellVersions path cell ↔ ∃ segment ∈ path.segments, store.Holds segment cell version := by
  unfold cellVersions
  rw [List.mem_dedup, List.mem_flatMap]
  exact exists_congr fun segment => and_congr_right fun _ => h.mem_versionsOn

/-! ### What a scan shows -/

/-- The records one segment adds to a scan. -/
def shownOn (store : MemoryStorage) (buffer : BufferId) (seen : List CellRef) (segment : BranchId × LayerId) :
    List Event :=
  store.reads.toPairs.filterMap fun ((branch, cell, version), _) =>
    if branch = segment.1 ∧ cell.buffer = buffer ∧ cell ∉ seen then
      (store.answer cell version segment).map Prod.snd
    else none

def shown (store : MemoryStorage) (buffer : BufferId) (seen : List CellRef) :
    List (BranchId × LayerId) → List Event
  | [] => []
  | segment :: outer =>
    store.shownOn buffer seen segment ++
      store.shown buffer ((store.shownOn buffer seen segment).map Event.cell ++ seen) outer

theorem Sound.scanSegment (h : store.Sound) : store.scanSegment buffer seen segment =
    (store.shownOn buffer seen segment).map fun event => (event.cell, event.id) := by
  unfold MemoryStorage.scanSegment shownOn
  rw [List.map_filterMap]
  refine List.filterMap_congr fun ⟨⟨branch, cell, version⟩, history⟩ hm => ?_
  dsimp only
  by_cases hkey : branch = segment.1 ∧ cell.buffer = buffer ∧ cell ∉ seen
  · obtain ⟨rfl, hb, hs⟩ := hkey
    rw [if_pos ⟨rfl, hb, hs⟩, if_pos ⟨rfl, hb, hs⟩, h.newestAt hm]
    cases ha : store.answer cell version segment with
    | none => rfl
    | some found =>
      obtain ⟨landedAt, event⟩ := found
      rw [← (answer_at ha).1]
      rfl
  · rw [if_neg hkey, if_neg hkey]
    rfl

theorem Sound.scanFrom (h : store.Sound) (segments : List (BranchId × LayerId)) :
    store.scanFrom buffer seen segments = (store.shown buffer seen segments).map Event.id := by
  induction segments generalizing seen with
  | nil => rfl
  | cons segment outer ih =>
    simp only [MemoryStorage.scanFrom, shown, h.scanSegment, ih, List.map_append, List.map_map]
    rfl

theorem mem_shownOn (h : store.Sound) : event ∈ store.shownOn buffer seen segment ↔
    event.cell.buffer = buffer ∧ event.cell ∉ seen ∧
      ∃ landedAt, store.answer event.cell event.version segment = some (landedAt, event) := by
  unfold shownOn
  rw [List.mem_filterMap]
  constructor
  · rintro ⟨⟨⟨branch, cell, version⟩, history⟩, -, hif⟩
    dsimp only at hif
    split at hif
    · rename_i hkey
      obtain ⟨⟨landedAt, found⟩, ha, rfl⟩ := Option.map_eq_some_iff.1 hif
      obtain ⟨rfl, rfl⟩ := answer_at ha
      exact ⟨hkey.2.1, hkey.2.2, landedAt, ha⟩
    · cases hif
  · rintro ⟨hb, hs, landedAt, ha⟩
    obtain ⟨history, hm⟩ := h.mem_toPairs ha
    refine ⟨_, hm, ?_⟩
    dsimp only
    rw [if_pos ⟨rfl, hb, hs⟩, ha]
    rfl

/-- A segment shows something of a cell that is not shown yet where it has any record of it. -/
theorem mem_shownOn_cells (h : store.Sound) (hb : cell.buffer = buffer) (hs : cell ∉ seen) :
    cell ∈ (store.shownOn buffer seen segment).map Event.cell ↔ ∃ version, store.Holds segment cell version := by
  rw [List.mem_map]
  constructor
  · rintro ⟨event, hm, rfl⟩
    obtain ⟨-, -, landedAt, ha⟩ := (mem_shownOn h).1 hm
    refine ⟨event.version, by_contra fun hno => ?_⟩
    rw [answer_eq_none_iff.2 hno] at ha
    cases ha
  · rintro ⟨version, hholds⟩
    cases ha : store.answer cell version segment with
    | none => exact absurd hholds (answer_eq_none_iff.1 ha)
    | some found =>
      obtain ⟨landedAt, event⟩ := found
      obtain ⟨rfl, rfl⟩ := answer_at ha
      exact ⟨event, (mem_shownOn h).2 ⟨hb, hs, landedAt, ha⟩, rfl⟩

/-- **What a scan shows**: a record no nearer segment has anything of the cell of, at whatever version. -/
theorem mem_shown (h : store.Sound) {segments : List (BranchId × LayerId)} :
    event ∈ store.shown buffer seen segments ↔ event.cell.buffer = buffer ∧ event.cell ∉ seen ∧
      ∃ inner segment outer, segments = inner ++ segment :: outer ∧
        (∃ landedAt, store.answer event.cell event.version segment = some (landedAt, event)) ∧
        ∀ nearer ∈ inner, ∀ version, ¬ store.Holds nearer event.cell version := by
  induction segments generalizing seen with
  | nil => simp [shown]
  | cons segment outer ih =>
    rw [shown, List.mem_append, mem_shownOn h, ih, List.mem_append, not_or]
    constructor
    · rintro (⟨hb, hs, ha⟩ | ⟨hb, ⟨hnot, hs⟩, inner, found, rest, rfl, ha, hinner⟩)
      · exact ⟨hb, hs, [], segment, outer, rfl, ha, by simp⟩
      · refine ⟨hb, hs, segment :: inner, found, rest, rfl, ha, fun nearer hn version hholds => ?_⟩
        rcases List.mem_cons.1 hn with rfl | hn
        · exact hnot ((mem_shownOn_cells h hb hs).2 ⟨version, hholds⟩)
        · exact hinner nearer hn version hholds
    · rintro ⟨hb, hs, inner, found, rest, he, ha, hinner⟩
      cases inner with
      | nil =>
        cases he
        exact Or.inl ⟨hb, hs, ha⟩
      | cons nearer inner =>
        cases he
        refine Or.inr ⟨hb, ⟨fun hin => ?_, hs⟩, inner, found, rest, rfl, ha, fun other ho =>
          hinner other (List.mem_cons_of_mem _ ho)⟩
        obtain ⟨version, hholds⟩ := (mem_shownOn_cells h hb hs).1 hin
        exact hinner segment (List.mem_cons_self ..) version hholds

theorem shownOn_nodup (store : MemoryStorage) (buffer : BufferId) (seen : List CellRef)
    (segment : BranchId × LayerId) : ((store.shownOn buffer seen segment).map Event.at).Nodup := by
  have hkeys : store.reads.toPairs.Pairwise fun first second => first.1 ≠ second.1 := by
    unfold AssocMap.toPairs
    exact List.pairwise_map.2 (List.nodupKeys_iff_pairwise.1 store.reads.nodupKeys)
  unfold shownOn List.Nodup
  rw [List.pairwise_map, List.pairwise_filterMap]
  refine hkeys.imp ?_
  -- Two rows of one segment come from two keys, and a row's record is its key.
  rintro ⟨⟨branch, cell, version⟩, history⟩ ⟨⟨branch', cell', version'⟩, history'⟩ hne first hf second hs heq
  dsimp only at hf hs
  split at hf
  · rename_i hkey
    split at hs
    · rename_i hkey'
      obtain ⟨⟨landedAt, found⟩, ha, rfl⟩ := Option.map_eq_some_iff.1 hf
      obtain ⟨⟨landedAt', found'⟩, ha', rfl⟩ := Option.map_eq_some_iff.1 hs
      obtain ⟨rfl, rfl⟩ := answer_at ha
      obtain ⟨rfl, rfl⟩ := answer_at ha'
      obtain ⟨hc, hv⟩ := CellAt.mk.inj heq
      exact hne (by rw [hkey.1, hkey'.1, hc, hv])
    · cases hs
  · cases hf

theorem shown_nodup (h : store.Sound) (buffer : BufferId) (seen : List CellRef)
    (segments : List (BranchId × LayerId)) : ((store.shown buffer seen segments).map Event.at).Nodup := by
  induction segments generalizing seen with
  | nil => exact List.nodup_nil
  | cons segment outer ih =>
    rw [shown, List.map_append]
    refine List.nodup_append.2 ⟨shownOn_nodup .., ih _, ?_⟩
    rintro _ hfirst _ hsecond rfl
    obtain ⟨first, hf, hat⟩ := List.mem_map.1 hfirst
    obtain ⟨second, hs, hat'⟩ := List.mem_map.1 hsecond
    obtain ⟨-, hnot, -⟩ := (mem_shown h).1 hs
    have hcell : first.cell = second.cell := congrArg CellAt.cell (hat.trans hat'.symm)
    exact hnot (List.mem_append_left _ (List.mem_map.2 ⟨first, hf, hcell⟩))

theorem Sound.scanBuffer (h : store.Sound) :
    store.scanBuffer path buffer = .ok (store.shown buffer [] path.segments) := by
  have hstored : ∀ event ∈ store.shown buffer [] path.segments, store.events.lookup event.id = some event := by
    intro event hm
    obtain ⟨-, -, inner, segment, outer, -, ⟨landedAt, ha⟩, -⟩ := (mem_shown h).1 hm
    exact lookup_of_mem_contents h (recordAt_mem (Timeline.latest_eq_some_iff.1 ha).2.1).1
  unfold MemoryStorage.scanBuffer
  rw [h.scanFrom, mapM_event]
  · rw [List.filterMap_map]
    refine congrArg Except.ok ?_
    conv_rhs => rw [← List.filterMap_some (l := store.shown buffer [] path.segments)]
    exact List.filterMap_congr hstored
  · intro id hid
    obtain ⟨event, hm, rfl⟩ := List.mem_map.1 hid
    rw [hstored event hm]
    rfl

/-! ### What there is to see -/

/-- A record of a buffer that a read finds, at one of the versions its cell is materialized at. -/
def Visible (store : MemoryStorage) (path : ReadPath) (buffer : BufferId) (event : Event) : Prop :=
  ∃ cell version, cell.buffer = buffer ∧ version ∈ store.cellVersions path cell ∧
    ∃ landedAt, store.getCell path cell version = .ok (some ⟨event, landedAt⟩)

theorem firstOf_eq_some_iff {segments : List (BranchId × LayerId)} {found : LayerId × Event} :
    Timeline.firstOf (store.answer cell version) segments = some found ↔
      ∃ inner segment outer, segments = inner ++ segment :: outer ∧
        store.answer cell version segment = some found ∧ ∀ nearer ∈ inner, ¬ store.Holds nearer cell version := by
  have hfind : Timeline.firstOf (store.answer cell version) segments =
      segments.findSome? (store.answer cell version) := by
    induction segments with
    | nil => rfl
    | cons segment outer ih =>
      rw [Timeline.firstOf, List.findSome?_cons, ih]
      cases store.answer cell version segment <;> rfl
  rw [hfind, List.findSome?_eq_some_iff]
  simp only [answer_eq_none_iff]

/-- A read finds what the first segment that holds the record answers. -/
theorem Sound.getCell_eq_some (h : store.Sound) {landedAt : LayerId} :
    store.getCell path cell version = .ok (some ⟨event, landedAt⟩) ↔
      ∃ inner segment outer, path.segments = inner ++ segment :: outer ∧
        store.answer cell version segment = some (landedAt, event) ∧
        ∀ nearer ∈ inner, ¬ store.Holds nearer cell version := by
  rw [← firstOf_eq_some_iff, h.getCell]
  show Except.ok ((Timeline.firstOf (store.answer cell version) path.segments).map _) = _ ↔ _
  cases Timeline.firstOf (store.answer cell version) path.segments with
  | none => simp
  | some found =>
    obtain ⟨at', found⟩ := found
    simp only [Option.map_some, Except.ok.injEq, Option.some.injEq, Landed.mk.injEq, Prod.mk.injEq]
    exact and_comm

theorem visible_iff (h : store.Sound) : store.Visible path buffer event ↔ event.cell.buffer = buffer ∧
    ∃ inner segment outer, path.segments = inner ++ segment :: outer ∧
      (∃ landedAt, store.answer event.cell event.version segment = some (landedAt, event)) ∧
      ∀ nearer ∈ inner, ¬ store.Holds nearer event.cell event.version := by
  unfold Visible
  simp only [h.getCell_eq_some]
  constructor
  · rintro ⟨cell, version, hb, -, landedAt, inner, segment, outer, hpath, ha, hinner⟩
    obtain ⟨rfl, rfl⟩ := answer_at ha
    exact ⟨hb, inner, segment, outer, hpath, ⟨landedAt, ha⟩, hinner⟩
  · rintro ⟨hb, inner, segment, outer, hpath, ⟨landedAt, ha⟩, hinner⟩
    refine ⟨event.cell, event.version, hb, h.mem_cellVersions.2 ⟨segment, ?_, by_contra fun hno => ?_⟩,
      landedAt, inner, segment, outer, hpath, ha, hinner⟩
    · rw [hpath]
      exact List.mem_append_right _ (List.mem_cons_self ..)
    · rw [answer_eq_none_iff.2 hno] at ha
      cases ha

/-- A scan shows, once each, the records a read finds and nothing else. -/
def ScansExactly (store : MemoryStorage) (path : ReadPath) (buffer : BufferId) : Prop :=
  ∃ events, store.scanBuffer path buffer = .ok events ∧ (events.map Event.at).Nodup ∧
    ∀ event, event ∈ events ↔ store.Visible path buffer event

/-- A record of a buffer's cell that stands on a segment, its def-version on no nearer one, behind another
def-version of the cell on a nearer segment. -/
def Veiled (store : MemoryStorage) (path : ReadPath) (buffer : BufferId) : Prop :=
  ∃ cell version, cell.buffer = buffer ∧ ∃ inner segment outer, path.segments = inner ++ segment :: outer ∧
    store.Holds segment cell version ∧ (∀ nearer ∈ inner, ¬ store.Holds nearer cell version) ∧
      ∃ nearer ∈ inner, ∃ other, store.Holds nearer cell other

/-- **When a scan shows exactly what reads find**: where no cell of the buffer is materialized at one
def-version on a segment of the path and, nearer, at others only. -/
theorem scansExactly_iff (h : store.Reachable) (path : ReadPath) (buffer : BufferId) :
    store.ScansExactly path buffer ↔ ¬ store.Veiled path buffer := by
  have hsound := h.sound
  constructor
  · rintro ⟨events, hscan, -, hexact⟩ ⟨cell, version, hb, inner, segment, outer, hpath, hholds, hinner, hveil⟩
    rw [hsound.scanBuffer] at hscan
    cases hscan
    cases ha : store.answer cell version segment with
    | none => exact answer_eq_none_iff.1 ha hholds
    | some found =>
      obtain ⟨landedAt, event⟩ := found
      obtain ⟨rfl, rfl⟩ := answer_at ha
      have hvisible := (visible_iff hsound).2 ⟨hb, inner, segment, outer, hpath, ⟨landedAt, ha⟩, hinner⟩
      obtain ⟨-, -, inner', segment', outer', hpath', ⟨landedAt', ha'⟩, hinner'⟩ :=
        (mem_shown hsound).1 ((hexact event).2 hvisible)
      obtain ⟨nearer, hn, other, hother⟩ := hveil
      -- The segment the scan takes the record from is no nearer than the one a read does.
      obtain ⟨between, rfl, -⟩ | ⟨between, rfl, hrest⟩ := List.append_eq_append_iff.1 (hpath.symm.trans hpath')
      · exact hinner' nearer (List.mem_append_left _ hn) other hother
      · cases between with
        | nil =>
          rw [List.append_nil] at hn
          exact hinner' nearer hn other hother
        | cons taken between =>
          cases hrest
          have hnone := answer_eq_none_iff.2
            (hinner segment' (List.mem_append_right _ (List.mem_cons_self ..)))
          rw [hnone] at ha'
          cases ha'
  · intro hclear
    refine ⟨_, hsound.scanBuffer, shown_nodup hsound .., fun event => ?_⟩
    rw [mem_shown hsound, visible_iff hsound]
    constructor
    · rintro ⟨hb, -, inner, segment, outer, hpath, ha, hinner⟩
      exact ⟨hb, inner, segment, outer, hpath, ha, fun nearer hn => hinner nearer hn _⟩
    · rintro ⟨hb, inner, segment, outer, hpath, ha, hinner⟩
      refine ⟨hb, List.not_mem_nil, inner, segment, outer, hpath, ha, fun nearer hn other hother => ?_⟩
      refine hclear ⟨event.cell, event.version, hb, inner, segment, outer, hpath, by_contra fun hno => ?_,
        hinner, nearer, hn, other, hother⟩
      obtain ⟨landedAt, ha⟩ := ha
      rw [answer_eq_none_iff.2 hno] at ha
      cases ha

/-! ### A migration on a fork -/

namespace Forked

def company : Pid := .allocated .object 1 0 7

/-- A field written on a branch at one def-version, and on a fork of it at the next. -/
def calls : List StoreCall :=
  [.openLayer 1 1, .authorEvent 1 (.prop "Company" "name" company) ⟨.int 1, 1, .source, none⟩, .sealLayer 1,
    .commitLayer 1,
    .openLayer 2 3, .authorEvent 3 (.prop "Company" "name" company) ⟨.int 2, 2, .source, none⟩, .sealLayer 3,
    .commitLayer 3]

def migrated : MemoryStorage := calls.foldl call .new

theorem reachable : Reachable migrated := by
  unfold migrated calls
  simp only [List.foldl_cons, List.foldl_nil]
  iterate 8 refine .call ?_ trivial
  exact .new

end Forked

/-- The parent's record is what a read at its version finds, and the scan does not show it. -/
theorem scanBuffer_hides_ancestor_version :
    ¬ ∀ (store : MemoryStorage), Reachable store → ∀ (path : ReadPath) (buffer : BufferId),
      store.ScansExactly path buffer := by
  intro h
  obtain ⟨events, hscan, -, hexact⟩ :=
    h Forked.migrated Forked.reachable ⟨[(2, 3), (1, 1)]⟩ (.objectProp "Company" "name")
  have hshown : (Forked.migrated.scanBuffer ⟨[(2, 3), (1, 1)]⟩ (.objectProp "Company" "name")).toOption.map
      (List.map Event.version) = some [2] := by decide +kernel
  have hread : Forked.migrated.getCell ⟨[(2, 3), (1, 1)]⟩ (.prop "Company" "name" Forked.company) 1 =
      .ok (some ⟨⟨1, .prop "Company" "name" Forked.company, .int 1, 1, .source, none, 1⟩, 1⟩) := by rfl
  have hversions : 1 ∈ Forked.migrated.cellVersions ⟨[(2, 3), (1, 1)]⟩ (.prop "Company" "name" Forked.company) := by
    decide +kernel
  have hin := (hexact _).2 ⟨_, _, rfl, hversions, 1, hread⟩
  rw [hscan] at hshown
  have hmem : (1 : DefVersion) ∈ events.map Event.version := List.mem_map.2 ⟨_, hin, rfl⟩
  rw [Option.some.inj hshown] at hmem
  revert hmem
  decide

namespace Forked

def supplier : Pid := .allocated .object 1 0 8

/-- A branch writes two names, and its fork one of them again at the same def-version. -/
def changes : List StoreCall :=
  [.openLayer 1 1, .authorEvent 1 (.prop "Company" "name" company) ⟨.int 1, 1, .source, none⟩,
    .authorEvent 1 (.prop "Company" "name" supplier) ⟨.int 2, 1, .source, none⟩, .sealLayer 1, .commitLayer 1,
    .openLayer 2 3, .authorEvent 3 (.prop "Company" "name" company) ⟨.int 3, 1, .source, none⟩, .sealLayer 3,
    .commitLayer 3]

def renamed : MemoryStorage := changes.foldl call .new

theorem renamed_reachable : Reachable renamed := by
  unfold renamed changes
  simp only [List.foldl_cons, List.foldl_nil]
  iterate 9 refine .call ?_ trivial
  exact .new

theorem version_of_holds {segment : BranchId × LayerId} {cell : CellRef} {version : DefVersion}
    (h : renamed.Holds segment cell version) : version = 1 := by
  obtain ⟨layer, -, hr⟩ := h
  obtain ⟨event, hr⟩ := Option.isSome_iff_exists.1 hr
  obtain ⟨hm, hat⟩ := recordAt_mem hr
  have hall : ∀ event ∈ renamed.events.values, event.version = 1 := by decide +kernel
  obtain ⟨id, -, he⟩ := List.mem_filterMap.1 hm
  rw [← hall event (AssocMap.mem_values.2 ⟨id, he⟩)]
  exact (congrArg CellAt.version hat).symm

end Forked

/-- Along the fork's path one name is shadowed at its own def-version, and a scan shows what reads find. -/
theorem scansExactly_fork : Forked.renamed.ScansExactly ⟨[(2, 3), (1, 1)]⟩ (.objectProp "Company" "name") := by
  refine (scansExactly_iff Forked.renamed_reachable _ _).2 ?_
  rintro ⟨cell, version, -, inner, segment, outer, -, hholds, hinner, nearer, hn, other, hother⟩
  have hversion := Forked.version_of_holds hholds
  have hother' := Forked.version_of_holds hother
  subst hversion hother'
  exact hinner nearer hn hother

/-- Two rows, the fork's and the one of the other object. -/
example : (Forked.renamed.scanBuffer ⟨[(2, 3), (1, 1)]⟩ (.objectProp "Company" "name")).toOption.map
    (List.map Event.value) = some [.int 3, .int 2] := by decide +kernel

end MemoryStorage

end BorgCore
