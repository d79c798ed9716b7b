import BorgCore.Engine.Guards

/-!
# Landing a round

A round is many computations on one snapshot, and its merge decides about each of them: the ones
whose guards held are carried over, grouped by author, and the others are dropped with everything that
consumed their output.
-/

namespace BorgCore

/-- A round drops what its rejected layers lead to, through the cells one wrote and another read. -/
theorem Round.mem_cascade {round : Round} {failed : List LayerId} {layer : LayerId} :
    layer ∈ round.cascade failed ↔ ∃ other ∈ failed, Worklist.Leads round.consumers other layer := by
  have hlength : round.layers.length = round.invocations.keys.length := List.length_insertionSort _ _
  have hnext (a b : LayerId) (hb : b ∈ round.consumers a) : b ∈ round.layers := by
    obtain ⟨write, _, hread⟩ := List.mem_flatMap.1 hb
    exact List.mem_of_mem_filter hread
  refine Worklist.mem_close hnext ?_ (fun a ha => ?_) fun a ha => Or.inl (List.mem_reverse.2 ha)
  · rw [List.length_reverse, ← hlength]
    exact Nat.add_le_add_left (List.length_filter_le _ _) _
  · exact List.mem_reverse.1 ha

namespace Round

variable {round : Round} {reader writer : LayerId}

/-- A layer of the round that read a cell, at any version, which another wrote. -/
def Consumes (round : Round) (reader writer : LayerId) : Prop :=
  reader ∈ round.layers ∧ ∃ read ∈ (round.accesses reader).reads,
    ∃ write ∈ (round.accesses writer).writes, read.cell = write.cell

/-- A layer of the round that read a record, at its version, which another one wrote. -/
def ConsumesAt (round : Round) (reader writer : LayerId) : Prop :=
  reader ∈ round.layers ∧ writer ∈ round.layers ∧
    ∃ record ∈ (round.accesses writer).writes, record ∈ (round.accesses reader).reads

theorem ConsumesAt.consumes (h : round.ConsumesAt reader writer) : round.Consumes reader writer := by
  obtain ⟨hin, _, record, hwrite, hread⟩ := h
  exact ⟨hin, record, hread, record, hwrite, rfl⟩

theorem mem_consumers : reader ∈ round.consumers writer ↔ round.Consumes reader writer := by
  unfold consumers readersOf Consumes
  simp only [List.mem_flatMap, List.mem_filter, List.any_eq_true, decide_eq_true_eq]
  constructor
  · rintro ⟨write, hwrite, hlayer, read, hread, hcell⟩
    exact ⟨hlayer, read, hread, write, hwrite, hcell⟩
  · rintro ⟨hlayer, read, hread, write, hwrite, hcell⟩
    exact ⟨write, hwrite, hlayer, read, hread, hcell⟩

theorem leads_iff : Worklist.Leads round.consumers writer reader ↔
    Relation.ReflTransGen round.Consumes reader writer := by
  have hsame : (fun a b => b ∈ round.consumers a) = Function.swap round.Consumes := by
    funext a b
    exact propext mem_consumers
  rw [Worklist.Leads, hsame, Relation.reflTransGen_swap]

theorem mem_layers_ran {layer ran : LayerId} {reads writes : List CellAt} :
    layer ∈ (round.ran ran reads writes).layers ↔ layer = ran ∨ layer ∈ round.layers := by
  simp only [layers, Round.ran, List.mem_insertionSort, AssocMap.mem_keys_iff, AssocMap.lookup_insert_eq]
  by_cases h : layer = ran
  · simp [h]
  · simp [h]

theorem mem_produced {record : CellAt} : record ∈ round.produced ↔
    ∃ writer ∈ round.layers, record ∈ (round.accesses writer).writes := by
  unfold produced layers accesses
  simp only [List.mem_flatMap, AssocMap.mem_values, List.mem_insertionSort, AssocMap.mem_keys_iff, AssocMap.getD]
  constructor
  · rintro ⟨accesses, ⟨writer, hl⟩, hw⟩
    exact ⟨writer, ⟨accesses, hl⟩, by rw [hl]; exact hw⟩
  · rintro ⟨writer, ⟨accesses, hl⟩, hw⟩
    rw [hl] at hw
    exact ⟨accesses, ⟨writer, hl⟩, hw⟩

end Round

/-- The commit a group of layers becomes. -/
def Commit.grouped (parent : BranchId) (author : LayerAuthor) (events : List Event) : Commit :=
  ⟨parent, .value, author, [], events, []⟩

namespace Log

variable {log log' : Log} {parent : BranchId} {round : Round} {layer : LayerId}

/-! ### What a layer holds -/

theorem Sound.contents_eq (h : log.Sound) (id : LayerId) :
    log.storage.contents id = ((log.commitAt id).map Commit.events).getD [] := by
  cases hc : log.commitAt id with
  | some commit =>
    obtain ⟨_, _, _, _, _, _, _, he, _⟩ := commitAt_eq_some hc
    rw [← he]
    rfl
  | none =>
    refine List.eq_nil_iff_forall_not_mem.2 fun event hm => ?_
    unfold MemoryStorage.contents MemoryStorage.readMembership at hm
    cases hl : log.storage.members.lookup id with
    | none => simp [hl] at hm
    | some membership =>
      obtain ⟨commit, hc', _⟩ := (h.projected.members_iff id membership.branch).1 ⟨membership, hl, rfl⟩
      rw [hc] at hc'
      cases hc'

theorem Sound.mem_contents (h : log.Sound) {id : LayerId} {event : Event} :
    event ∈ log.storage.contents id ↔ ∃ commit, log.commitAt id = some commit ∧ event ∈ commit.events := by
  rw [h.contents_eq]
  cases log.commitAt id <;> simp

/-! ### Grouping -/

theorem join_carries (author : LayerAuthor) (layer : LayerId) (groups : List (LayerAuthor × List LayerId)) :
    ((groupByAuthor.join author layer groups).flatMap Prod.snd).Perm
      (groups.flatMap Prod.snd ++ [layer]) := by
  induction groups with
  | nil => simp [groupByAuthor.join]
  | cons group rest ih =>
    obtain ⟨seen, carried⟩ := group
    rw [groupByAuthor.join]
    split
    · simp only [List.flatMap_cons, List.append_assoc]
      exact (List.perm_append_comm).append_left _
    · simp only [List.flatMap_cons, List.append_assoc]
      exact ih.append_left _

theorem groupByAuthor_carries (layers : List (LayerAuthor × LayerId))
    (groups : List (LayerAuthor × List LayerId)) :
    ((groupByAuthor layers groups).flatMap Prod.snd).Perm
      (groups.flatMap Prod.snd ++ layers.map Prod.snd) := by
  induction layers generalizing groups with
  | nil => simp [groupByAuthor]
  | cons head rest ih =>
    obtain ⟨author, layer⟩ := head
    rw [groupByAuthor, List.map_cons, ← List.singleton_append, ← List.append_assoc]
    exact (ih _).trans ((join_carries author layer groups).append_right _)

/-- The groups a merge carries across, in the order their authors are first met. -/
def groupsOf (log : Log) (layers : List LayerId) : List (LayerAuthor × List LayerId) :=
  groupByAuthor (layers.map fun layer => ((log.authorOf layer).getD .source, layer)) []

theorem mem_groupsOf {layers : List LayerId} {id : LayerId} :
    id ∈ (log.groupsOf layers).flatMap Prod.snd ↔ id ∈ layers := by
  have hperm := groupByAuthor_carries
    (layers.map fun layer => ((log.authorOf layer).getD .source, layer)) []
  rw [groupsOf, hperm.mem_iff]
  simp

/-- The commit one group becomes, if it holds anything. -/
def groupCommit (log : Log) (parent : BranchId) (group : LayerAuthor × List LayerId) : Option Commit :=
  let events := group.2.flatMap log.storage.contents
  if events = [] then none else some (.grouped parent group.1 events)

/-! ### Landing a group -/

theorem Grows.contents (hg : Grows log log') (h : log.Sound) (h' : log'.Sound) {id : LayerId}
    (hc : (log.commitAt id).isSome) : log'.storage.contents id = log.storage.contents id := by
  obtain ⟨commit, hc⟩ := Option.isSome_iff_exists.1 hc
  rw [h.contents_eq, h'.contents_eq, hc, hg.commits hc]

theorem landGroup_run (h : log.Sound) (hp : (log.branches.lookup parent).isSome)
    (group : LayerAuthor × List LayerId) :
    ∃ landed log', landGroup parent group.1 group.2 log = .ok (landed.head?.map Prod.fst) log' ∧
      Lands log landed log' ∧ landed.map Prod.snd = (log.groupCommit parent group).toList := by
  obtain ⟨author, carried⟩ := group
  obtain ⟨handle, log₁, hopen, hw₁⟩ := Writing.openLayer h hp .value author
  have hcontents (id : LayerId) : log₁.storage.contents id = log.storage.contents id := by
    rw [h.contents_eq, hw₁.sound.contents_eq, hw₁.commitAt]
  have hmembers : carried.flatMap log₁.storage.readMembership =
      (carried.flatMap log.storage.contents).map Event.id := by
    rw [List.map_flatMap]
    refine List.flatMap_congr fun id _ => ?_
    rw [hw₁.sound.storage.readMembership_eq, hcontents]
  obtain ⟨log₂, hinclude, hw₂⟩ := hw₁.includeAll (carried.flatMap log.storage.contents) fun event hm => by
    obtain ⟨id, _, hm⟩ := List.mem_flatMap.1 hm
    obtain ⟨commit, hc⟩ := h.mem_contents.1 hm
    exact ⟨id, commit, hc⟩
  rw [landGroup, Calls.bind_ok hopen, Calls.bind_ok Calls.get_run]
  simp only [hmembers]
  rw [Calls.bind_ok hinclude]
  by_cases hempty : carried.flatMap log.storage.contents = []
  · obtain ⟨log₃, habort, hl⟩ := hw₂.aborts
    refine ⟨[], log₃, ?_, hl, by simp [groupCommit, hempty]⟩
    simp only [hempty, List.map_nil, List.isEmpty_nil, if_true]
    rw [Calls.bind_ok habort]
    rfl
  · obtain ⟨log₃, hcommit, hl⟩ := hw₂.lands
    refine ⟨_, log₃, ?_, hl, by simp [groupCommit, hempty, Commit.grouped]⟩
    have hne : ((carried.flatMap log.storage.contents).map Event.id).isEmpty = false := by
      simpa using hempty
    simp only [hne, Bool.false_eq_true, if_false]
    rw [Calls.bind_ok hcommit]
    rfl

theorem landGroups_run (h : log.Sound) (hp : (log.branches.lookup parent).isSome)
    {groups : List (LayerAuthor × List LayerId)}
    (hc : ∀ group ∈ groups, ∀ id ∈ group.2, (log.commitAt id).isSome) :
    ∃ landed log', landGroups parent groups log = .ok (landed.map Prod.fst) log' ∧
      Lands log landed log' ∧ landed.map Prod.snd = groups.filterMap (log.groupCommit parent) := by
  induction groups generalizing log with
  | nil => exact ⟨[], log, rfl, .refl h, rfl⟩
  | cons group rest ih =>
    obtain ⟨landed, log₁, hrun, hl₁, hmap⟩ := landGroup_run h hp group
    have hkept {id : LayerId} (hid : (log.commitAt id).isSome) : (log₁.commitAt id).isSome := by
      obtain ⟨commit, hid⟩ := Option.isSome_iff_exists.1 hid
      rw [hl₁.grows.commits hid]
      rfl
    obtain ⟨landed', log₂, hrest, hl₂, hmap'⟩ := ih hl₁.sound (hl₁.grows.registered hp)
      fun g hg id hid => hkept (hc g (List.mem_cons_of_mem _ hg) id hid)
    refine ⟨landed ++ landed', log₂, ?_, hl₁.trans hl₂, ?_⟩
    · rw [landGroups, Calls.bind_ok hrun, Calls.bind_ok hrest, List.map_append]
      have hone : landed.length ≤ 1 := by
        have := congrArg List.length hmap
        rw [List.length_map] at this
        rw [this]
        cases log.groupCommit parent group <;> simp
      have hhead : (landed.head?.map Prod.fst).toList = landed.map Prod.fst := by
        match landed, hone with
        | [], _ => rfl
        | [_], _ => rfl
      rw [hhead]
      rfl
    · have hsame : rest.filterMap (log₁.groupCommit parent) = rest.filterMap (log.groupCommit parent) := by
        refine List.filterMap_congr fun g hg => ?_
        have hevents : g.2.flatMap log₁.storage.contents = g.2.flatMap log.storage.contents :=
          List.flatMap_congr fun id hid =>
            hl₁.grows.contents h hl₁.sound (hc g (List.mem_cons_of_mem _ hg) id hid)
        simp only [groupCommit, hevents]
      rw [List.map_append, hmap, hmap', hsame, List.filterMap_cons]
      cases log.groupCommit parent group <;> rfl

/-! ### What a merge rejects -/

/-- An invocation whose guard fails: it read a record the round did not produce, of a cell a client
has touched since. -/
def Blocked (log : Log) (round : Round) (layer : LayerId) : Prop :=
  ∃ read ∈ (round.accesses layer).reads, read ∉ round.produced ∧
    log.MovedAlong round.parent round.forkPoint read.cell

def RemovedSince (log : Log) (branch : BranchId) (since : LayerId) (existence : CellRef) : Prop :=
  ∃ id commit, log.commitAt id = some commit ∧ commit.branch = branch ∧ since < id ∧
    commit.author.isSource ∧ ∃ event ∈ commit.events, event.value.isTombstone ∧
      event.cell.existenceOf = event.cell ∧ event.cell = existence

/-- An invocation that wrote to an object a client has removed since. -/
def Orphaned (log : Log) (round : Round) (layer : LayerId) : Prop :=
  ∃ event ∈ log.storage.contents layer,
    log.RemovedSince round.parent round.forkPoint event.cell.existenceOf

theorem Sound.mem_failedGuards (h : log.Sound) :
    layer ∈ (log.failedGuards round).map Prod.fst ↔
      log.touchedSince round.parent round.forkPoint ∧ layer ∈ round.layers ∧ log.Blocked round layer := by
  unfold failedGuards
  cases log.touchedSince round.parent round.forkPoint with
  | false => simp
  | true =>
    have hblocked (other : LayerId) : log.Blocked round other ↔
        log.checkReads round.parent (round.guardsOf other) round.forkPoint ≠ .ok () := by
      rw [ne_eq, h.checkReads_ok]
      simp only [Blocked, Round.guardsOf, List.mem_map, List.mem_filter, decide_eq_true_eq]
      simp only [not_forall, not_not, exists_prop]
      constructor
      · rintro ⟨read, hm, hp, hmoved⟩
        exact ⟨read.cell, ⟨read, ⟨hm, hp⟩, rfl⟩, hmoved⟩
      · rintro ⟨_, ⟨read, ⟨hm, hp⟩, rfl⟩, hmoved⟩
        exact ⟨read, hm, hp, hmoved⟩
    simp only [if_true, true_and, List.mem_map, List.mem_filterMap, Round.guards, hblocked]
    constructor
    · rintro ⟨⟨other, cell⟩, ⟨_, ⟨found, hf, rfl⟩, hr⟩, rfl⟩
      simp only at hr
      split at hr
      · rename_i hc
        cases hr
        exact ⟨hf, by rw [hc]; nofun⟩
      · cases hr
    · rintro ⟨hl, hc⟩
      obtain ⟨cell, mutatedAt, he⟩ := checkReads_error hc
      exact ⟨(layer, cell), ⟨_, ⟨layer, hl, rfl⟩, by simp only [he]⟩, rfl⟩

theorem Sound.deletedSince_ok (h : log.Sound) (parent : BranchId) (since : LayerId) :
    ∃ deleted, log.deletedSince parent since = .ok deleted ∧
      ∀ cell, cell ∈ deleted ↔ log.RemovedSince parent since cell := by
  have hread (layers : List Layer) : (layers.mapM fun layer => log.storage.readLayer layer.id) =
      .ok (layers.map fun layer => log.storage.contents layer.id) := by
    induction layers with
    | nil => rfl
    | cons layer rest ih =>
      rw [List.mapM_cons, h.storage.readLayer, ih]
      rfl
  unfold deletedSince
  simp only [hread, bind, Except.bind, pure, Except.pure]
  refine ⟨_, rfl, fun cell => ?_⟩
  simp only [List.mem_map, List.mem_filter, List.mem_flatten, decide_eq_true_eq, h.mem_layersOf]
  constructor
  · rintro ⟨event, ⟨⟨_, ⟨found, ⟨⟨hl, hb, hs⟩, hlt, ha⟩, rfl⟩, hm⟩, ht, he⟩, rfl⟩
    exact ⟨found.id, _, commitAt_of_committed hl hs, hb, hlt, ha, event, hm, ht, he, rfl⟩
  · rintro ⟨id, commit, hc, hb, hlt, ha, event, hm, ht, he, rfl⟩
    obtain ⟨found, hl, hs, hbr, _, hau, _, hcontents, _⟩ := commitAt_eq_some hc
    obtain ⟨rfl, _⟩ := h.layer_id hl
    exact ⟨event, ⟨⟨_, ⟨found, ⟨⟨hl, hbr ▸ hb, hs⟩, hlt, hau ▸ ha⟩, rfl⟩, hcontents ▸ hm⟩, ht, he⟩, rfl⟩

theorem Sound.danglingLayers_ok (h : log.Sound) (deleted : List CellRef) (failed layers : List LayerId) :
    ∃ dangling, log.danglingLayers deleted failed layers = .ok dangling ∧
      ∀ layer, layer ∈ dangling.map Prod.fst ↔ layer ∈ layers ∧ layer ∉ failed ∧
        ∃ event ∈ log.storage.contents layer, event.cell.existenceOf ∈ deleted := by
  induction layers with
  | nil => exact ⟨[], rfl, by simp⟩
  | cons head rest ih =>
    obtain ⟨others, hothers, hmem⟩ := ih
    have hdeleted : log.deletedIn deleted head =
        .ok (((log.storage.contents head).map fun event => event.cell.existenceOf).find? (· ∈ deleted)) := by
      simp only [deletedIn, h.storage.readLayer, bind, Except.bind, pure, Except.pure]
    rw [danglingLayers, hothers]
    simp only [bind, Except.bind, pure, Except.pure, hdeleted]
    by_cases hf : head ∈ failed
    · refine ⟨others, by simp [hf], fun layer => ?_⟩
      rw [hmem, List.mem_cons]
      constructor
      · rintro ⟨hl, hrest⟩
        exact ⟨Or.inr hl, hrest⟩
      · rintro ⟨rfl | hl, hn, hrest⟩
        · exact absurd hf hn
        · exact ⟨hl, hn, hrest⟩
    · simp only [hf, if_false]
      cases hfind : ((log.storage.contents head).map fun event =>
          event.cell.existenceOf).find? (· ∈ deleted) with
      | none =>
        refine ⟨others, rfl, fun layer => ?_⟩
        rw [hmem, List.mem_cons]
        constructor
        · rintro ⟨hl, hrest⟩
          exact ⟨Or.inr hl, hrest⟩
        · rintro ⟨rfl | hl, hn, event, hm, he⟩
          · have := List.find?_eq_none.1 hfind _ (List.mem_map_of_mem hm)
            exact absurd he (by simpa using this)
          · exact ⟨hl, hn, event, hm, he⟩
      | some cell =>
        refine ⟨(head, cell) :: others, rfl, fun layer => ?_⟩
        rw [List.map_cons, List.mem_cons, hmem, List.mem_cons]
        constructor
        · rintro (rfl | ⟨hl, hrest⟩)
          · obtain ⟨event, hm, rfl⟩ := List.mem_map.1 (List.mem_of_find?_eq_some hfind)
            have hin := List.find?_some hfind
            exact ⟨Or.inl rfl, hf, event, hm, by simpa using hin⟩
          · exact ⟨Or.inr hl, hrest⟩
        · rintro ⟨rfl | hl, hrest⟩
          · exact Or.inl rfl
          · exact Or.inr ⟨hl, hrest⟩

/-- **What a merge rejects outright**: failed guards, where anything has moved at all, and writes to
removed objects. -/
theorem Sound.rejectedBy_ok (h : log.Sound) (round : Round) :
    ∃ rejected, log.rejectedBy round = .ok rejected ∧
      ∀ layer, layer ∈ rejected.map Prod.fst ↔ layer ∈ round.layers ∧
        (log.touchedSince round.parent round.forkPoint ∧ log.Blocked round layer ∨
          log.Orphaned round layer) := by
  obtain ⟨deleted, hdeleted, hremoved⟩ := h.deletedSince_ok round.parent round.forkPoint
  obtain ⟨dangling, hdangling, hmem⟩ :=
    h.danglingLayers_ok deleted ((log.failedGuards round).map Prod.fst) round.layers
  have horphaned (layer : LayerId) : log.Orphaned round layer ↔
      ∃ event ∈ log.storage.contents layer, event.cell.existenceOf ∈ deleted := by
    simp only [Orphaned, hremoved]
  unfold rejectedBy
  simp only [hdeleted, hdangling, bind, Except.bind, pure, Except.pure]
  cases hempty : deleted.isEmpty with
  | true =>
    refine ⟨_, rfl, fun layer => ?_⟩
    have hnone : ¬ log.Orphaned round layer := by
      rw [horphaned, List.isEmpty_iff.1 hempty]
      simp
    rw [h.mem_failedGuards]
    simp only [hnone, or_false]
    exact ⟨fun ⟨ht, hl, hb⟩ => ⟨hl, ht, hb⟩, fun ⟨hl, ht, hb⟩ => ⟨ht, hl, hb⟩⟩
  | false =>
    refine ⟨_, rfl, fun layer => ?_⟩
    rw [List.map_append, List.mem_append, hmem, ← horphaned, h.mem_failedGuards]
    tauto

/-- **What a merge applies**: the layers that no rejected one leads to. -/
theorem Sound.appliedBy_ok (h : log.Sound) (round : Round) :
    ∃ rejected applied, log.rejectedBy round = .ok rejected ∧
      log.droppedBy round = .ok (round.cascade ((rejected.map Prod.fst).insertionSort (· ≤ ·))) ∧
      log.appliedBy round = .ok applied ∧
      ∀ layer, layer ∈ applied ↔ layer ∈ round.layers ∧ ¬ ∃ other ∈ round.layers,
        (log.touchedSince round.parent round.forkPoint ∧ log.Blocked round other ∨
          log.Orphaned round other) ∧ Worklist.Leads round.consumers other layer := by
  obtain ⟨rejected, hrejected, hmem⟩ := h.rejectedBy_ok round
  have hdropped : log.droppedBy round =
      .ok (round.cascade ((rejected.map Prod.fst).insertionSort (· ≤ ·))) := by
    simp only [droppedBy, hrejected, bind, Except.bind, pure, Except.pure]
  let dropped := round.cascade ((rejected.map Prod.fst).insertionSort (· ≤ ·))
  refine ⟨rejected, round.layers.filter (· ∉ dropped), hrejected, hdropped, ?_, fun layer => ?_⟩
  · simp only [appliedBy, hdropped, bind, Except.bind, pure, Except.pure, dropped]
  · simp only [dropped, List.mem_filter, decide_eq_true_eq, Round.mem_cascade,
      List.mem_insertionSort, hmem, and_assoc]

/-- What a round's merge did: it applied these layers of the round, and landed them as these. -/
structure Merged (log : Log) (round : Round) (applied : List LayerId)
    (landed : List (LayerId × Commit)) (log' : Log) : Prop where
  decided : log.appliedBy round = .ok applied
  lands : Lands log landed log'
  carried : landed.map Prod.snd =
    (log.groupsOf applied).filterMap (log.groupCommit round.parent)

/-- **A round's merge never fails**: what it does not drop, it lands. -/
theorem mergeRound_run (h : log.Sound) (hp : (log.branches.lookup round.parent).isSome)
    (hc : ∀ layer ∈ round.layers, (log.commitAt layer).isSome) :
    ∃ outcome applied landed log', mergeRound round log = .ok outcome log' ∧
      outcome.applied = applied.length ∧ outcome.landed = landed.map Prod.fst ∧
      log.Merged round applied landed log' := by
  obtain ⟨rejected, applied, hrejected, hdropped, happlied, hmem⟩ := h.appliedBy_ok round
  have hin (layer : LayerId) (hl : layer ∈ applied) : layer ∈ round.layers := ((hmem layer).1 hl).1
  by_cases hempty : round.isEmpty = true
  · have hnil : applied = [] := by
      refine List.eq_nil_iff_forall_not_mem.2 fun layer hl => ?_
      have hin := hin layer hl
      rw [Round.layers, List.mem_insertionSort, List.isEmpty_iff.1 hempty] at hin
      cases hin
    subst hnil
    refine ⟨.empty, [], [], log, ?_, rfl, rfl, happlied, .refl h, rfl⟩
    rw [mergeRound, if_pos hempty]
    rfl
  · have hgroups : ∀ group ∈ log.groupsOf applied, ∀ id ∈ group.2, (log.commitAt id).isSome :=
      fun group hg id hid => hc id (hin id (mem_groupsOf.1 (List.mem_flatMap.2 ⟨group, hg, hid⟩)))
    obtain ⟨landed, log', hrun, hl, hmap⟩ := landGroups_run h hp hgroups
    have hask {α : Type} {question : Log → Except BorgError α} {a : α} (hq : question log = .ok a) :
        ask question log = .ok a log := by
      simp only [ask, hq]
    let dropped := round.cascade ((rejected.map Prod.fst).insertionSort (· ≤ ·))
    refine ⟨⟨0, landed.map Prod.fst, applied.length, rejected, dropped.length - rejected.length⟩,
      applied, landed, log', ?_, rfl, rfl, happlied, hl, hmap⟩
    rw [mergeRound, if_neg hempty]
    rw [Calls.bind_ok (hask hrejected), Calls.bind_ok (hask hdropped), Calls.bind_ok (hask happlied),
      Calls.bind_ok Calls.get_run]
    have hrun' := hrun
    unfold groupsOf at hrun'
    rw [Calls.bind_ok hrun']
    rfl

/-! ### Fresher writes -/

/-- An invocation that read a cell, at whatever version, that a client has written since. -/
def Overtaken (log : Log) (round : Round) (layer : LayerId) : Prop :=
  ∃ read ∈ (round.accesses layer).reads, log.MovedOn round.parent round.forkPoint read.cell

/-- An invocation that read a record which a client has written since, and which none of the round wrote. -/
def Exposed (log : Log) (round : Round) (layer : LayerId) : Prop :=
  ∃ read ∈ (round.accesses layer).reads, log.MovedAlong round.parent round.forkPoint read.cell ∧
    ∀ writer ∈ round.layers, read ∉ (round.accesses writer).writes

theorem blocked_iff : log.Blocked round layer ↔ log.Exposed round layer := by
  unfold Blocked Exposed
  simp only [Round.mem_produced, not_exists, not_and]
  exact exists_congr fun read => and_congr_right fun _ => and_comm

/-- Where what a client has written since is only written by invocations that read the same cell, as
migrations do, and none reads its own output in the end, one that is overtaken goes back to one that is
exposed. -/
theorem exposed_of_overtaken (h : log.Sound)
    (hmigrates : ∀ writer ∈ round.layers, ∀ write ∈ (round.accesses writer).writes,
      log.MovedOn round.parent round.forkPoint write.cell →
        ∃ read ∈ (round.accesses writer).reads, read.cell = write.cell)
    (hacyclic : ∀ layer, ¬ Relation.TransGen round.ConsumesAt layer layer)
    (hl : layer ∈ round.layers) (ho : log.Overtaken round layer) :
    ∃ other ∈ round.layers, log.Exposed round other ∧ Relation.ReflTransGen round.Consumes layer other := by
  have hwf : WellFounded (Function.swap round.ConsumesAt) :=
    Worklist.wellFounded_of_acyclic round.layers (fun _ _ hs => hs.1) fun layer hc =>
      hacyclic layer (Relation.transGen_swap.1 hc)
  induction layer using hwf.induction with
  | _ layer ih =>
    obtain ⟨read, hr, hmoved⟩ := ho
    by_cases hwritten : ∃ writer ∈ round.layers, read ∈ (round.accesses writer).writes
    · obtain ⟨writer, hin, hw⟩ := hwritten
      have hconsumes : round.ConsumesAt layer writer := ⟨hl, hin, read, hw, hr⟩
      obtain ⟨before, hb, hcell⟩ := hmigrates writer hin read hw hmoved
      obtain ⟨other, hother, hexposed, hfrom⟩ := ih writer hconsumes hin ⟨before, hb, hcell ▸ hmoved⟩
      exact ⟨other, hother, hexposed, .head hconsumes.consumes hfrom⟩
    · refine ⟨layer, hl, ⟨read, hr, h.movedAlong hmoved, fun writer hin hw => ?_⟩, .refl⟩
      exact hwritten ⟨writer, hin, hw⟩

/-- **When a round lands under a fresher write.**  A merge applies no invocation that read what a client has
written since exactly when each such invocation goes back, through cells one read and the one before wrote,
to one that read such a cell at a version none of the round wrote, or one whose object is gone.  So it is
wherever what a client has written since is only written by invocations that read the same cell, as
migrations do, and no invocation goes back to itself through the records it read. -/
theorem mergeRound_fresh_iff (h : log.Sound) (hp : (log.branches.lookup round.parent).isSome)
    (hc : ∀ layer ∈ round.layers, (log.commitAt layer).isSome) :
    ∃ outcome applied landed log', mergeRound round log = .ok outcome log' ∧
      log.Merged round applied landed log' ∧
      ((∀ layer ∈ applied, ¬ log.Overtaken round layer) ↔
        ∀ layer ∈ round.layers, log.Overtaken round layer → ∃ other ∈ round.layers,
          (log.Exposed round other ∨ log.Orphaned round other) ∧
            Relation.ReflTransGen round.Consumes layer other) ∧
      ((∀ writer ∈ round.layers, ∀ write ∈ (round.accesses writer).writes,
          log.MovedOn round.parent round.forkPoint write.cell →
            ∃ read ∈ (round.accesses writer).reads, read.cell = write.cell) →
        (∀ layer, ¬ Relation.TransGen round.ConsumesAt layer layer) →
        ∀ layer ∈ applied, ¬ log.Overtaken round layer) := by
  obtain ⟨outcome, applied, landed, log', hrun, _, _, hm⟩ := mergeRound_run h hp hc
  obtain ⟨_, applied', _, _, happlied, hmem⟩ := h.appliedBy_ok round
  rw [hm.decided] at happlied
  cases happlied
  simp only [blocked_iff, Round.leads_iff] at hmem
  -- Guards are looked at as soon as one invocation is overtaken.
  have hlooked {layer : LayerId} (ho : log.Overtaken round layer) :
      log.touchedSince round.parent round.forkPoint = true := by
    obtain ⟨read, _, hmoved⟩ := ho
    exact h.touchedSince_of_movedOn hmoved
  have hswept {layer : LayerId} (hl : layer ∈ applied) (ho : log.Overtaken round layer) :
      ¬ ∃ other ∈ round.layers, (log.Exposed round other ∨ log.Orphaned round other) ∧
        Relation.ReflTransGen round.Consumes layer other := by
    rintro ⟨other, hother, hrejected, hfrom⟩
    exact ((hmem layer).1 hl).2 ⟨other, hother, hrejected.imp_left fun hb => ⟨hlooked ho, hb⟩, hfrom⟩
  refine ⟨outcome, applied, landed, log', hrun, hm, ⟨fun hfresh layer hl ho => ?_, fun hall layer hl ho => ?_⟩,
    fun hmigrates hacyclic layer hl ho => ?_⟩
  · by_contra hno
    refine hfresh layer ((hmem layer).2 ⟨hl, ?_⟩) ho
    rintro ⟨other, hother, hrejected, hfrom⟩
    exact hno ⟨other, hother, hrejected.imp_left fun hb => hb.2, hfrom⟩
  · exact hswept hl ho (hall layer ((hmem layer).1 hl).1 ho)
  · obtain ⟨other, hother, hexposed, hfrom⟩ :=
      exposed_of_overtaken h hmigrates hacyclic ((hmem layer).1 hl).1 ho
    exact hswept hl ho ⟨other, hother, Or.inl hexposed, hfrom⟩

/-! ### Two migrations of one field -/

/-- One owner opens a value layer, fills it and commits it. -/
def filled (log : Log) (branch : BranchId) (author : LayerAuthor)
    (drafts : List (CellRef × EventDraft)) : Log :=
  let handle : LayerHandle := ⟨log.openedLayer branch .value author⟩
  after (commit handle (drafts.foldl (fun log draft => after (put handle draft.1 draft.2 log))
    (after (openLayer branch .value author log))))

theorem Writing.puts {start : Log} {handle : LayerHandle} {commit : Commit}
    (hw : Writing start handle commit log) (drafts : List (CellRef × EventDraft)) :
    Steps log (drafts.foldl (fun log draft => after (Log.put handle draft.1 draft.2 log)) log) ∧
      ∃ commit', Writing start handle commit'
        (drafts.foldl (fun log draft => after (Log.put handle draft.1 draft.2 log)) log) := by
  induction drafts generalizing log commit with
  | nil => exact ⟨.refl, commit, hw⟩
  | cons draft rest ih =>
    obtain ⟨log₁, hput, hw₁⟩ := hw.put draft.1 draft.2
    obtain ⟨hsteps, hrest⟩ := ih hw₁
    have hstep : Step log log₁ := by
      have := Step.put handle draft.1 draft.2 hw.owns
      rwa [hput] at this
    rw [List.foldl_cons, hput, after_ok]
    exact ⟨.head hstep hsteps, hrest⟩

theorem filled_steps (h : log.Sound) {branch : BranchId} (hb : (log.branches.lookup branch).isSome)
    (author : LayerAuthor) (drafts : List (CellRef × EventDraft)) :
    Steps log (log.filled branch author drafts) := by
  obtain ⟨handle, opened, hopen, hw⟩ := Writing.openLayer h hb .value author
  have hstep := Step.openLayer branch .value author hb
  rw [openLayer_run branch .value author h] at hopen hstep
  cases hopen
  obtain ⟨hsteps, _, hw'⟩ := hw.puts drafts
  rw [filled, openLayer_run branch .value author h]
  exact .tail (.head hstep hsteps) (.commit _ hw'.owns)

theorem Reachable.filled (h : log.Reachable) {branch : BranchId}
    (hb : (log.branches.lookup branch).isSome) (author : LayerAuthor)
    (drafts : List (CellRef × EventDraft)) : (log.filled branch author drafts).Reachable :=
  Relation.ReflTransGen.trans h (filled_steps h.sound hb author drafts)

/-- A field that moved from version 1 to version 3. -/
def movedCell : CellRef := .prop "Doc" "title" (.allocated .object 1 0 0)

/-- One client writes the field at its old version, -/
def oldWritten : Log :=
  (after (createRoot none new)).filled 1 .source [(movedCell, ⟨.int 1, 1, .source, none⟩)]

/-- another one at its new version. -/
def bothWritten : Log := oldWritten.filled 1 .source [(movedCell, ⟨.int 2, 3, .source, none⟩)]

/-- A round forks there, and both migrations of the step run in it: one reads the old record and
writes the new one, -/
def upMigrated : Log :=
  (after (fork 1 2 none bothWritten)).filled 2 (.derived 10 2)
    [(movedCell, ⟨.int 1, 3, .derived, some ⟨10, 2, [⟨movedCell, 1⟩]⟩⟩)]

/-- the other one the other way. -/
def bothMigrated : Log :=
  upMigrated.filled 2 (.derived 11 2)
    [(movedCell, ⟨.int 2, 1, .derived, some ⟨11, 2, [⟨movedCell, 3⟩]⟩⟩)]

/-- A client writes the old version again while the round runs. -/
def overtaken : Log := bothMigrated.filled 1 .source [(movedCell, ⟨.int 9, 1, .source, none⟩)]

def crossedRound : Round :=
  ((Round.new 2 1 2).ran 3 [⟨movedCell, 1⟩] [⟨movedCell, 3⟩]).ran 4 [⟨movedCell, 3⟩] [⟨movedCell, 1⟩]

theorem overtaken_reachable : overtaken.Reachable := by
  have hroot : (after (createRoot none new)).Reachable := .single (.createRoot none)
  have hold : oldWritten.Reachable := hroot.filled (by decide +kernel) .source _
  have hwritten : bothWritten.Reachable := hold.filled (by decide +kernel) .source _
  have hforked : (after (fork 1 2 none bothWritten)).Reachable := .tail hwritten (.fork 1 2 none)
  have hup : upMigrated.Reachable := hforked.filled (by decide +kernel) _ _
  have hmigrated : bothMigrated.Reachable := hup.filled (by decide +kernel) _ _
  exact hmigrated.filled (by decide +kernel) .source _

theorem movedOn_of_commitAt (id : LayerId) {branch : BranchId} {since : LayerId} {cell : CellRef} (hlt : since < id)
    (hc : (log.commitAt id).map (fun commit => (commit.branch, commit.author, commit.events.map Event.cell)) =
      some (branch, .source, [cell])) : log.MovedOn branch since cell := by
  obtain ⟨commit, hc, hfields⟩ := Option.map_eq_some_iff.1 hc
  simp only [Prod.mk.injEq] at hfields
  obtain ⟨hb, ha, he⟩ := hfields
  refine ⟨id, hlt, commit, hc, hb, by rw [ha]; rfl, ?_⟩
  exact List.mem_map.1 (by rw [he]; exact List.mem_singleton_self _)

theorem overtaken_moved : overtaken.Overtaken crossedRound 3 := by
  have hread : (crossedRound.accesses 3).reads = [⟨movedCell, 1⟩] := by decide +kernel
  refine ⟨⟨movedCell, 1⟩, by rw [hread]; exact List.mem_singleton_self _, ?_⟩
  exact movedOn_of_commitAt 5 (by decide) (by decide +kernel)

/-- **A round lands under a fresher write.**  Both migrations are applied, and the field reads at its
old version what one of them made of the other client's older write. -/
theorem mergeRound_overtakes :
    overtaken.Reachable ∧ overtaken.appliedBy crossedRound = .ok [3, 4] ∧
      overtaken.Overtaken crossedRound 3 ∧
      returned (mergeRound crossedRound overtaken) = some ⟨0, [6, 7], 2, [], 0⟩ ∧
      overtaken.storage.getCell (overtaken.readPath 1 none) movedCell 1 =
        .ok (some ⟨⟨5, movedCell, .int 9, 1, .source, none, 5⟩, 5⟩) ∧
      (after (mergeRound crossedRound overtaken)).storage.getCell
          ((after (mergeRound crossedRound overtaken)).readPath 1 none) movedCell 1 =
        .ok (some ⟨⟨4, movedCell, .int 2, 1, .derived, some ⟨11, 2, [⟨movedCell, 3⟩]⟩, 4⟩, 7⟩) :=
  ⟨overtaken_reachable, by decide +kernel, overtaken_moved, by decide +kernel, by decide +kernel,
    by decide +kernel⟩

/-! ### One migration of it, and what consumed it -/

def measuredCell : CellRef := .prop "Doc" "length" (.allocated .object 1 0 0)

/-- A round in which one migration of the field ran, and a pipeline over what it wrote; -/
def measured : Log :=
  upMigrated.filled 2 (.derived 12 2)
    [(measuredCell, ⟨.int 1, 3, .derived, some ⟨12, 2, [⟨movedCell, 3⟩]⟩⟩)]

/-- and again a client writes the old version while it runs. -/
def outrun : Log := measured.filled 1 .source [(movedCell, ⟨.int 9, 1, .source, none⟩)]

def chainedRound : Round :=
  ((Round.new 2 1 2).ran 3 [⟨movedCell, 1⟩] [⟨movedCell, 3⟩]).ran 4 [⟨movedCell, 3⟩] [⟨measuredCell, 3⟩]

theorem outrun_reachable : outrun.Reachable := by
  have hroot : (after (createRoot none new)).Reachable := .single (.createRoot none)
  have hold : oldWritten.Reachable := hroot.filled (by decide +kernel) .source _
  have hwritten : bothWritten.Reachable := hold.filled (by decide +kernel) .source _
  have hforked : (after (fork 1 2 none bothWritten)).Reachable := .tail hwritten (.fork 1 2 none)
  have hup : upMigrated.Reachable := hforked.filled (by decide +kernel) _ _
  have hmeasured : measured.Reachable := hup.filled (by decide +kernel) _ _
  exact hmeasured.filled (by decide +kernel) .source _

/-- The migration is exposed, and it fed the pipeline: neither lands. -/
theorem mergeRound_fresh_iff_chained :
    ∃ outcome applied landed log', mergeRound chainedRound outrun = .ok outcome log' ∧
      outrun.Merged chainedRound applied landed log' ∧
      ∀ layer ∈ applied, ¬ outrun.Overtaken chainedRound layer := by
  have hsound := outrun_reachable.sound
  have hparent : (outrun.branches.lookup chainedRound.parent).isSome := by decide +kernel
  obtain ⟨outcome, applied, landed, log', hrun, hmerged, hiff, _⟩ :=
    mergeRound_fresh_iff hsound hparent (by decide +kernel)
  refine ⟨outcome, applied, landed, log', hrun, hmerged, hiff.2 fun layer hl _ => ?_⟩
  have hreads : (chainedRound.accesses 3).reads = [⟨movedCell, 1⟩] := by decide +kernel
  have hmoved : outrun.MovedOn 1 2 movedCell := movedOn_of_commitAt 5 (by decide) (by decide +kernel)
  have hexposed : outrun.Exposed chainedRound 3 :=
    ⟨⟨movedCell, 1⟩, by rw [hreads]; exact List.mem_singleton_self _, hsound.movedAlong hmoved, by decide +kernel⟩
  refine ⟨3, by decide +kernel, Or.inl hexposed, ?_⟩
  have hlayers : chainedRound.layers = [3, 4] := by decide +kernel
  rw [hlayers] at hl
  rcases List.mem_pair.1 hl with rfl | rfl
  · exact .refl
  · exact .single (Round.mem_consumers.1 (by decide +kernel))

end Log

end BorgCore
