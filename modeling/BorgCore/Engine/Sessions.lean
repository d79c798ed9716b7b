import BorgCore.Engine.Paths

/-!
# Layers from open to end

Most calls of the engine are made of layers that one owner opens, fills and ends with nobody in
between.  `Writing` is where such a layer stands, with one rule for each call on the log; `Lands` is
what a call that has come back did to the timeline: it added these layers, above everything, and
touched nothing else.  `Adds` is the same where a branch may have been made as well.
-/

namespace BorgCore

/-- What a committed layer does to the watermarks. -/
def FrontierTracker.land (frontier : FrontierTracker) (commit : Commit) : FrontierTracker :=
  match commit.author with
  | .source => frontier
  | .derived producer reflects => frontier.advance commit.branch producer reflects

namespace Log

variable {start log log' log'' : Log} {handle : LayerHandle} {commit : Commit}
  {commits commits' : List (LayerId × Commit)}

/-! ### What a call added -/

/-- From one log to another, these layers were committed, in this order, above all there were; and
nothing else was, and no other watermark moved. -/
structure Adds (start : Log) (commits : List (LayerId × Commit)) (log : Log) : Prop where
  sound : log.Sound
  grows : Grows start log
  commits_iff : ∀ id commit, log.commitAt id = some commit ↔
    start.commitAt id = some commit ∨ (id, commit) ∈ commits
  fresh : ∀ landed ∈ commits, start.nextLayer ≤ landed.1
  sorted : (commits.map Prod.fst).Pairwise (· < ·)
  frontier : log.frontier = commits.foldl (fun frontier landed => frontier.land landed.2) start.frontier

/-- Layers added, and no branch made. -/
structure Lands (start : Log) (commits : List (LayerId × Commit)) (log : Log) : Prop
    extends Adds start commits log where
  branches : log.branches = start.branches

theorem Adds.mem (h : Adds start commits log) {id : LayerId} (hm : (id, commit) ∈ commits) :
    log.commitAt id = some commit :=
  (h.commits_iff id commit).2 (Or.inr hm)

theorem Adds.lt (h : Adds start commits log) {id : LayerId} (hm : (id, commit) ∈ commits) :
    id < log.nextLayer :=
  (h.sound.commitAt_lt (h.mem hm)).2

theorem Adds.trans (h : Adds start commits log) (h' : Adds log commits' log') :
    Adds start (commits ++ commits') log' where
  sound := h'.sound
  grows := h.grows.trans h'.grows
  commits_iff id commit := by
    rw [h'.commits_iff, h.commits_iff, List.mem_append, or_assoc]
  fresh landed hm := by
    rcases List.mem_append.1 hm with hm | hm
    · exact h.fresh landed hm
    · exact Nat.le_trans h.grows.next (h'.fresh landed hm)
  sorted := by
    rw [List.map_append, List.pairwise_append]
    refine ⟨h.sorted, h'.sorted, fun id hid id' hid' => ?_⟩
    obtain ⟨landed, hm, rfl⟩ := List.mem_map.1 hid
    obtain ⟨landed', hm', rfl⟩ := List.mem_map.1 hid'
    exact Nat.lt_of_lt_of_le (h.lt hm) (h'.fresh landed' hm')
  frontier := by rw [h'.frontier, h.frontier, List.foldl_append]

theorem Lands.refl (h : log.Sound) : Lands log [] log :=
  ⟨⟨h, .refl log, by simp, by simp, by simp, rfl⟩, rfl⟩

theorem Lands.commitAt_nil (h : Lands start [] log) (id : LayerId) : log.commitAt id = start.commitAt id := by
  refine Option.ext fun commit => ?_
  rw [h.commits_iff]
  exact or_iff_left List.not_mem_nil

theorem Lands.trans (h : Lands start commits log) (h' : Lands log commits' log') :
    Lands start (commits ++ commits') log' :=
  ⟨h.toAdds.trans h'.toAdds, h'.branches.trans h.branches⟩

theorem Adds.branched (h : log.Sound) (name : Option String) (origin : Option LayerId)
    (ho : ∀ id, origin = some id → ∃ parent, log.branchOf id = some parent) :
    Adds log [] (log.branched name origin) where
  sound := h.branched name origin ho
  grows := (Move.branched name origin ho).grows h
  commits_iff := by simp [commitAt, Log.branched, MemoryStorage.contents, MemoryStorage.readMembership,
    MemoryStorage.readDefLayer]
  fresh := by simp
  sorted := by simp
  frontier := rfl

/-- What every commit of a timeline satisfies. -/
def All (log : Log) (p : LayerId → Commit → Prop) : Prop :=
  ∀ id commit, log.commitAt id = some commit → p id commit

theorem Adds.all {p : LayerId → Commit → Prop} (h : Adds start commits log) (hall : start.All p)
    (hnew : ∀ landed ∈ commits, p landed.1 landed.2) : log.All p := by
  intro id commit hc
  rcases (h.commits_iff id commit).1 hc with hc | hm
  · exact hall id commit hc
  · exact hnew _ hm

/-! ### A layer being written -/

/-- A layer opened on a log, and what it would hold if it were committed now. -/
structure Writing (start : Log) (handle : LayerHandle) (commit : Commit) (log : Log) : Prop where
  sound : log.Sound
  grows : Grows start log
  owns : log.Owns handle
  opened : handle.layer.branch = commit.branch ∧ handle.layer.kind = commit.kind ∧
    handle.layer.author = commit.author ∧ handle.layer.guards = [] ∧ commit.guards = []
  pending : log.pendingAt handle.id = some commit
  id : handle.id = start.nextLayer
  commitAt : ∀ id, log.commitAt id = start.commitAt id
  branches : log.branches = start.branches
  frontier : log.frontier = start.frontier

theorem Owns.of_layers (ho : log.Owns handle) (hl : log'.layers = log.layers) : log'.Owns handle := by
  obtain ⟨layer, hlayer, hs, he⟩ := ho
  exact ⟨layer, by rw [hl, hlayer], hs, he⟩

theorem Writing.openLayer (h : log.Sound) {branch : BranchId}
    (hb : (log.branches.lookup branch).isSome) (kind : LayerKind) (author : LayerAuthor) :
    ∃ handle log', openLayer branch kind author log = .ok handle log' ∧
      Writing log handle ⟨branch, kind, author, [], [], []⟩ log' := by
  refine ⟨_, _, openLayer_run branch kind author h, ?_⟩
  exact {
    sound := h.opened branch kind author hb
    grows := (Move.opened branch kind author hb).grows h
    owns := ⟨_, AList.lookup_insert _, rfl, rfl⟩
    opened := ⟨rfl, rfl, rfl, rfl, rfl⟩
    pending := (pendingAt_opened branch kind author _).trans (if_pos rfl)
    id := rfl
    commitAt := commitAt_opened branch kind author h
    branches := rfl
    frontier := rfl }

theorem Writing.staged (hw : Writing start handle commit log) :
    ∃ layer staged, log.layers.lookup handle.id = some layer ∧ layer.branch = commit.branch ∧
      layer.kind = commit.kind ∧ layer.author = commit.author ∧
      log.storage.staged.lookup handle.id = some staged ∧ staged.isSealed = false ∧
      log.storage.stagedContents staged = commit.events ∧ staged.defs = commit.defs := by
  have hp := hw.pending
  unfold pendingAt at hp
  cases hl : log.layers.lookup handle.id with
  | none => simp [hl] at hp
  | some layer =>
    cases hs : log.storage.staged.lookup handle.id with
    | none => simp [hl, hs] at hp
    | some staged =>
      simp only [hl, hs, Option.some.injEq] at hp
      refine ⟨layer, staged, rfl, ?_, ?_, ?_, rfl, (hw.sound.staged_branch hl hs).2, ?_, ?_⟩ <;>
        rw [← hp]

theorem Writing.restaged (hw : Writing start handle commit log) {staged staged' : StagedLayer}
    {next : EventId} {events : List Event} {defs : List DefEvent}
    (hs : log.storage.staged.lookup handle.id = some staged)
    (hstore : (log.restaged handle.id staged' next).storage.Sound)
    (hb : staged'.branch = staged.branch) (hf : staged'.isSealed = staged.isSealed)
    (he : log.storage.stagedContents staged' = events) (hd : staged'.defs = defs) :
    Writing start handle { commit with events := events, defs := defs }
      (log.restaged handle.id staged' next) := by
  obtain ⟨layer, _, hl, hbr, hk, ha, _⟩ := hw.staged
  exact {
    sound := hw.sound.restaged hstore hs hb hf
    grows := hw.grows.trans ((Move.restaged hw.owns hs hstore hb hf).grows hw.sound)
    owns := hw.owns.of_layers rfl
    opened := hw.opened
    pending := by rw [pendingAt_restaged hl, if_pos rfl, hbr, hk, ha, he, hd, hw.opened.2.2.2.2]
    id := hw.id
    commitAt := hw.commitAt
    branches := hw.branches
    frontier := hw.frontier }

theorem Writing.put (hw : Writing start handle commit log) (cell : CellRef) (draft : EventDraft) :
    ∃ log', put handle cell draft log = .ok (log.storage.nextEvent + 1) log' ∧
      Writing start handle { commit with
        events := commit.events ++ [draft.event (log.storage.nextEvent + 1) cell handle.id] } log' := by
  obtain ⟨_, staged, _, _, _, _, hs, hf, he, hd⟩ := hw.staged
  refine ⟨_, put_run cell draft hs hf, hw.restaged hs (hw.sound.storage.author cell draft hs) rfl rfl ?_ hd⟩
  rw [MemoryStorage.stagedContents_author hw.sound.storage cell draft hs, he]

theorem Writing.includeEvent (hw : Writing start handle commit log) {event : Event}
    (hstored : log.storage.events.lookup event.id = some event) :
    ∃ log', includeEvent handle event.id log = .ok () log' ∧
      Writing start handle { commit with events := commit.events ++ [event] } log' := by
  obtain ⟨_, staged, _, _, _, _, hs, hf, he, hd⟩ := hw.staged
  refine ⟨_, includeEvent_run (by rw [hstored]; rfl) hs hf, hw.restaged hs ?_ rfl rfl ?_ hd⟩
  · refine hw.sound.storage.insert_same hs rfl fun id hid => ?_
    rcases List.mem_append.1 hid with hid | hid
    · exact Or.inl hid
    · rw [List.mem_singleton.1 hid, hstored]
      exact Or.inr rfl
  · rw [MemoryStorage.stagedContents_name hw.sound.storage hs hstored, he]

/-- A def event is appended to a layer that is not a value layer. -/
theorem Writing.putDef (hw : Writing start handle commit log) (hk : commit.kind ≠ .value)
    (event : DefEvent) :
    ∃ log', putDef handle event log = .ok () log' ∧
      Writing start handle { commit with defs := commit.defs ++ [event] } log' := by
  obtain ⟨_, staged, _, _, _, _, hs, hf, he, hd⟩ := hw.staged
  refine ⟨_, putDef_run event (by rw [hw.opened.2.1]; exact hk) hs hf, hw.restaged hs ?_ rfl rfl he ?_⟩
  · exact hw.sound.storage.insert_same hs rfl fun id hid => Or.inl hid
  · rw [← hd]
    rfl

/-- A layer without guards commits: what was pending is what landed. -/
theorem Writing.lands (hw : Writing start handle commit log) :
    ∃ log', Log.commit handle log = .ok handle.id log' ∧ Lands start [(handle.id, commit)] log' := by
  obtain ⟨_, staged, _, _, _, _, hs, _, he, hd⟩ := hw.staged
  obtain ⟨hb, hk, ha, hg, hg'⟩ := hw.opened
  refine ⟨log.landing handle.layer staged, ?_, ?_⟩
  · rw [commit_run hw.sound hw.owns hs, hg]
    rfl
  · have hcommit : log.commitOf handle.layer staged = commit := by
      simp only [commitOf, hb, hk, ha, hg, he, hd, ← hg']
    refine {
      sound := hw.sound.landing hw.owns hs
      grows := hw.grows.trans ((Move.landing hw.owns hs).grows hw.sound)
      commits_iff := fun id other => ?_
      fresh := ?_
      sorted := by simp
      branches := hw.branches
      frontier := ?_ }
    · rw [commitAt_landing hw.sound.storage hs, hcommit, List.mem_singleton, Prod.mk.injEq, hw.commitAt]
      split
      · rename_i hid
        have hnone : start.commitAt handle.id = none := by
          rw [← hw.commitAt]
          obtain ⟨hl, hst⟩ := hw.sound.stored_of_owns hw.owns
          exact commitAt_of_open hl hst
        simp [hid, hnone, eq_comm]
      · rename_i hid
        simp [hid]
    · intro landed hm
      rw [List.mem_singleton.1 hm, hw.id]
    · have hland : (log.landing handle.layer staged).frontier = log.frontier.land commit := by
        unfold FrontierTracker.land Log.landing
        cases hc : commit.author <;> simp [ha, hb, hc]
      exact hland.trans (congrArg (·.land commit) hw.frontier)

theorem Writing.aborts (hw : Writing start handle commit log) :
    ∃ log', Log.abort handle log = .ok () log' ∧ Lands start [] log' := by
  refine ⟨_, abort_run hw.sound hw.owns, ?_⟩
  exact {
    sound := hw.sound.discarded hw.owns
    grows := hw.grows.trans ((Move.discarded hw.owns).grows hw.sound)
    commits_iff := fun id other => by
      rw [commitAt_discarded hw.sound hw.owns, hw.commitAt]
      simp
    fresh := by simp
    sorted := by simp
    branches := hw.branches
    frontier := hw.frontier }

end Log

end BorgCore
