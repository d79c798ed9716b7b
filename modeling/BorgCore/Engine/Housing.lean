import BorgCore.Engine.Frames
import BorgCore.Engine.Presence
import BorgCore.Engine.Writes

/-!
# What an open session has housed

A property record is housed when the existence cell of its object has a record that whoever sees the
property sees as well: in the same layer, or along that layer's own path.  A client's session houses
every property it writes, whatever else is going on: its probe looks no further than its layer will.
-/

namespace BorgCore

/-- A cell that is its own existence cell has no def-version. -/
theorem DefView.versionOf_own (view : DefView) {cell : CellRef} (h : cell.existenceOf = cell) :
    view.versionOf cell = .unversioned := by
  obtain ⟨buffer, key⟩ := cell
  cases buffer with
  | objectProp structName field => cases h
  | _ => rfl

namespace Log

variable {log log' log'' : Log} {id : LayerId} {session : WriteSession} {branch : BranchId}
  {events : List Event} {cell : CellRef} {handle : LayerHandle}

theorem Owns.guard (ho : log.Owns handle) (guard : Guard) : log.Owns (handle.guard guard) := by
  obtain ⟨layer, hl, hs, he⟩ := ho
  refine ⟨layer, hl, hs, ?_⟩
  rw [LayerHandle.guard, he]

theorem Sound.owns_branch (h : log.Sound) (ho : log.Owns handle) :
    (log.branches.lookup handle.layer.branch).isSome ∧
      log.branchOf handle.id = some handle.layer.branch := by
  obtain ⟨layer, hl, _, he⟩ := ho
  obtain ⟨found, hf, _⟩ := h.layer_branch hl
  have hb : handle.layer.branch = layer.branch := by rw [he]
  exact ⟨by rw [hb, hf]; rfl, by simp [branchOf, Log.layer, hl, hb]⟩

/-! ### Calls that commit nothing -/

/-- Calls on one open layer: nothing is committed, and no other open layer is touched. -/
structure Written (id : LayerId) (log log' : Log) : Prop where
  sound : log'.Sound
  grows : Grows log log'
  spares : Spares (· = id) log log'
  commitAt : ∀ id, log'.commitAt id = log.commitAt id

theorem Written.refl (h : log.Sound) (id : LayerId) : Written id log log :=
  ⟨h, .refl log, .refl _ _, fun _ => rfl⟩

theorem Written.trans (h : Written id log log') (h' : Written id log' log'') : Written id log log'' :=
  ⟨h'.sound, h.grows.trans h'.grows, h.spares.trans h'.spares,
    fun id => (h'.commitAt id).trans (h.commitAt id)⟩

/-! ### Housed layers -/

/-- Once its layer has landed, whoever sees it sees a record of this cell. -/
def Covered (log : Log) (branch : BranchId) (id : LayerId) (events : List Event) (cell : CellRef) :
    Prop :=
  (∃ event ∈ events, event.at = ⟨cell, .unversioned⟩) ∨
    log.Seen (log.readPath branch (some id)) cell .unversioned

theorem Covered.append (hc : log.Covered branch id events cell) (more : List Event) :
    log.Covered branch id (events ++ more) cell := by
  rcases hc with ⟨event, hm, hat⟩ | hs
  · exact Or.inl ⟨event, List.mem_append_left _ hm, hat⟩
  · exact Or.inr hs

theorem Covered.grows (hc : log.Covered branch id events cell) (hg : Grows log log') (h : log.Sound)
    (hb : (log.branches.lookup branch).isSome) : log'.Covered branch id events cell := by
  rcases hc with hm | hs
  · exact Or.inl hm
  · refine Or.inr ?_
    rw [hg.readPath_some h hb]
    exact hs.grows hg

/-- A client's layer, each of whose properties is housed. -/
structure Housed (log : Log) (id : LayerId) (commit : Commit) : Prop where
  source : commit.author.isSource
  defs : commit.kind = .defs → commit.events = []
  seen : ∀ event ∈ commit.events, event.cell.existenceOf ≠ event.cell →
    log.Seen (log.readPath commit.branch (some id)) event.cell.existenceOf .unversioned

theorem Housed.grows {commit : Commit} (hh : log.Housed id commit) (hg : Grows log log') (h : log.Sound)
    (hb : (log.branches.lookup commit.branch).isSome) : log'.Housed id commit where
  source := hh.source
  defs := hh.defs
  seen event hm hne := by
    rw [hg.readPath_some h hb]
    exact (hh.seen event hm hne).grows hg

/-! ### Open sessions -/

/-- A client's session that is open on a branch, with what its layer holds so far. -/
structure Holds (log : Log) (id : LayerId) (session : WriteSession) (branch : BranchId)
    (events : List Event) : Prop where
  writer : session.writer = .client
  handle : session.handle.id = id
  owns : log.Owns session.handle
  pending : log.pendingAt id = some (.client branch events)
  path : Within session.path (log.readPath branch (some id))

/-- A session that has housed what it has written, and remembers only objects that are covered. -/
structure Houses (log : Log) (id : LayerId) (session : WriteSession) (branch : BranchId)
    (events : List Event) : Prop extends Holds log id session branch events where
  touched : ∀ cell ∈ session.touched, log.Covered branch id events cell
  housed : ∀ event ∈ events, event.cell.existenceOf ≠ event.cell →
    log.Covered branch id events event.cell.existenceOf

theorem Holds.staged (hs : log.Holds id session branch events) (h : log.Sound) :
    ∃ staged, log.storage.staged.lookup id = some staged ∧ staged.isSealed = false ∧
      session.handle.layer.branch = branch ∧ session.handle.layer.kind = .value ∧
      session.handle.layer.author = .source ∧ log.storage.stagedContents staged = events ∧
      staged.defs = [] := by
  obtain ⟨staged, hst, _, hf⟩ := h.staged_of_owns hs.owns
  obtain ⟨layer, hl, _, he⟩ := hs.owns
  have hp := pendingAt_of hl hst
  rw [hs.handle] at hst
  rw [hs.handle, hs.pending, Option.some.injEq, Commit.client, Commit.mk.injEq] at hp
  obtain ⟨hb, hk, ha, _, hevents, hd⟩ := hp
  exact ⟨staged, hst, hf, by rw [he, hb], by rw [he, hk], by rw [he, ha], hevents.symm, hd.symm⟩

theorem Holds.registered (hs : log.Holds id session branch events) (h : log.Sound) :
    (log.branches.lookup branch).isSome ∧ log.branchOf id = some branch := by
  obtain ⟨_, _, _, hb, _⟩ := hs.staged h
  obtain ⟨hfound, hbranch⟩ := h.owns_branch hs.owns
  rw [hb] at hfound hbranch
  rw [hs.handle] at hbranch
  exact ⟨hfound, hbranch⟩

/-- A session nobody touches stands where it stood. -/
theorem Holds.spared (hs : log.Holds id session branch events) (h : log.Sound) (hg : Grows log log')
    {own : LayerId → Prop} (hsp : Spares own log log') (hown : ¬ own id) :
    log'.Holds id session branch events := by
  obtain ⟨ho, hp⟩ := hsp session.handle (by rw [hs.handle]; exact hown) hs.owns
  rw [hs.handle] at hp
  refine ⟨hs.writer, hs.handle, ho, hp.trans hs.pending, ?_⟩
  rw [hg.readPath_some h (hs.registered h).1]
  exact hs.path

theorem Houses.spared (hs : log.Houses id session branch events) (h : log.Sound) (hg : Grows log log')
    {own : LayerId → Prop} (hsp : Spares own log log') (hown : ¬ own id) :
    log'.Houses id session branch events where
  toHolds := hs.toHolds.spared h hg hsp hown
  touched cell hm := (hs.touched cell hm).grows hg h (hs.registered h).1
  housed event hm hne := (hs.housed event hm hne).grows hg h (hs.registered h).1

/-- The layer a session lands houses what the session has housed. -/
theorem Houses.landed (hs : log.Houses id session branch events) (h : log.Sound) {staged : StagedLayer}
    (hst : log.storage.staged.lookup id = some staged) :
    Unmixed id (log.commitOf session.handle.layer staged) ∧
      (log.landing session.handle.layer staged).Housed id
        (log.commitOf session.handle.layer staged) := by
  obtain ⟨_, hst', _, hb, hk, ha, hevents, hd⟩ := hs.staged h
  rw [hst] at hst'
  cases hst'
  have hst' : log.storage.staged.lookup session.handle.id = some staged := by rw [hs.handle, hst]
  have hmove : Move log (log.landing session.handle.layer staged) := .landing hs.owns hst'
  have hlanded : (log.landing session.handle.layer staged).commitAt id =
      some (log.commitOf session.handle.layer staged) := by
    rw [commitAt_landing h.storage hst', if_pos hs.handle.symm]
  refine ⟨fun _ => hd, ?_, fun hkind => ?_, fun event he hne => ?_⟩
  · show session.handle.layer.author.isSource
    rw [ha]
    rfl
  · have hvalue : session.handle.layer.kind = .defs := hkind
    rw [hk] at hvalue
    cases hvalue
  · have he' : event ∈ events := hevents ▸ he
    have hregistered := (hs.toHolds.registered h).1
    show Seen _ (readPath _ session.handle.layer.branch (some id)) _ _
    rw [hb]
    rcases (hs.housed event he' hne).grows (hmove.grows h) h hregistered with
      ⟨record, hrecord, hat⟩ | hseen
    · -- The existence record is in the layer itself.
      have hon : (log.landing session.handle.layer staged).branchOf id = some branch :=
        CommittedOn.branchOf ⟨_, hlanded, hb⟩
      have hmember : record ∈ (log.commitOf session.handle.layer staged).events := by
        show record ∈ log.storage.stagedContents staged
        rw [hevents]
        exact hrecord
      refine ⟨(branch, id), ?_, id, Nat.le_refl _, ?_⟩
      · rw [(hmove.sound h).readPath_some hon]
        exact List.mem_cons_self
      · exact recordAt_isSome_iff.2 ⟨_, hlanded, hb, record, hmember, hat⟩
    · exact hseen

theorem Holds.put (hs : log.Holds id session branch events) (h : log.Sound) (cell : CellRef)
    (draft : EventDraft) :
    ∃ event log', Log.put session.handle cell draft log = .ok event.id log' ∧
      Written id log log' ∧ event.at = ⟨cell, draft.version⟩ ∧
      log'.Holds id session branch (events ++ [event]) := by
  obtain ⟨staged, hst, hf, hb, hk, ha, hevents, hd⟩ := hs.staged h
  have hst' : log.storage.staged.lookup session.handle.id = some staged := by rw [hs.handle, hst]
  have hrun := put_run cell draft hst' hf
  have hmove : Move log (after (Log.put session.handle cell draft log)) := by
    rw [hrun]
    exact .restaged hs.owns hst' (h.storage.author cell draft hst') rfl rfl
  have hspares := put_spares h hs.owns cell draft
  rw [hrun, after_ok] at hmove hspares
  obtain ⟨layer, hl, _, he⟩ := hs.owns
  refine ⟨draft.event (log.storage.nextEvent + 1) cell session.handle.id, _, hrun,
    ⟨hmove.sound h, hmove.grows h, hspares.mono fun _ hid => hid.trans hs.handle, fun _ => rfl⟩, rfl,
      hs.writer, hs.handle,
    hs.owns.of_layers rfl, ?_, ?_⟩
  · rw [pendingAt_restaged hl, if_pos hs.handle.symm,
      MemoryStorage.stagedContents_author h.storage cell draft hst', hevents]
    have hbranch : layer.branch = branch := by rw [← hb, he]
    have hkind : layer.kind = .value := by rw [← hk, he]
    have hauthor : layer.author = .source := by rw [← ha, he]
    have hdefs : (staged.author (draft.event (log.storage.nextEvent + 1) cell session.handle.id)).defs =
      [] := hd
    rw [hbranch, hkind, hauthor, hdefs]
    rfl
  · rw [(hmove.grows h).readPath_some h (hs.registered h).1]
    exact hs.path

theorem Holds.probe (hs : log.Holds id session branch events) (h : log.Sound) (cell : CellRef) :
    ∃ found, Log.ask (fun log => log.storage.getCell session.path cell .unversioned) log = .ok found log ∧
      (found.isSome → log.Seen (log.readPath branch (some id)) cell .unversioned) := by
  refine ⟨_, by simp only [ask, h.getCell session.path cell .unversioned]; rfl, fun hsome => ?_⟩
  obtain ⟨found, hf⟩ := Option.isSome_iff_exists.1 hsome
  refine Seen.within (h.seen_iff.2 ⟨found, ?_⟩) hs.path
  rw [h.getCell, hf]

end Log

namespace WriteSession

open Log

variable {log log' : Log} {id : LayerId} {session : WriteSession} {branch : BranchId}
  {events : List Event}

theorem openClient_ok (h : log.Sound) {version : ClientVersion}
    (hopen : openClient branch version log = .ok session log') :
    session.writer = .client ∧ session.handle = ⟨log.openedLayer branch .value .source⟩ ∧
      session.path = log.readPath branch none ∧ session.touched = [] ∧
      log' = log.opened branch .value .source := by
  unfold openClient openOn at hopen
  obtain ⟨_, _, hget, hopen⟩ := Calls.bind_eq_ok_iff.1 hopen
  cases hget
  obtain ⟨authority, log₁, hask, hopen⟩ := Calls.bind_eq_ok_iff.1 hopen
  obtain rfl : log₁ = log := by
    unfold ask at hask
    split at hask <;> cases hask
    rfl
  obtain ⟨view, log₂, hask, hopen⟩ := Calls.bind_eq_ok_iff.1 hopen
  obtain rfl : log₂ = log₁ := by
    unfold ask at hask
    split at hask <;> cases hask
    rfl
  rw [Calls.bind_ok (openLayer_run branch .value .source h)] at hopen
  cases hopen
  exact ⟨rfl, rfl, rfl, rfl, rfl⟩

theorem openClient_houses (h : log.Sound) (hb : (log.branches.lookup branch).isSome)
    {version : ClientVersion} (hopen : openClient branch version log = .ok session log') :
    log'.Houses log.nextLayer session branch [] := by
  obtain ⟨hw, hh, hp, ht, rfl⟩ := openClient_ok h hopen
  have hmove : Move log (log.opened branch .value .source) := .opened branch .value .source hb
  have hbranch : (log.opened branch .value .source).branchOf log.nextLayer = some branch := by
    rw [branchOf_opened, if_pos rfl]
  have hid : session.handle.id = log.nextLayer := by
    rw [hh]
    rfl
  have howns : (log.opened branch .value .source).Owns session.handle := by
    rw [hh]
    exact ⟨_, AList.lookup_insert _, rfl, rfl⟩
  refine ⟨⟨hw, hid, howns, ?_, ?_⟩, ?_, ?_⟩
  · rw [pendingAt_opened, if_pos rfl]
    rfl
  · rw [hp]
    exact h.within_opened (hmove.grows h) (hmove.sound h) hb hbranch
  · intro cell hm
    rw [ht] at hm
    cases hm
  · intro event hm
    cases hm

/-- **Implying an existence covers the object**, and leaves everything else as it was.  Only where the
cell is an existence cell itself is it still to be written. -/
theorem implyExistence_covers (h : log.Sound) (hs : log.Houses id session branch events)
    (cell : CellRef) :
    ∃ session' log' events', session.implyExistence cell log = .ok session' log' ∧
      Written id log log' ∧ log'.Holds id session' branch events' ∧
      (∀ other ∈ session'.touched, log'.Covered branch id events' other ∨
        other = cell ∧ cell.existenceOf = cell) ∧
      (∀ event ∈ events', event.cell.existenceOf ≠ event.cell →
        log'.Covered branch id events' event.cell.existenceOf) ∧
      (cell.existenceOf ≠ cell → log'.Covered branch id events' cell.existenceOf) ∧
      session'.defs = session.defs := by
  have hwriter := hs.writer
  unfold implyExistence
  simp only [hwriter, ne_eq, not_true_eq_false, if_false]
  by_cases ht : cell.existenceOf ∈ session.touched
  · simp only [if_pos ht]
    exact ⟨session, log, events, rfl, .refl h id, hs.toHolds,
      fun other hm => Or.inl (hs.touched other hm), hs.housed, fun _ => hs.touched _ ht, rfl⟩
  by_cases he : cell.existenceOf = cell
  · simp only [if_neg ht, if_pos he]
    refine ⟨_, log, events, rfl, .refl h id,
      ⟨rfl, hs.handle, hs.owns, hs.pending, hs.path⟩, ?_, hs.housed, fun hne => absurd he hne, rfl⟩
    intro other hm
    rcases List.mem_cons.1 hm with rfl | hm
    · exact Or.inr ⟨he, he⟩
    · exact Or.inl (hs.touched other hm)
  simp only [if_neg ht, if_neg he, session.defs.versionOf_existence he]
  obtain ⟨found, hask, hfound⟩ := hs.probe h cell.existenceOf
  rw [Calls.bind_ok hask]
  cases found with
  | some found =>
    have hcovered : log.Covered branch id events cell.existenceOf := Or.inr (hfound rfl)
    refine ⟨_, log, events, rfl, .refl h id,
      ⟨rfl, hs.handle, hs.owns, hs.pending, hs.path⟩, ?_, hs.housed, fun _ => hcovered, rfl⟩
    intro other hm
    rcases List.mem_cons.1 hm with rfl | hm
    · exact Or.inl hcovered
    · exact Or.inl (hs.touched other hm)
  | none =>
    obtain ⟨event, log', hput, hwritten, hat, hs'⟩ :=
      hs.toHolds.put h cell.existenceOf ⟨.bool true, .unversioned, session.writer.origin, none⟩
    have hnew : log'.Covered branch id (events ++ [event]) cell.existenceOf :=
      Or.inl ⟨event, List.mem_append_right _ (List.mem_singleton_self _), hat⟩
    have hold {other : CellRef} (hc : log.Covered branch id events other) :
        log'.Covered branch id (events ++ [event]) other :=
      (hc.grows hwritten.grows h (hs.registered h).1).append [event]
    rw [hwriter] at hput
    simp only
    rw [Calls.bind_ok hput]
    refine ⟨_, log', events ++ [event], rfl, hwritten,
      ⟨rfl, hs'.handle, hs'.owns, hs'.pending, hs'.path⟩, ?_, ?_, fun _ => hnew, rfl⟩
    · intro other hm
      rcases List.mem_cons.1 hm with rfl | hm
      · exact Or.inl hnew
      · exact Or.inl (hold (hs.touched other hm))
    · intro other hm hne
      rcases List.mem_append.1 hm with hm | hm
      · exact hold (hs.housed other hm hne)
      · -- The event written here is an existence record.
        have hcell : other.cell = cell.existenceOf := by
          rw [List.mem_singleton.1 hm]
          exact congrArg CellAt.cell hat
        rw [hcell, CellRef.existenceOf_existenceOf] at hne
        exact absurd rfl hne

/-- **A write keeps a session housing what it holds**, and a refused one changes nothing. -/
theorem put_houses (h : log.Sound) (hs : log.Houses id session branch events) (cell : CellRef)
    (value : Value) :
    (∃ err, session.put cell value none log = .error err log) ∨
      ∃ session' log' events', session.put cell value none log = .ok session' log' ∧
        Written id log log' ∧ log'.Houses id session' branch events' := by
  cases hc : session.defs.checkWrite cell value session.writer session.authority with
  | error err =>
    have hask : (Log.ask fun _ => session.defs.checkWrite cell value session.writer session.authority :
        LogM Unit) log = .error err log := by
      simp only [Log.ask, hc]
    unfold WriteSession.put
    exact Or.inl ⟨err, Calls.bind_error hask⟩
  | ok _ =>
    have hask : (Log.ask fun _ => session.defs.checkWrite cell value session.writer session.authority :
        LogM Unit) log = .ok () log := by
      simp only [Log.ask, hc]
    obtain ⟨session₁, log₁, events₁, himply, hwritten₁, hs₁, htouched, hhoused, hcovered, _⟩ :=
      implyExistence_covers h hs cell
    obtain ⟨event, log₂, hput, hwritten₂, hat, hs₂⟩ := hs₁.put hwritten₁.sound cell
      ⟨value, session₁.defs.versionOf cell, session₁.writer.origin, none⟩
    have hold {other : CellRef} (hc : log₁.Covered branch id events₁ other) :
        log₂.Covered branch id (events₁ ++ [event]) other :=
      (hc.grows hwritten₂.grows hwritten₁.sound (hs₁.registered hwritten₁.sound).1).append [event]
    have htouched₂ : ∀ other ∈ session₁.touched, log₂.Covered branch id (events₁ ++ [event]) other := by
      intro other hm
      rcases htouched other hm with hc | ⟨rfl, hown⟩
      · exact hold hc
      · -- An existence cell written on purpose: this is the record.
        refine Or.inl ⟨event, List.mem_append_right _ (List.mem_singleton_self _), ?_⟩
        rw [hat, session₁.defs.versionOf_own hown]
    have hhoused₂ : ∀ other ∈ events₁ ++ [event], other.cell.existenceOf ≠ other.cell →
        log₂.Covered branch id (events₁ ++ [event]) other.cell.existenceOf := by
      intro other hm hne
      rcases List.mem_append.1 hm with hm | hm
      · exact hold (hhoused other hm hne)
      · have hcell : other.cell = cell := by
          rw [List.mem_singleton.1 hm]
          exact congrArg CellAt.cell hat
        rw [hcell] at hne ⊢
        exact hold (hcovered hne)
    refine Or.inr ?_
    unfold WriteSession.put
    rw [Calls.bind_ok hask, Calls.bind_ok himply, Calls.bind_ok hput]
    simp only [hs₁.writer, if_true]
    exact ⟨_, log₂, events₁ ++ [event], rfl, hwritten₁.trans hwritten₂,
      ⟨⟨rfl, hs₂.handle, hs₂.owns, hs₂.pending, hs₂.path⟩, htouched₂, hhoused₂⟩⟩

end WriteSession

end BorgCore
