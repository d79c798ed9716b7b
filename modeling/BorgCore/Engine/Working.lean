import BorgCore.Engine.Derive
import BorgCore.Engine.Frames

/-!
# Runs under way

Each run of a wave writes a layer of its own.  What one of its calls can come to is said once, and so is
what it leaves alone: the layers of the other runs, everything that is committed, and every watermark but
the round's own.
-/

namespace BorgCore

/-! ### What a call leaves alone -/

namespace Log

/-- A call of a run, which works on the layers it owns. -/
structure Works (on : BranchId) (own : LayerId → Prop) (log log' : Log) : Prop where
  sound : log'.Sound
  grows : Grows log log'
  spares : Spares own log log'
  watermark : ∀ branch, branch ≠ on → ∀ producer,
    log'.frontier.watermark branch producer = log.frontier.watermark branch producer

variable {on : BranchId} {own : LayerId → Prop} {log : Log} {handle : LayerHandle} {staged : StagedLayer}

theorem Works.refl (h : log.Sound) : Works on own log log := ⟨h, .refl log, .refl own log, fun _ _ _ => rfl⟩

theorem works_opened (h : log.Sound) {branch : BranchId} (hb : (log.branches.lookup branch).isSome)
    (kind : LayerKind) (author : LayerAuthor) : Works on own log (log.opened branch kind author) :=
  ⟨h.opened branch kind author hb, (Move.opened branch kind author hb).grows h,
    spares_opened h branch kind author, fun _ _ _ => rfl⟩

theorem works_put (h : log.Sound) (ho : log.Owns handle) (cell : CellRef) (draft : EventDraft)
    (hs : log.storage.staged.lookup handle.id = some staged) :
    Works on (· = handle.id) log (log.restaged handle.id
      (staged.author (draft.event (log.storage.nextEvent + 1) cell handle.id)) (log.storage.nextEvent + 1)) := by
  have hstore := h.storage.author cell draft hs
  obtain ⟨layer, hl, -⟩ := id ho
  exact ⟨h.restaged hstore hs rfl rfl, (Move.restaged ho hs hstore rfl rfl).grows h, spares_restaged hl,
    fun _ _ _ => rfl⟩

theorem works_discarded (h : log.Sound) (ho : log.Owns handle) :
    Works on (· = handle.id) log (log.discarded handle.layer) :=
  ⟨h.discarded ho, (Move.discarded ho).grows h, spares_discarded, fun _ _ _ => rfl⟩

theorem works_landing (h : log.Sound) (ho : log.Owns handle)
    (hs : log.storage.staged.lookup handle.id = some staged) (hon : handle.layer.branch = on) :
    Works on (· = handle.id) log (log.landing handle.layer staged) := by
  refine ⟨h.landing ho hs, (Move.landing ho hs).grows h, spares_landing h hs, fun branch hne producer => ?_⟩
  unfold Log.landing
  dsimp only
  cases handle.layer.author with
  | source => rfl
  | derived by_ reflects =>
    show (log.frontier.advance handle.layer.branch by_ reflects).watermark branch producer = _
    rw [FrontierTracker.watermark_advance, if_neg fun he => hne ((Prod.mk.inj he).1.trans hon)]

end Log

/-! ### Code -/

/-- What code goes on with after one of its calls. -/
inductive Code.Follows : Code → Code → Prop
  | get (cell : CellRef) (next : Except BorgError (Option Value) → Code) (answer) :
      Follows (next answer) (.get cell next)
  | getAt (cell : CellRef) (version : DefVersion) (next : Except BorgError (Option Value) → Code) (answer) :
      Follows (next answer) (.getAt cell version next)
  | getInput (cell : CellRef) (next : Except BorgError (Option Value) → Code) (answer) :
      Follows (next answer) (.getInput cell next)
  | set (cell : CellRef) (value : Value) (next : Except BorgError Unit → Code) (answer) :
      Follows (next answer) (.set cell value next)

theorem Code.follows_wf : WellFounded Code.Follows := by
  refine ⟨fun code => ?_⟩
  induction code with
  | done => exact ⟨_, fun _ h => nomatch h⟩
  | fail err => exact ⟨_, fun _ h => nomatch h⟩
  | panic => exact ⟨_, fun _ h => nomatch h⟩
  | get cell next ih => exact ⟨_, fun _ h => by cases h; exact ih _⟩
  | getAt cell version next ih => exact ⟨_, fun _ h => by cases h; exact ih _⟩
  | getInput cell next ih => exact ⟨_, fun _ h => by cases h; exact ih _⟩
  | set cell value next ih => exact ⟨_, fun _ h => by cases h; exact ih _⟩

/-! ### A run and its layer -/

namespace Running

variable {scope : RunAt} {run : Running} {log : Log} {engine : DerivationEngine}

/-- What a run's layer holds is what the run wrote. -/
def Wrote (run : Running) (events : List Event) : Prop :=
  (∀ event ∈ events, event.at ∈ run.writeSet ∧
    event.derivation.map Derivation.producer = some run.definition.id) ∧
  ∀ record ∈ run.writeSet, ∃ event ∈ events, event.at = record

/-- The layer a run's writes are committed in. -/
def commitOf (scope : RunAt) (run : Running) (events : List Event) : Commit :=
  ⟨scope.on, .value, .derived run.definition.id scope.reflects, [], events, []⟩

/-- A run's layer is open, is its own, and holds what it wrote. -/
structure Holds (scope : RunAt) (run : Running) (log : Log) : Prop where
  owns : log.Owns run.session.handle
  branch : run.session.handle.layer.branch = scope.on
  guards : run.session.handle.layer.guards = []
  writer : run.session.writer = .producer run.definition.id
  pending : ∃ events, log.pendingAt run.session.layer = some (run.commitOf scope events) ∧ run.Wrote events

theorem Holds.spared (h : run.Holds scope log) {log' : Log} {own : LayerId → Prop} {on : BranchId}
    (hw : Log.Works on own log log') (hown : ¬ own run.session.layer) : run.Holds scope log' := by
  obtain ⟨ho, hp⟩ := hw.spares run.session.handle hown h.owns
  obtain ⟨events, hpending, hwrote⟩ := h.pending
  exact ⟨ho, h.branch, h.guards, h.writer, events, hp.trans hpending, hwrote⟩

theorem mem_noted {record other : CellAt} {records : List CellAt} :
    other ∈ noted record records ↔ other = record ∨ other ∈ records := by
  unfold noted
  split
  · rename_i hin
    exact ⟨Or.inr, fun h => h.elim (fun he => he ▸ hin) id⟩
  · rw [List.mem_append, List.mem_singleton, or_comm]

theorem Holds.readAt (h : run.Holds scope log) (seen : Log) (record : CellAt)
    (next : Except BorgError (Option Value) → Code) : (run.readAt seen record next).Holds scope log :=
  ⟨h.owns, h.branch, h.guards, h.writer, h.pending⟩

theorem Holds.put (hs : log.Sound) (h : run.Holds scope log) (cell : CellRef) (value : Value)
    (readSet : List CellAt) :
    (∃ err, run.session.put cell value (some ⟨run.definition.id, scope.reflects, readSet⟩) log = .error err log) ∨
    ∃ log', run.session.put cell value (some ⟨run.definition.id, scope.reflects, readSet⟩) log =
        .ok run.session log' ∧ Log.Works scope.on (· = run.session.layer) log log' ∧
      ∀ code, Holds scope { run with
        writeSet := noted ⟨cell, run.versionOf cell⟩ run.writeSet, code := code } log' := by
  have hnot : run.session.writer ≠ .client := by rw [h.writer]; nofun
  unfold WriteSession.put
  cases hcheck : run.session.defs.checkWrite cell value run.session.writer run.session.authority with
  | error err => exact .inl ⟨err, Calls.bind_error rfl⟩
  | ok _ =>
    have hask : (Log.ask fun _ => .ok () : LogM Unit) log = .ok () log := rfl
    have himply : run.session.implyExistence cell log = .ok run.session log := by
      unfold WriteSession.implyExistence
      rw [if_pos hnot]
      rfl
    obtain ⟨staged, hstaged, -, hopen⟩ := hs.staged_of_owns h.owns
    let draft : EventDraft := ⟨value, run.versionOf cell, run.session.writer.origin,
      some ⟨run.definition.id, scope.reflects, readSet⟩⟩
    refine .inr ⟨_, ?_, Log.works_put hs h.owns cell draft hstaged, fun code => ?_⟩
    · rw [Calls.bind_ok hask, Calls.bind_ok himply]
      refine (Calls.bind_ok (Log.put_run cell draft hstaged hopen)).trans ?_
      rw [if_neg hnot]
      rfl
    · obtain ⟨events, hpending, hwrote⟩ := h.pending
      obtain ⟨layer, hl, -⟩ := id h.owns
      refine ⟨h.owns.of_layers rfl, h.branch, h.guards, h.writer,
        events ++ [draft.event (log.storage.nextEvent + 1) cell run.session.layer], ?_, ?_, ?_⟩
      · show Log.pendingAt _ run.session.handle.id = _
        rw [Log.pendingAt_restaged hl, if_pos rfl, MemoryStorage.stagedContents_author hs.storage cell draft hstaged]
        have hp : log.pendingAt run.session.handle.id = some (run.commitOf scope events) := hpending
        unfold Log.pendingAt at hp
        rw [hl, hstaged] at hp
        have hc := Option.some.inj hp
        have hbranch : layer.branch = scope.on := congrArg Commit.branch hc
        have hkind : layer.kind = .value := congrArg Commit.kind hc
        have hauthor : layer.author = .derived run.definition.id scope.reflects := congrArg Commit.author hc
        have hevents : log.storage.stagedContents staged = events := congrArg Commit.events hc
        have hdefs : staged.defs = [] := congrArg Commit.defs hc
        rw [hbranch, hkind, hauthor, hevents]
        show some (Commit.mk _ _ _ _ _ staged.defs) = _
        rw [hdefs]
        rfl
      · intro event hin
        rcases List.mem_append.1 hin with hin | hin
        · obtain ⟨hat, hby⟩ := hwrote.1 event hin
          exact ⟨mem_noted.2 (.inr hat), hby⟩
        · obtain rfl := List.mem_singleton.1 hin
          exact ⟨mem_noted.2 (.inl rfl), rfl⟩
      · intro record hin
        rcases mem_noted.1 hin with rfl | hin
        · exact ⟨_, List.mem_append_right _ (List.mem_singleton_self _), rfl⟩
        · obtain ⟨event, he, hat⟩ := hwrote.2 record hin
          exact ⟨event, List.mem_append_left _ he, hat⟩

theorem Holds.commit (hs : log.Sound) (h : run.Holds scope log) :
    ∃ log' events, run.session.commit log = .ok run.session.layer log' ∧
      Log.Works scope.on (· = run.session.layer) log log' ∧
      log'.commitAt run.session.layer = some (run.commitOf scope events) ∧ run.Wrote events := by
  obtain ⟨staged, hstaged, -, -⟩ := hs.staged_of_owns h.owns
  obtain ⟨events, hpending, hwrote⟩ := h.pending
  refine ⟨_, events, ?_, Log.works_landing hs h.owns hstaged h.branch, ?_, hwrote⟩
  · unfold WriteSession.commit
    rw [Log.commit_run hs h.owns hstaged, h.guards]
    rfl
  · show Log.commitAt _ run.session.handle.id = _
    rw [Log.commitAt_landing hs.storage hstaged, if_pos rfl]
    obtain ⟨layer, hl, hopen, he⟩ := h.owns
    have hp : log.pendingAt run.session.handle.id = some (run.commitOf scope events) := hpending
    unfold Log.pendingAt at hp
    rw [hl, hstaged] at hp
    unfold Log.commitOf
    rw [h.guards, he]
    exact hp

theorem Holds.abort (hs : log.Sound) (h : run.Holds scope log) :
    ∃ log', run.session.abort log = .ok () log' ∧ Log.Works scope.on (· = run.session.layer) log log' :=
  ⟨_, Log.abort_run hs h.owns, Log.works_discarded hs h.owns⟩

/-- **What the next call of a run comes to.** -/
inductive Advances (scope : RunAt) (run : Running) (engine : DerivationEngine) :
    Turned × DerivationEngine → Prop
  | goes {next : Running} {log : Log} (works : Log.Works scope.on (· = run.session.layer) engine.log log)
      (holds : next.Holds scope log) (definition : next.definition = run.definition)
      (input : next.input = run.input) (layer : next.session.layer = run.session.layer)
      (follows : next.code.Follows run.code) : Advances scope run engine (.goes next, { engine with log })
  | ends {log : Log} {events : List Event} (done : run.code = .done)
      (works : Log.Works scope.on (· = run.session.layer) engine.log log)
      (committed : log.commitAt run.session.layer = some (run.commitOf scope events))
      (wrote : run.Wrote events) :
      Advances scope run engine (.ends (.ok run.session.layer), { engine with
        index := engine.index.record scope.home run.invocation run.readSet run.writeSet, log })
  | fails {log : Log} {err : BorgError} (failed : run.code = .fail err)
      (works : Log.Works scope.on (· = run.session.layer) engine.log log) :
      Advances scope run engine (.ends (.error err), { engine with log })
  | panics (panicked : run.code = .panic) : Advances scope run engine (.panics, engine)

theorem advance_advances (hs : engine.log.Sound) (h : run.Holds scope engine.log) :
    Advances scope run engine (run.advance scope engine) := by
  have hread (record : CellAt) (next : Except BorgError (Option Value) → Code)
      (hfollows : ∀ answer, (next answer).Follows run.code) :
      Advances scope run engine (.goes (run.readAt engine.log record next), engine) :=
    .goes (.refl hs) (h.readAt engine.log record next) rfl rfl rfl (hfollows _)
  unfold advance
  cases hcode : run.code with
  | done =>
    obtain ⟨log', events, hcommit, hworks, hat, hwrote⟩ := h.commit hs
    dsimp only
    rw [hcommit]
    exact .ends hcode hworks hat hwrote
  | fail err =>
    obtain ⟨log', habort, hworks⟩ := h.abort hs
    dsimp only
    rw [habort]
    exact .fails hcode hworks
  | panic => exact .panics hcode
  | get cell next => exact hread _ next fun answer => hcode ▸ .get cell next answer
  | getAt cell version next => exact hread _ next fun answer => hcode ▸ .getAt cell version next answer
  | getInput cell next => exact hread _ next fun answer => hcode ▸ .getInput cell next answer
  | set cell value next =>
    dsimp only
    rcases h.put hs cell value run.readSet with ⟨err, hput⟩ | ⟨log', hput, hworks, hholds⟩
    · rw [hput]
      exact .goes (.refl hs) ⟨h.owns, h.branch, h.guards, h.writer, h.pending⟩ rfl rfl rfl
        (hcode ▸ .set cell value next _)
    · rw [hput]
      exact .goes hworks (hholds _) rfl rfl rfl (hcode ▸ .set cell value next _)

/-- A session's definitions cannot be folded and nothing has changed, or it has opened a layer. -/
theorem openOn_run (hs : log.Sound) (branch definitions : BranchId) (version : ClientVersion)
    (writer : Writer) (author : LayerAuthor) :
    (∃ err, WriteSession.openOn branch definitions version writer author log = .error err log) ∨
    ∃ defs authority, WriteSession.openOn branch definitions version writer author log =
      .ok ⟨defs, authority, log.readPath branch none, writer, ⟨log.openedLayer branch .value author⟩, [], [], []⟩
        (log.opened branch .value author) := by
  unfold WriteSession.openOn
  rw [Calls.bind_ok Calls.get_run]
  have hask {α : Type} (question : Log → Except BorgError α) {a : α} (h : question log = .ok a) :
      Log.ask question log = .ok a log := by simp only [Log.ask, h]
  have hfail {α : Type} (question : Log → Except BorgError α) {err : BorgError} (h : question log = .error err) :
      Log.ask question log = .error err log := by simp only [Log.ask, h]
  cases hauthority : log.view (log.readPath definitions none) with
  | error err => exact .inl ⟨err, Calls.bind_error (hfail (fun log' => log'.view _) hauthority)⟩
  | ok authority =>
    rw [Calls.bind_ok (hask (fun log' => log'.view _) hauthority)]
    cases hview : log.viewAt (log.readPath definitions none) version with
    | error err => exact .inl ⟨err, Calls.bind_error (hfail (fun log' => log'.viewAt _ _) hview)⟩
    | ok defs =>
      rw [Calls.bind_ok (hask (fun log' => log'.viewAt _ _) hview),
        Calls.bind_ok (Log.openLayer_run branch .value author hs)]
      exact .inr ⟨defs, authority, rfl⟩

/-- A run that has neither read nor written, on the next layer. -/
structure Fresh (engine : DerivationEngine) (log : Log) (definition : ProducerDef) (input : Pid)
    (run : Running) : Prop where
  ofDefinition : run.definition = definition
  ofInput : run.input = input
  layer : run.session.layer = log.nextLayer
  unread : run.readSet = []
  unwritten : run.writeSet = []
  code : ∃ version, run.code = engine.executor definition.id version input log.nextLayer

theorem invocation_congr {next : Running} (hd : next.definition = run.definition) (hi : next.input = run.input) :
    next.invocation = run.invocation := by
  unfold invocation
  rw [hd, hi]

theorem Fresh.invocation_eq {definition : ProducerDef} {invocation : Invocation}
    (h : run.Fresh engine log definition invocation.input) (hp : invocation.producer = definition.id) :
    run.invocation = invocation := by
  unfold Running.invocation
  rw [h.ofDefinition, h.ofInput, ← hp]

/-- **How a run begins**: its definitions cannot be folded and nothing has changed, or it has a layer of its
own and has neither read nor written. -/
theorem begin_works (engine : DerivationEngine) (hs : log.Sound) (hon : (log.branches.lookup scope.on).isSome)
    (definition : ProducerDef)
    (input : Pid) :
    (∃ err, begin scope engine definition input log = .error err log) ∨
    ∃ run log', begin scope engine definition input log = .ok run log' ∧
      Log.Works scope.on (fun _ => False) log log' ∧ run.Holds scope log' ∧
      run.Fresh engine log definition input := by
  apply Or.elim (openOn_run hs scope.on scope.home _ (.producer definition.id)
    (.derived definition.id scope.reflects))
  · rintro ⟨err, hopen⟩
    exact .inl ⟨err, Calls.bind_error hopen⟩
  rintro ⟨defs, authority, hopen⟩
  refine .inr ⟨_, _, (Calls.bind_ok hopen).trans (Calls.bind_ok Calls.get_run),
    Log.works_opened hs hon .value (.derived definition.id scope.reflects), ⟨?_, rfl, rfl, rfl, [], ?_, ?_⟩,
    ⟨rfl, rfl, rfl, rfl, rfl, _, rfl⟩⟩
  · exact ⟨_, AList.lookup_insert _, rfl, rfl⟩
  · exact (Log.pendingAt_opened scope.on .value _ _).trans (if_pos rfl)
  · exact ⟨fun _ h => absurd h List.not_mem_nil, fun _ h => absurd h List.not_mem_nil⟩

end Running

end BorgCore
