import BorgCore.Engine.Sessions
import BorgCore.Engine.Write

/-!
# What a client writes

`Plan` is a client's session apart from the log: the records it will land, what it read and what it
counts as written.  It is a function of the definitions and of which objects exist, so two sessions
that are told the same about these do the same.  A session on the log follows its plan.
-/

namespace BorgCore

/-- What the writes of a client's session come to. -/
structure Plan where
  /-- Existence cells already written or probed. -/
  touched : List CellRef
  observed : List CellAt
  authored : List CellRef
  /-- The records written, in order. -/
  records : List (CellAt × Value)

namespace Plan

def empty : Plan := ⟨[], [], [], []⟩

def write (plan : Plan) (record : CellAt) (value : Value) : Plan :=
  { plan with
    authored := plan.authored ++ [record.cell], records := plan.records ++ [(record, value)] }

/-- Imply the object of a cell, once for each object. -/
def imply (plan : Plan) (present : CellRef → Bool) (cell : CellRef) : Plan :=
  let existence := cell.existenceOf
  if existence ∈ plan.touched then plan
  else if existence = cell then { plan with touched := existence :: plan.touched }
  else
    let probed := { plan with
      touched := existence :: plan.touched
      observed := plan.observed ++ [⟨existence, .unversioned⟩] }
    if present existence then probed else probed.write ⟨existence, .unversioned⟩ (.bool true)

/-- One write: refused by the definitions, or planned with what it implies. -/
def put (plan : Plan) (defs authority : DefView) (present : CellRef → Bool) (cell : CellRef)
    (value : Value) : Except BorgError Plan := do
  defs.checkWrite cell value .client authority
  return (plan.imply present cell).write ⟨cell, defs.versionOf cell⟩ value

def putAll (plan : Plan) (defs authority : DefView) (present : CellRef → Bool) :
    List (CellRef × Value) → Except BorgError Plan
  | [] => .ok plan
  | (cell, value) :: rest => do (← plan.put defs authority present cell value).putAll defs authority present rest

/-- Every record of a plan is at a version the definitions give, or at none. -/
def Versioned (defs : DefView) (plan : Plan) : Prop :=
  ∀ record ∈ plan.records, record.1.version = defs.versionOf record.1.cell ∨
    record.1.version = .unversioned

theorem Versioned.write {defs : DefView} {plan : Plan} (h : plan.Versioned defs) {record : CellAt}
    (value : Value) (hr : record.version = defs.versionOf record.cell ∨
      record.version = .unversioned) : (plan.write record value).Versioned defs := by
  intro other hm
  rcases List.mem_append.1 hm with hm | hm
  · exact h other hm
  · rw [List.mem_singleton.1 hm]
    exact hr

theorem Versioned.imply {defs : DefView} {plan : Plan} (h : plan.Versioned defs)
    (present : CellRef → Bool) (cell : CellRef) : (plan.imply present cell).Versioned defs := by
  unfold Plan.imply
  by_cases ht : cell.existenceOf ∈ plan.touched
  · simpa only [if_pos ht] using h
  by_cases he : cell.existenceOf = cell
  · simp only [if_neg ht, if_pos he]
    exact h
  simp only [if_neg ht, if_neg he]
  split
  · exact h
  · exact Versioned.write (by exact h) _ (Or.inr rfl)

theorem putAll_kept {kept : Plan → Prop} {defs authority : DefView} {present : CellRef → Bool}
    (hput : ∀ plan cell value, kept plan →
      kept ((plan.imply present cell).write ⟨cell, defs.versionOf cell⟩ value))
    {writes : List (CellRef × Value)} {plan plan' : Plan} (h : kept plan)
    (hp : plan.putAll defs authority present writes = .ok plan') : kept plan' := by
  induction writes generalizing plan with
  | nil =>
    cases hp
    exact h
  | cons write rest ih =>
    obtain ⟨cell, value⟩ := write
    rw [Plan.putAll, Plan.put] at hp
    cases hc : defs.checkWrite cell value .client authority with
    | error err => simp [hc, bind, Except.bind] at hp
    | ok _ =>
      simp only [hc, bind, Except.bind, pure, Except.pure] at hp
      exact ih (hput plan cell value h) hp

theorem Versioned.putAll {defs authority : DefView} {present : CellRef → Bool}
    {writes : List (CellRef × Value)} {plan plan' : Plan} (h : plan.Versioned defs)
    (hp : plan.putAll defs authority present writes = .ok plan') : plan'.Versioned defs :=
  putAll_kept (fun _ cell value h => (h.imply present cell).write value (Or.inl rfl)) h hp

/-- The cells a plan writes are those of its records. -/
def Listed (plan : Plan) : Prop := plan.authored = plan.records.map fun record => record.1.cell

theorem Listed.write {plan : Plan} (h : plan.Listed) (record : CellAt) (value : Value) :
    (plan.write record value).Listed := by
  show plan.authored ++ [record.cell] = (plan.records ++ [(record, value)]).map _
  rw [List.map_append, h]
  rfl

theorem Listed.imply {plan : Plan} (h : plan.Listed) (present : CellRef → Bool) (cell : CellRef) :
    (plan.imply present cell).Listed := by
  unfold Plan.imply
  by_cases ht : cell.existenceOf ∈ plan.touched
  · simpa only [if_pos ht] using h
  by_cases he : cell.existenceOf = cell
  · simp only [if_neg ht, if_pos he]
    exact h
  simp only [if_neg ht, if_neg he]
  split
  · exact h
  · exact Listed.write (by exact h) _ _

theorem Listed.putAll {defs authority : DefView} {present : CellRef → Bool}
    {writes : List (CellRef × Value)} {plan plan' : Plan} (h : plan.Listed)
    (hp : plan.putAll defs authority present writes = .ok plan') : plan'.Listed :=
  putAll_kept (fun _ cell value h => (h.imply present cell).write ⟨cell, defs.versionOf cell⟩ value) h hp

/-- A single write asks after no object but its own. -/
theorem observed_of_put {defs authority : DefView} {present : CellRef → Bool} {cell : CellRef}
    {value : Value} {plan : Plan} (hp : empty.putAll defs authority present [(cell, value)] = .ok plan)
    {read : CellAt} (hm : read ∈ plan.observed) :
    read = ⟨cell.existenceOf, .unversioned⟩ ∧ cell.existenceOf ≠ cell := by
  rw [Plan.putAll, Plan.put] at hp
  cases hc : defs.checkWrite cell value .client authority with
  | error err => simp [hc, bind, Except.bind] at hp
  | ok _ =>
    simp only [hc, bind, Except.bind, pure, Except.pure, Plan.putAll, Except.ok.injEq] at hp
    rw [← hp] at hm
    replace hm : read ∈ (empty.imply present cell).observed := hm
    have ht : cell.existenceOf ∉ empty.touched := List.not_mem_nil
    unfold Plan.imply at hm
    by_cases he : cell.existenceOf = cell
    · simp only [if_neg ht, if_pos he] at hm
      cases hm
    · refine ⟨?_, he⟩
      simp only [if_neg ht, if_neg he] at hm
      split at hm
      · exact List.mem_singleton.1 hm
      · exact List.mem_singleton.1 hm

end Plan

/-- A cell that is not a property is its own existence cell; any other's is unversioned. -/
theorem DefView.versionOf_existence (view : DefView) {cell : CellRef}
    (h : cell.existenceOf ≠ cell) : view.versionOf cell.existenceOf = .unversioned := by
  obtain ⟨buffer, key⟩ := cell
  cases buffer with
  | objectProp structName field => rfl
  | _ => exact absurd rfl h

/-- The events of a client's layer are these records, in order. -/
def Records (events : List Event) (records : List (CellAt × Value)) : Prop :=
  events.map (fun event => (event.at, event.value)) = records ∧
    ∀ event ∈ events, event.origin = .source ∧ event.derivation = none

theorem Records.append {events : List Event} {records : List (CellAt × Value)}
    (h : Records events records) {event : Event} (ho : event.origin = .source)
    (hd : event.derivation = none) :
    Records (events ++ [event]) (records ++ [(event.at, event.value)]) := by
  refine ⟨by simp [← h.1], fun other hm => ?_⟩
  rcases List.mem_append.1 hm with hm | hm
  · exact h.2 other hm
  · rw [List.mem_singleton.1 hm]
    exact ⟨ho, hd⟩

/-- Whether an object's existence cell has a record along a path. -/
def Log.present (log : Log) (path : ReadPath) (existence : CellRef) : Bool :=
  match log.storage.getCell path existence .unversioned with
  | .ok (some _) => true
  | _ => false

namespace WriteSession

variable {start log : Log} {session : WriteSession} {plan : Plan} {branch : BranchId}

/-- A session that stands where a plan does. -/
def standing (session : WriteSession) (plan : Plan) : WriteSession :=
  { session with touched := plan.touched, observed := plan.observed, authored := plan.authored }

/-- A client's session follows a plan: its layer holds what the plan has written. -/
def Follows (start : Log) (session : WriteSession) (branch : BranchId) (plan : Plan) (log : Log) :
    Prop :=
  session.writer = .client ∧ ∃ events,
    start.Writing session.handle ⟨branch, .value, .source, [], events, []⟩ log ∧
      Records events plan.records

/-- While a layer is open, reads answer as they did when it was opened. -/
theorem getCell_of_writing {handle : LayerHandle} {commit : Commit}
    (hw : start.Writing handle commit log) (hs : start.Sound) (path : ReadPath) (cell : CellRef)
    (version : DefVersion) :
    log.storage.getCell path cell version = start.storage.getCell path cell version := by
  have heq : log.recordAt cell version = start.recordAt cell version := by
    funext branch id
    simp only [Log.recordAt, hw.commitAt]
  rw [hw.sound.getCell, hs.getCell, heq]

theorem Follows.write (hf : Follows start session branch plan log) (cell : CellRef)
    (version : DefVersion) (value : Value) :
    ∃ id log', Log.put session.handle cell ⟨value, version, session.writer.origin, none⟩ log =
        .ok id log' ∧
      Follows start session branch (plan.write ⟨cell, version⟩ value) log' := by
  obtain ⟨hwriter, events, hw, hr⟩ := hf
  obtain ⟨log', hput, hw'⟩ := hw.put cell ⟨value, version, session.writer.origin, none⟩
  refine ⟨_, log', hput, hwriter, _, hw', ?_⟩
  exact hr.append (by rw [hwriter]; rfl) rfl

/-- The probe: whatever it finds, the session goes on as planned. -/
theorem Follows.imply (hs : start.Sound) (hf : Follows start session branch plan log)
    (cell : CellRef) :
    ∃ log', (session.standing plan).implyExistence cell log =
        .ok (session.standing (plan.imply (start.present session.path) cell)) log' ∧
      Follows start session branch (plan.imply (start.present session.path) cell) log' := by
  have hwriter := hf.1
  unfold implyExistence Plan.imply
  simp only [standing, hwriter, ne_eq, not_true_eq_false, if_false]
  by_cases ht : cell.existenceOf ∈ plan.touched
  · simp only [if_pos ht]
    exact ⟨log, rfl, hf⟩
  by_cases he : cell.existenceOf = cell
  · simp only [if_neg ht, if_pos he]
    exact ⟨log, rfl, hf⟩
  simp only [if_neg ht, if_neg he, session.defs.versionOf_existence he]
  obtain ⟨_, events, hw, hr⟩ := hf
  have hread := getCell_of_writing hw hs session.path cell.existenceOf .unversioned
  have hstart := hs.getCell session.path cell.existenceOf .unversioned
  generalize (Timeline.nearest _ _).map _ = found at hstart
  rw [hstart] at hread
  have hask : Log.ask (fun log => log.storage.getCell session.path cell.existenceOf .unversioned) log =
      .ok found log := by
    simp only [Log.ask, hread]
  rw [Calls.bind_ok hask]
  cases found with
  | some found =>
    have hpresent : start.present session.path cell.existenceOf = true := by
      simp only [Log.present, hstart]
    rw [if_pos hpresent]
    exact ⟨log, rfl, hwriter, events, hw, hr⟩
  | none =>
    have hpresent : ¬ start.present session.path cell.existenceOf = true := by
      simp only [Log.present, hstart, Bool.false_eq_true, not_false_eq_true]
    rw [if_neg hpresent]
    have hf : Follows start session branch { plan with
        touched := cell.existenceOf :: plan.touched
        observed := plan.observed ++ [⟨cell.existenceOf, .unversioned⟩] } log :=
      ⟨hwriter, events, hw, hr⟩
    obtain ⟨id, log', hput, hf'⟩ := hf.write cell.existenceOf .unversioned (.bool true)
    simp only
    rw [hwriter] at hput
    rw [Calls.bind_ok hput]
    exact ⟨log', rfl, hf'⟩

/-- **One write follows its plan.** -/
theorem Follows.put (hs : start.Sound) (hf : Follows start session branch plan log) (cell : CellRef)
    (value : Value) :
    match plan.put session.defs session.authority (start.present session.path) cell value with
    | .error err => (session.standing plan).put cell value none log = .error err log
    | .ok plan' => ∃ log', (session.standing plan).put cell value none log =
          .ok (session.standing plan') log' ∧ Follows start session branch plan' log' := by
  have hwriter : (session.standing plan).writer = .client := hf.1
  unfold Plan.put WriteSession.put
  rw [hwriter]
  cases hc : session.defs.checkWrite cell value .client session.authority with
  | error err =>
    have hask : (Log.ask fun _ => (session.standing plan).defs.checkWrite cell value .client
        (session.standing plan).authority : LogM Unit) log = .error err log := by
      simp only [Log.ask, standing, hc]
    exact Calls.bind_error hask
  | ok _ =>
    have hask : (Log.ask fun _ => (session.standing plan).defs.checkWrite cell value .client
        (session.standing plan).authority : LogM Unit) log = .ok () log := by
      simp only [Log.ask, standing, hc]
    obtain ⟨log₁, himply, hf₁⟩ := hf.imply hs cell
    obtain ⟨id, log₂, hput, hf₂⟩ := hf₁.write cell (session.defs.versionOf cell) value
    refine ⟨log₂, ?_, hf₂⟩
    rw [Calls.bind_ok hask, Calls.bind_ok himply]
    have hput' : Log.put (session.standing (plan.imply (start.present session.path) cell)).handle cell
        ⟨value, (session.standing (plan.imply (start.present session.path) cell)).defs.versionOf cell,
          (session.standing (plan.imply (start.present session.path) cell)).writer.origin, none⟩ log₁ =
        .ok id log₂ := hput
    rw [Calls.bind_ok hput']
    simp only [standing, hf.1, if_true]
    rfl

/-- **The writes of a session follow their plan**, and a session that is refused leaves nothing. -/
theorem Follows.putAll (hs : start.Sound) (hf : Follows start session branch plan log)
    (writes : List (CellRef × Value)) :
    match plan.putAll session.defs session.authority (start.present session.path) writes with
    | .error err => ∃ log', (session.standing plan).putAll writes log = .error err log' ∧
        start.Lands [] log'
    | .ok plan' => ∃ log', (session.standing plan).putAll writes log =
          .ok (session.standing plan') log' ∧ Follows start session branch plan' log' := by
  induction writes generalizing plan log with
  | nil => exact ⟨log, rfl, hf⟩
  | cons write rest ih =>
    obtain ⟨cell, value⟩ := write
    have hput := hf.put hs cell value
    rw [Plan.putAll, WriteSession.putAll]
    cases hp : plan.put session.defs session.authority (start.present session.path) cell value with
    | error err =>
      rw [hp] at hput
      obtain ⟨_, events, hw, _⟩ := hf
      obtain ⟨log', habort, hl⟩ := hw.aborts
      have habort : (session.standing plan).abort log = .ok () log' := habort
      refine ⟨log', ?_, hl⟩
      simp only [hput, habort]
    | ok plan' =>
      rw [hp] at hput
      obtain ⟨log', hput, hf'⟩ := hput
      simp only [hput]
      exact ih hf'

theorem openClient_run (hs : start.Sound) (hb : (start.branches.lookup branch).isSome)
    {version : ClientVersion} {authority defs : DefView}
    (ha : start.view (start.readPath branch none) = .ok authority)
    (hd : start.viewAt (start.readPath branch none) version = .ok defs) :
    ∃ session log, openClient branch version start = .ok (session.standing .empty) log ∧
      session.defs = defs ∧ session.authority = authority ∧
      session.path = start.readPath branch none ∧ Follows start session branch .empty log := by
  obtain ⟨handle, log, hopen, hw⟩ := Log.Writing.openLayer hs hb .value .source
  have hempty : Records [] Plan.empty.records := ⟨rfl, by simp⟩
  refine ⟨⟨defs, authority, start.readPath branch none, .client, handle, [], [], []⟩, log, ?_, rfl, rfl,
    rfl, rfl, [], hw, hempty⟩
  have hauth : Log.ask (fun log => log.view (start.readPath branch none)) start = .ok authority start := by
    simp only [Log.ask, ha]
  have hview : Log.ask (fun log => log.viewAt (start.readPath branch none) version) start =
      .ok defs start := by
    simp only [Log.ask, hd]
  rw [openClient, openOn, Calls.bind_ok Calls.get_run, Calls.bind_ok hauth, Calls.bind_ok hview,
    Calls.bind_ok hopen]
  rfl

end WriteSession

/-- What a client's layer on a branch looks like. -/
def Commit.client (branch : BranchId) (events : List Event) : Commit :=
  ⟨branch, .value, .source, [], events, []⟩

/-- **A client's session, from open to commit**: it lands what it planned as one layer, or is refused
and lands nothing. -/
theorem clientWrite_run {start : Log} {branch : BranchId} (hs : start.Sound)
    (hb : (start.branches.lookup branch).isSome) {version : ClientVersion} {authority defs : DefView}
    (ha : start.view (start.readPath branch none) = .ok authority)
    (hd : start.viewAt (start.readPath branch none) version = .ok defs)
    (writes : List (CellRef × Value)) :
    match Plan.empty.putAll defs authority (start.present (start.readPath branch none)) writes with
    | .error err => ∃ log, clientWrite branch version writes start = .error err log ∧ start.Lands [] log
    | .ok plan => ∃ session log events, clientWrite branch version writes start = .ok session log ∧
        session.observed = plan.observed ∧ session.authored = plan.authored ∧
        Records events plan.records ∧ start.Lands [(start.nextLayer, .client branch events)] log := by
  obtain ⟨session, log, hopen, rfl, rfl, hpath, hf⟩ := WriteSession.openClient_run hs hb ha hd
  have hputs := hf.putAll hs writes
  rw [hpath] at hputs
  cases hp : Plan.empty.putAll session.defs session.authority
      (start.present (start.readPath branch none)) writes with
  | error err =>
    rw [hp] at hputs
    obtain ⟨log', hputs, hl⟩ := hputs
    refine ⟨log', ?_, hl⟩
    rw [clientWrite, Calls.bind_ok hopen]
    exact Calls.bind_error hputs
  | ok plan =>
    rw [hp] at hputs
    obtain ⟨log', hputs, _, events, hw, hr⟩ := hputs
    obtain ⟨log'', hcommit, hl⟩ := hw.lands
    refine ⟨session.standing plan, log'', events, ?_, rfl, rfl, hr, hw.id ▸ hl⟩
    rw [clientWrite, Calls.bind_ok hopen, Calls.bind_ok hputs]
    exact Calls.bind_ok hcommit

end BorgCore
