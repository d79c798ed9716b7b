import BorgCore.Engine.Housing
import BorgCore.Engine.Merge

/-!
# A visible property has a visible object

Clients hold write sessions open, on any branches, and put to them in any order while others commit,
fork and merge.  Every property record a client ever commits is housed, and a merge houses on the
parent what was housed on the child: what the child wrote itself is replayed below it, and what the
child inherited the parent has.
-/

namespace BorgCore

/-- A log, the write sessions clients hold open on it, and its transactions. -/
structure Clients where
  log : Log
  sessions : AssocMap LayerId WriteSession
  transactions : List Transaction

namespace Clients

open Log

/-- One step: a call on one session, or a whole call on the log.  A transaction's sessions are sessions
on its branch; what it has read and written by the time it merges is its own affair. -/
inductive Step (clients : Clients) : Clients → Prop where
  | createRoot (name : Option String) :
      Step clients { clients with log := after (createRoot name clients.log) }
  | fork (parent : BranchId) (origin : LayerId) (name : Option String) :
      Step clients { clients with log := after (fork parent origin name clients.log) }
  | push (branch : BranchId) (events : List DefEvent)
      (hb : (clients.log.branches.lookup branch).isSome) :
      Step clients { clients with log := after (push branch events clients.log) }
  | openClient (branch : BranchId) (version : ClientVersion) {session : WriteSession} {log : Log}
      (hb : (clients.log.branches.lookup branch).isSome)
      (hopen : WriteSession.openClient branch version clients.log = .ok session log) :
      Step clients { clients with log, sessions := clients.sessions.insert session.layer session }
  | guard {id : LayerId} {session : WriteSession} (hs : clients.sessions.lookup id = some session)
      (guard : Guard) :
      Step clients { clients with
        sessions := clients.sessions.insert id { session with handle := session.handle.guard guard } }
  | put {id : LayerId} {session session' : WriteSession} {log : Log} (cell : CellRef) (value : Value)
      (hs : clients.sessions.lookup id = some session)
      (hput : session.put cell value none clients.log = .ok session' log) :
      Step clients { clients with log, sessions := clients.sessions.insert id session' }
  | refused {id : LayerId} {session : WriteSession} {log : Log} {err : BorgError} (cell : CellRef)
      (value : Value) (hs : clients.sessions.lookup id = some session)
      (hput : session.put cell value none clients.log = .error err log) : Step clients { clients with log }
  | commit {id : LayerId} {session : WriteSession} (hs : clients.sessions.lookup id = some session) :
      Step clients { clients with
        log := after (session.commit clients.log), sessions := clients.sessions.erase id }
  | abort {id : LayerId} {session : WriteSession} (hs : clients.sessions.lookup id = some session) :
      Step clients { clients with
        log := after (session.abort clients.log), sessions := clients.sessions.erase id }
  | merge (child : BranchId) (mode : MergeMode) :
      Step clients { clients with log := after (merge child mode clients.log) }
  | txBegin (branch : BranchId) (name : Option String) {tx : Transaction} {log : Log}
      (hb : (clients.log.branches.lookup branch).isSome)
      (ht : txBegin branch name clients.log = .ok tx log) :
      Step clients { clients with log, transactions := tx :: clients.transactions }
  | txMerge (tx : Transaction) (reads : List CellAt) (writes : List CellRef) (mode : MergeMode)
      (ht : tx ∈ clients.transactions) :
      Step clients { clients with
        log := after (mergeTransaction { tx with reads, writes } mode clients.log) }

variable {clients clients' : Clients} {log : Log} {id : LayerId} {session : WriteSession}
  {commits : List (LayerId × Commit)}

def Reachable (clients : Clients) : Prop := Relation.ReflTransGen Step ⟨Log.new, ∅, []⟩ clients

/-- What every step keeps true. -/
structure Good (clients : Clients) : Prop where
  sound : clients.log.Sound
  unmixed : clients.log.All Unmixed
  housed : ∀ id commit, clients.log.commitAt id = some commit → clients.log.Housed id commit
  anchored : ∀ tx ∈ clients.transactions,
    clients.log.Anchored tx.branch tx.parent tx.forkPoint
  sessions : ∀ id session, clients.sessions.lookup id = some session →
    ∃ branch events, clients.log.Houses id session branch events

theorem good_new : Good ⟨Log.new, ∅, []⟩ where
  sound := sound_new
  unmixed := nofun
  housed := nofun
  anchored := nofun
  sessions id session hs := by simp at hs

/-! ### Steps on the log -/

theorem registered_of_commitAt (h : log.Sound) {commit : Commit} (hc : log.commitAt id = some commit) :
    (log.branches.lookup commit.branch).isSome := by
  obtain ⟨layer, hl, _, hb, _⟩ := commitAt_eq_some hc
  obtain ⟨found, hf, _⟩ := h.layer_branch hl
  rw [hb, hf]
  rfl

theorem Good.adds (h : clients.Good) (hl : Adds clients.log commits log)
    (hu : ∀ landed ∈ commits, Unmixed landed.1 landed.2)
    (hh : ∀ landed ∈ commits, log.Housed landed.1 landed.2)
    (hsp : Spares (clients.log.nextLayer ≤ ·) clients.log log) : Good { clients with log } where
  sound := hl.sound
  unmixed := hl.all h.unmixed hu
  housed id commit hc := by
    rcases (hl.commits_iff id commit).1 hc with hold | hm
    · exact (h.housed id commit hold).grows hl.grows h.sound (registered_of_commitAt h.sound hold)
    · exact hh _ hm
  anchored tx ht := (h.anchored tx ht).grows hl.grows h.sound
  sessions id session hs := by
    obtain ⟨branch, events, hhouses⟩ := h.sessions id session hs
    refine ⟨branch, events, hhouses.spared h.sound hl.grows hsp ?_⟩
    rw [← hhouses.handle]
    exact Nat.not_le.2 (h.sound.owns_lt hhouses.owns)

theorem Good.branched (h : clients.Good) (name : Option String) {origin : Option LayerId}
    (ho : ∀ id, origin = some id → ∃ parent, clients.log.branchOf id = some parent) :
    Good { clients with log := clients.log.branched name origin } :=
  h.adds (Adds.branched h.sound name origin ho) (by simp) (by simp) (spares_branched name origin)

theorem Good.push (h : clients.Good) {branch : BranchId}
    (hb : (clients.log.branches.lookup branch).isSome) (events : List DefEvent) :
    Good { clients with log := after (push branch events clients.log) } := by
  have hsp := push_spares h.sound hb events
  cases hv : clients.log.view (clients.log.readPath branch none) with
  | error err =>
    have hask : ask (fun log => log.view (log.readPath branch none)) clients.log =
        .error err clients.log := by
      simp only [ask, hv]
    have hrun : Log.push branch events clients.log = .error err clients.log := Calls.bind_error hask
    rw [hrun]
    exact h
  | ok view =>
    have hrun := push_run h.sound hb events hv
    cases ha : view.applyAll clients.log.nextLayer events with
    | error err =>
      rw [ha] at hrun
      obtain ⟨log, hrun, hl⟩ := hrun
      rw [hrun] at hsp ⊢
      exact h.adds hl.toAdds (by simp) (by simp) hsp
    | ok next =>
      rw [ha] at hrun
      obtain ⟨log, hrun, hl⟩ := hrun
      rw [hrun] at hsp ⊢
      refine h.adds hl.toAdds (by simp [Unmixed]) (fun landed hm => ?_) hsp
      rw [List.mem_singleton.1 hm]
      exact ⟨rfl, fun _ => rfl, fun event he => by cases he⟩

/-- **A merge houses on the parent what was housed on the child.** -/
theorem replayed_housed {child parent : BranchId} {since : LayerId} {mode : MergeMode}
    {reads : List CellRef} {log' : Log} (h : log.Sound)
    (hh : ∀ id commit, log.commitAt id = some commit → log.Housed id commit)
    (ha : log.Anchored child parent since)
    (hr : log.Replayed child parent since mode reads commits log') :
    ∀ landed ∈ commits, log'.Housed landed.1 landed.2 := by
  obtain ⟨names, hlanded, _⟩ := hr.names h
  intro landed hm
  have hcommit := hr.lands.toAdds.mem hm
  rw [hlanded] at hm
  obtain ⟨source, hs, rfl⟩ := List.mem_map.1 hm
  obtain ⟨hreplayed, hc⟩ := mem_sourcesOf.1 hs
  have hsource := hh source.1 source.2 hc
  refine ⟨rfl, hsource.defs, fun event he hne => ?_⟩
  cases mode with
  | defOnly =>
    -- A def layer holds no value events.
    obtain ⟨commit, hc', _, _, hk⟩ := h.mem_replayableLayers.1 hreplayed
    rw [hc] at hc'
    cases hc'
    rw [Commit.onto, hsource.defs (hk rfl)] at he
    cases he
  | defAndData =>
    obtain ⟨commit, hc', hbr, _⟩ := h.mem_replayableLayers.1 hreplayed
    rw [hc] at hc'
    cases hc'
    obtain ⟨segment, hseg, e, hle, hrec⟩ := hsource.seen event he hne
    have hon : log.CommittedOn child source.1 := ⟨_, hc, hbr⟩
    have hon' : log'.branchOf (names source.1) = some parent :=
      CommittedOn.branchOf ⟨_, hcommit, rfl⟩
    have hnew := hr.names_new h hlanded hreplayed
    rw [hbr, h.readPath_some hon.branchOf] at hseg
    show log'.Seen (log'.readPath parent (some (names source.1))) _ _
    rcases List.mem_cons.1 hseg with rfl | houter
    · -- The child's own record is replayed below the property.
      obtain ⟨found, hfound⟩ := Option.isSome_iff_exists.1 hrec
      obtain ⟨ecommit, hec, heb, _⟩ := recordAt_isSome_iff.1 hrec
      have hereplayed : e ∈ log.replayableLayers child .defAndData :=
        h.mem_replayableLayers.2 ⟨ecommit, hec, heb, (hh e ecommit hec).source, by intro hkind; cases hkind⟩
      have hnames : names e ≤ names source.1 := by
        rcases Nat.eq_or_lt_of_le hle with rfl | hlt
        · exact Nat.le_refl _
        · exact Nat.le_of_lt (hr.names_lt h hlanded hereplayed hreplayed hlt)
      refine ⟨(parent, names source.1), ?_, names e, hnames, ?_⟩
      · rw [hr.lands.sound.readPath_some hon']
        exact List.mem_cons_self
      · rw [(hr.recordAt_iff h hlanded).2 (Or.inr ⟨e, hereplayed, rfl, hfound⟩)]
        rfl
    · -- What the child was forked with lies on the parent's path.
      cases ho : log.outward child with
      | none =>
        rw [ho] at houter
        cases houter
      | some next =>
        obtain ⟨owner, origin⟩ := next
        rw [ho] at houter
        have hg := hr.lands.grows
        have ho' : log'.outward child = some (owner, origin) := by
          rw [hg.outward ha.registered.1 h, ho]
        have hlt : since < names source.1 := by
          obtain ⟨owner', hout, _⟩ := ha.anchor
          exact Nat.lt_of_lt_of_le (h.outward_lt_next hout) hnew
        have hseen : log.Seen (log.readPath owner (some origin)) event.cell.existenceOf .unversioned :=
          ⟨segment, houter, e, hle, hrec⟩
        have hseen' := hseen.grows hg
        rw [← hg.readPath_some h (h.outward_registered ho)] at hseen'
        exact hseen'.within ((ha.grows hg h).within hr.lands.sound ho' hon' hlt)

theorem Good.replayed (h : clients.Good) {child parent : BranchId} {since : LayerId}
    {mode : MergeMode} {reads : List CellRef}
    (ha : clients.log.Anchored child parent since)
    (hr : clients.log.Replayed child parent since mode reads commits log)
    (hsp : Spares (clients.log.nextLayer ≤ ·) clients.log log) : Good { clients with log } := by
  refine h.adds hr.lands.toAdds (fun landed hm => ?_) (replayed_housed h.sound h.housed ha hr) hsp
  obtain ⟨names, hlanded, _⟩ := hr.names h.sound
  rw [hlanded] at hm
  obtain ⟨source, hs, rfl⟩ := List.mem_map.1 hm
  exact h.unmixed source.1 source.2 (mem_sourcesOf.1 hs).2

/-! ### Steps of a session -/

theorem Good.written (h : clients.Good) {session' : WriteSession} {branch : BranchId}
    {events : List Event} (hw : Written id clients.log log)
    (hs : log.Houses id session' branch events) :
    Good { clients with log, sessions := clients.sessions.insert id session' } where
  sound := hw.sound
  unmixed id commit hc := h.unmixed id commit (by rwa [hw.commitAt] at hc)
  housed id commit hc := by
    rw [hw.commitAt] at hc
    exact (h.housed id commit hc).grows hw.grows h.sound (registered_of_commitAt h.sound hc)
  anchored tx ht := (h.anchored tx ht).grows hw.grows h.sound
  sessions other session hother := by
    rw [AssocMap.lookup_insert_eq] at hother
    split at hother
    · rename_i hid
      cases hother
      exact ⟨branch, events, hid ▸ hs⟩
    · rename_i hid
      obtain ⟨branch', events', hhouses⟩ := h.sessions other session hother
      exact ⟨branch', events', hhouses.spared h.sound hw.grows hw.spares hid⟩

theorem Good.ended (h : clients.Good) (hsound : log.Sound) (hg : Grows clients.log log)
    (hsp : Spares (· = id) clients.log log)
    (hcommits : ∀ other commit, log.commitAt other = some commit →
      clients.log.commitAt other = some commit ∨ Unmixed other commit ∧ log.Housed other commit) :
    Good { clients with log, sessions := clients.sessions.erase id } where
  sound := hsound
  unmixed other commit hc := by
    rcases hcommits other commit hc with hold | hnew
    · exact h.unmixed other commit hold
    · exact hnew.1
  housed other commit hc := by
    rcases hcommits other commit hc with hold | hnew
    · exact (h.housed other commit hold).grows hg h.sound (registered_of_commitAt h.sound hold)
    · exact hnew.2
  anchored tx ht := (h.anchored tx ht).grows hg h.sound
  sessions other session hother := by
    rw [AssocMap.lookup_erase_eq] at hother
    split at hother
    · cases hother
    · rename_i hid
      obtain ⟨branch, events, hhouses⟩ := h.sessions other session hother
      exact ⟨branch, events, hhouses.spared h.sound hg hsp hid⟩

theorem Good.aborted (h : clients.Good) (hs : clients.sessions.lookup id = some session) :
    Good { clients with
      log := clients.log.discarded session.handle.layer, sessions := clients.sessions.erase id } := by
  obtain ⟨branch, events, hhouses⟩ := h.sessions id session hs
  have hmove : Move clients.log (clients.log.discarded session.handle.layer) := .discarded hhouses.owns
  refine h.ended (hmove.sound h.sound) (hmove.grows h.sound) ?_ fun other commit hc => Or.inl ?_
  · exact spares_discarded.mono fun _ hid => hid.trans hhouses.handle
  · rwa [commitAt_discarded h.sound hhouses.owns] at hc

/-- **A session commits what it has housed.** -/
theorem Good.committed (h : clients.Good) (hs : clients.sessions.lookup id = some session) :
    Good { clients with
      log := after (session.commit clients.log), sessions := clients.sessions.erase id } := by
  obtain ⟨branch, events, hhouses⟩ := h.sessions id session hs
  obtain ⟨staged, hst, _⟩ := hhouses.staged h.sound
  have hst' : clients.log.storage.staged.lookup session.handle.id = some staged := by
    rw [hhouses.handle, hst]
  rw [WriteSession.commit, commit_run h.sound hhouses.owns hst']
  split
  · have hmove : Move clients.log (clients.log.landing session.handle.layer staged) :=
      .landing hhouses.owns hst'
    refine h.ended (hmove.sound h.sound) (hmove.grows h.sound) ?_ fun other commit hc => ?_
    · exact (spares_landing h.sound hst').mono fun _ hid => hid.trans hhouses.handle
    · rw [after_ok, commitAt_landing h.sound.storage hst', hhouses.handle] at hc
      split at hc
      · rename_i hid
        cases hc
        subst hid
        exact Or.inr (hhouses.landed h.sound hst)
      · exact Or.inl hc
  · exact h.aborted hs

/-! ### Every step -/

/-- **Every step keeps what clients have written housed.** -/
theorem Step.good (h : clients.Good) (hstep : Step clients clients') : clients'.Good := by
  cases hstep with
  | createRoot name =>
    rw [createRoot_run h.sound]
    exact h.branched name nofun
  | fork parent origin name =>
    by_cases hp : clients.log.branchOf origin = some parent
    · rw [fork_run h.sound hp]
      exact h.branched name fun id hid => ⟨parent, by cases hid; exact hp⟩
    · obtain ⟨err, he⟩ := fork_error hp name
      rw [he]
      exact h
  | push branch events hb => exact h.push hb events
  | @openClient branch version session log hb hopen =>
    have hhouses := WriteSession.openClient_houses h.sound hb hopen
    obtain ⟨_, _, _, _, rfl⟩ := WriteSession.openClient_ok h.sound hopen
    have hmove : Move clients.log (clients.log.opened branch .value .source) :=
      .opened branch .value .source hb
    have hlayer : session.layer = clients.log.nextLayer := hhouses.handle
    rw [hlayer]
    exact h.written ⟨hmove.sound h.sound, hmove.grows h.sound,
      spares_opened h.sound branch .value .source,
      commitAt_opened branch .value .source h.sound⟩ hhouses
  | @guard id session hs guard =>
    obtain ⟨branch, events, hhouses⟩ := h.sessions id session hs
    exact h.written (.refl h.sound id) ⟨⟨hhouses.writer, hhouses.handle, hhouses.owns.guard guard,
      hhouses.pending, hhouses.path⟩, hhouses.touched, hhouses.housed⟩
  | @put id session session' log cell value hs hput =>
    obtain ⟨branch, events, hhouses⟩ := h.sessions id session hs
    rcases WriteSession.put_houses h.sound hhouses cell value with
      ⟨err, he⟩ | ⟨session'', log', events', hput', hw, hhouses'⟩
    · rw [he] at hput
      cases hput
    · rw [hput'] at hput
      cases hput
      exact h.written hw hhouses'
  | @refused id session log err cell value hs hput =>
    obtain ⟨branch, events, hhouses⟩ := h.sessions id session hs
    rcases WriteSession.put_houses h.sound hhouses cell value with
      ⟨err', he⟩ | ⟨_, _, _, hput', _⟩
    · rw [he] at hput
      cases hput
      exact h
    · rw [hput'] at hput
      cases hput
  | commit hs => exact h.committed hs
  | @abort id session hs =>
    obtain ⟨branch, events, hhouses⟩ := h.sessions id session hs
    rw [WriteSession.abort, abort_run h.sound hhouses.owns]
    exact h.aborted hs
  | merge child mode =>
    have hsp := merge_spares h.sound h.unmixed child mode
    rcases merge_run h.sound h.unmixed child mode with
      ⟨err, he⟩ | ⟨parent, origin, landed, log, ho, hrun, hr⟩
    · rw [he]
      exact h
    · rw [hrun] at hsp ⊢
      exact h.replayed (h.sound.anchored_of_outward ho) hr hsp
  | @txBegin branch name tx log hb ht =>
    obtain ⟨owner, _, rfl, hp, _⟩ := txBegin_ok h.sound ht
    have hbranched := @Good.branched clients h name (some tx.forkPoint) fun id hid =>
      ⟨owner, by cases hid; exact hp⟩
    refine ⟨hbranched.sound, hbranched.unmixed, hbranched.housed, fun other hm => ?_,
      hbranched.sessions⟩
    rcases List.mem_cons.1 hm with rfl | hm
    · exact (h.sound.anchored_txBegin hb ht).2
    · exact hbranched.anchored other hm
  | txMerge tx reads writes mode ht =>
    have ha := h.anchored tx ht
    have hsp := @replay_spares clients.log tx.parent tx.branch h.sound ha.registered.2 h.unmixed
      tx.forkPoint mode (Transaction.guards { tx with reads, writes })
    rcases replay_run h.sound ha.registered.2 h.unmixed tx.forkPoint mode
      (Transaction.guards { tx with reads, writes }) with ⟨err, he⟩ | ⟨landed, log, hrun, hr⟩
    · rw [mergeTransaction, he]
      exact h
    · rw [hrun] at hsp
      rw [mergeTransaction, hrun]
      exact h.replayed ha hr hsp

theorem Reachable.good (h : clients.Reachable) : clients.Good := by
  induction h with
  | refl => exact good_new
  | tail _ hstep ih => exact hstep.good ih

/-! ### What is visible -/

/-- **A visible property has a visible object.**  On every branch and at every bound, where a property
of an object has a record, so does the object's existence cell, and the scan of the struct's buffer
lists the object. -/
theorem property_has_object (h : clients.Reachable) {branch : BranchId} {requested : Option LayerId}
    {cell : CellRef} {structName : ObjectTypeName} {field : FieldName} {version : DefVersion}
    {found : Landed} (hcell : cell.buffer = .objectProp structName field)
    (hfound : clients.log.storage.getCell (clients.log.readPath branch requested) cell version =
      .ok (some found)) :
    (∃ object, clients.log.storage.getCell (clients.log.readPath branch requested)
        (.existence structName cell.pid) .unversioned = .ok (some object)) ∧
      ∃ rows, clients.log.storage.scanBuffer (clients.log.readPath branch requested)
          (.object structName) = .ok rows ∧ ∃ row ∈ rows, row.cell = .existence structName cell.pid := by
  have hgood := h.good
  have hexistence : cell.existenceOf = .existence structName cell.pid := by
    unfold CellRef.existenceOf
    rw [hcell]
  have hne : cell.existenceOf ≠ cell := by
    intro he
    have hbuffer := congrArg CellRef.buffer he
    rw [hexistence, hcell] at hbuffer
    cases hbuffer
  obtain ⟨segment, hm, id, hle, hrec⟩ := hgood.sound.seen_iff.2 ⟨found, hfound⟩
  obtain ⟨commit, hc, hb, event, he, hat⟩ := recordAt_isSome_iff.1 hrec
  have hevent : event.cell = cell := congrArg CellAt.cell hat
  have hseen := (hgood.housed id commit hc).seen event he (by rw [hevent]; exact hne)
  rw [hevent, hb] at hseen
  have hobject := hseen.within (hgood.sound.readPath_within hm ⟨commit, hc, hb⟩ hle)
  rw [hexistence] at hobject
  obtain ⟨object, hobject⟩ := hgood.sound.seen_iff.1 hobject
  exact ⟨⟨object, hobject⟩, hgood.sound.storage.scanBuffer_covers hobject⟩

/-! ### An object implied inside a transaction -/

def sizeCell : CellRef := .prop "Company" "size" (.allocated .object 1 0 1)

/-- What a call on a session returned; the default is never used. -/
def sessionOf (result : EStateM.Result BorgError Log WriteSession) : WriteSession :=
  (returned result).getD
    ⟨.empty, .empty, ⟨[]⟩, .client, ⟨⟨0, 0, .value, .source, .open, none, []⟩⟩, [], [], []⟩

theorem eq_sessionOf {result : EStateM.Result BorgError Log WriteSession}
    (h : (returned result).isSome) : result = .ok (sessionOf result) (after result) := by
  obtain ⟨session, hs⟩ := Option.isSome_iff_exists.1 h
  refine eq_after ?_
  rw [sessionOf, hs]
  rfl

def root : Clients := ⟨after (createRoot none Log.new), ∅, []⟩

def declared : Clients :=
  { root with log := after (Log.push 1 [.declareField "Company" "size" .int 1 .source] root.log) }

def begun : Clients :=
  { declared with log := after (Log.txBegin 1 none declared.log), transactions := [.new 2 1 1] }

def opening : EStateM.Result BorgError Log WriteSession := WriteSession.openClient 2 1 begun.log

def entered : Clients :=
  { begun with
    log := after opening, sessions := begun.sessions.insert (sessionOf opening).layer (sessionOf opening) }

def putting : EStateM.Result BorgError Log WriteSession :=
  (sessionOf opening).put sizeCell (.int 5) none entered.log

/-- It writes a property of an object nobody has created, and commits. -/
def filled : Clients :=
  { entered with log := after putting, sessions := entered.sessions.insert 2 (sessionOf putting) }

def committed : Clients :=
  { filled with
    log := after ((sessionOf putting).commit filled.log), sessions := filled.sessions.erase 2 }

/-- The transaction is merged. -/
def landed : Clients :=
  { committed with
    log := after (mergeTransaction { Transaction.new 2 1 1 with reads := [], writes := [] } .defAndData
      committed.log) }

theorem landed_reachable : landed.Reachable := by
  have hroot : root.Reachable := .tail .refl (.createRoot none)
  have hdeclared : declared.Reachable := .tail hroot (.push 1 _ (by decide +kernel))
  have htx : returned (Log.txBegin 1 none declared.log) = some (.new 2 1 1) := by decide +kernel
  have hbegun : begun.Reachable :=
    .tail hdeclared (.txBegin 1 none (by decide +kernel) (eq_after htx))
  have hopening : (returned opening).isSome := by decide +kernel
  have hentered : entered.Reachable :=
    .tail hbegun (.openClient 2 1 (by decide +kernel) (eq_sessionOf hopening))
  have hlookup : entered.sessions.lookup 2 = some (sessionOf opening) := by
    have hlayer : (sessionOf opening).layer = 2 := by decide +kernel
    rw [entered, hlayer, AList.lookup_insert]
  have hputting : (returned putting).isSome := by decide +kernel
  have hfilled : filled.Reachable :=
    .tail hentered (.put sizeCell (.int 5) hlookup (eq_sessionOf hputting))
  have hcommitted : committed.Reachable := .tail hfilled (.commit (AList.lookup_insert _))
  exact .tail hcommitted (.txMerge _ [] [] .defAndData List.mem_cons_self)

-- From here on the clients are only computed with, never unfolded.
attribute [irreducible] landed

/-- The parent sees the property at the layer the transaction landed at, and the object with it. -/
theorem property_has_object_landed :
    landed.log.storage.getCell (landed.log.readPath 1 (some 3)) sizeCell 1 =
        .ok (some ⟨⟨2, sizeCell, .int 5, 1, .source, none, 2⟩, 3⟩) ∧
      (∃ object, landed.log.storage.getCell (landed.log.readPath 1 (some 3))
          (.existence "Company" sizeCell.pid) .unversioned = .ok (some object)) ∧
        ∃ rows, landed.log.storage.scanBuffer (landed.log.readPath 1 (some 3)) (.object "Company") =
          .ok rows ∧ ∃ row ∈ rows, row.cell = .existence "Company" sizeCell.pid := by
  have hfound : landed.log.storage.getCell (landed.log.readPath 1 (some 3)) sizeCell 1 =
      .ok (some ⟨⟨2, sizeCell, .int 5, 1, .source, none, 2⟩, 3⟩) := by decide +kernel
  have hbuffer : sizeCell.buffer = .objectProp "Company" "size" := rfl
  exact ⟨hfound, property_has_object landed_reachable hbuffer hfound⟩

end Clients

end BorgCore
