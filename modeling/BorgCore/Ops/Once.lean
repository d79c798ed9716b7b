import BorgCore.Ops.Landings

/-!
# One request at a time

Each request keeps the invariant of the table, and a run of requests therefore does.  What matters of
a request is what it commits, what it saves, and which of the two is done first.
-/

namespace BorgCore

variable {past : List Happening} {site site' : Site} {h : Happening} {log log' : Log}
  {tx tx' : Transaction} {branch : BranchId} {cell : CellRef} {id : String}

/-! ### What a request is not -/

theorem Happening.not_lands (hr : ∀ id, h.request ≠ .txCommit id) : ¬ h.Lands tx :=
  fun ⟨⟨id, hid, _⟩, _⟩ => hr id hid

theorem Happening.not_reads (hr : ∀ id cell, h.request ≠ .txGet id cell) : ¬ h.Reads branch cell :=
  fun ⟨id, _, _, _, hid, _⟩ => hr id _ hid

theorem Happening.not_probes (hw : h.writing = none) : ¬ h.Probes branch cell := by
  rintro ⟨id, _, _, _, _, _, _, hw', _⟩
  rw [hw] at hw'
  cases hw'

theorem Happening.not_relies (hr : ∀ id cell, h.request ≠ .txGet id cell) (hw : h.writing = none) :
    ¬ h.Relies branch cell :=
  fun hrelies => hrelies.elim (Happening.not_reads hr) (Happening.not_probes hw)

theorem Happening.not_ends (hr : ∀ id, h.request ≠ .txAbort id) (hreap : h.request ≠ .reap) :
    ¬ h.Ends branch := by
  rintro ⟨_, ⟨id, _, hid, _⟩ | ⟨hid, _⟩⟩
  · exact hr id hid
  · exact hreap hid

theorem Happening.unended (ha : Ops.Unanswered h.answer) : ¬ h.Ends branch :=
  fun ⟨hdone, _⟩ => ha _ hdone

theorem Happening.answered_of (hr : ∀ id, h.request ≠ .txCommit id) : h.Answered :=
  fun id hid => absurd hid (hr id)

theorem unanswered_map {α β : Type} {answer : Except Halt α} (g : α → β) (ha : Ops.Unanswered answer) :
    Ops.Unanswered (answer.map g) := by
  cases answer with
  | ok a => exact absurd rfl (ha a)
  | error halt => exact fun b hb => by cases hb

theorem map_ok {α β : Type} {answer : Except Halt α} {g : α → β} {b : β} (h : answer.map g = .ok b) :
    ∃ a, answer = .ok a ∧ g a = b := by
  cases answer with
  | ok a => exact ⟨a, rfl, Except.ok.inj h⟩
  | error halt => cases h

/-! ### Branches by name -/

theorem Log.allocationBranch_registered (h : log.Sound) (hb : log.allocationBranch = .ok branch) :
    (log.branches.lookup branch).isSome := by
  unfold Log.allocationBranch at hb
  cases hd : log.defaultBranch with
  | none => simp [hd] at hb
  | some root =>
    simp only [hd, Except.ok.injEq] at hb
    have hm := (List.min?_eq_some_iff.1 hd).1
    obtain ⟨found, hfound, rfl⟩ := List.mem_map.1 hm
    obtain ⟨id, hl⟩ := AssocMap.mem_values.1 (List.mem_of_mem_filter hfound)
    rw [← hb, (h.branch_id hl).1, hl]
    rfl

theorem Log.branchNamed_registered (h : log.Sound) {name : Option String}
    (hb : log.branchNamed name = .ok branch) : (log.branches.lookup branch).isSome := by
  unfold Log.branchNamed at hb
  cases name with
  | none => exact log.allocationBranch_registered h hb
  | some name =>
    simp only at hb
    cases hf : log.branches.values.find? fun branch => branch.name = some name with
    | none => simp [hf] at hb
    | some found =>
      simp only [hf, Except.ok.injEq] at hb
      obtain ⟨id, hl⟩ := AssocMap.mem_values.1 (List.mem_of_find?_eq_some hf)
      rw [← hb, (h.branch_id hl).1, hl]
      rfl

/-! ### Beginning -/

theorem Inv.txBegin (hi : Inv past h.before) (hr : h.request = .txBegin) (hh : Happens h) :
    Inv (h :: past) h.after := by
  have hnotends (branch : BranchId) : ¬ h.Ends branch :=
    Happening.not_ends (fun id hid => by rw [hr] at hid; cases hid) fun hid => by rw [hr] at hid; cases hid
  have hnotrelies (branch : BranchId) (cell : CellRef) : ¬ h.Relies branch cell :=
    Happening.not_relies (fun id cell hid => by rw [hr] at hid; cases hid)
      (by rw [Happening.writing, hr])
  have hnotcommit (id : String) : h.request ≠ .txCommit id := fun hid => by rw [hr] at hid; cases hid
  have hidle {log : Log} (hp : Log.Persists h.before.log log) :
      Entries (h :: past) log h.before.table :=
    hi.idle hp (fun _ => Happening.not_lands hnotcommit) hnotends hnotrelies
  have hends := @Ops.txBegin_ends h.args h.now h.faults h.before
  obtain ⟨site, ⟨answer, ⟨_, hlog, htable⟩, _⟩, hfrom⟩ := hh.spec (by
    rw [hr]
    exact hends.returning Answer.handle)
  -- Whether the fork is made or not, nothing is lost.
  have hkept : site.log.Lasting ∧ Log.Persists h.before.log site.log := by
    rcases hlog with ⟨branch, hbranch, heq⟩ | heq
    · have hreg := Log.branchNamed_registered hi.lasting.sound hbranch
      cases hrun : Log.txBegin branch (some s!"tx-{h.before.table.next}") h.before.log with
      | ok tx log =>
        rw [hrun] at heq
        rw [heq]
        obtain ⟨hl, hp, _⟩ := hi.lasting.txBegin_ok hreg hrun
        exact ⟨hl, hp⟩
      | error err log =>
        rw [hrun] at heq
        rw [heq, after, Log.txBegin_error hi.lasting.sound hrun]
        exact ⟨hi.lasting, .refl _⟩
    · rw [heq]
      exact ⟨hi.lasting, .refl _⟩
  obtain ⟨hl, hp⟩ := hkept
  refine hi.next hfrom hl hp ?_ (Happening.answered_of hnotcommit) fun tx hlands =>
    absurd hlands (Happening.not_lands hnotcommit)
  rcases htable with ⟨heq, _⟩ | ⟨branch, state, hbranch, hrun, heq, _⟩
  · rw [Site.table, heq]
    exact hidle hp
  · have hreg := Log.branchNamed_registered hi.lasting.sound hbranch
    obtain ⟨_, _, hanchored, hstate, hfree⟩ := hi.lasting.txBegin_ok hreg hrun
    rw [Site.table, heq]
    refine Entries.leaves (fun _ => hidle hp) fun _ => ⟨?_, fun found hm => ?_⟩
    · rw [List.map_append, List.nodup_append]
      refine ⟨hi.distinct, by simp, fun other hm fresh hfresh => ?_⟩
      obtain ⟨found, hfound, rfl⟩ := List.mem_map.1 hm
      rw [List.map_singleton, List.mem_singleton] at hfresh
      intro hsame
      have hknown := (hi.good found hfound).anchored.1.1
      rw [hsame, hfresh, hfree] at hknown
      cases hknown
    · rcases List.mem_append.1 hm with hm | hm
      · exact (hidle hp).good found hm
      · rw [List.mem_singleton.1 hm]
        exact hi.fresh hanchored (by rw [hstate]; rfl) hfree

/-! ### Reading -/

theorem Log.txGet_ok {computeNow : BranchId → CellRef → DefVersion → LogM Unit}
    {recorded : List Poisoning} {version : ClientVersion} {requirement : FreshnessRequirement}
    {resolved : Resolved}
    (h : Log.txGet computeNow recorded tx cell version requirement log = .ok (tx', resolved) log') :
    ∃ defVersion, log.versionFor tx.branch cell none version = .ok defVersion ∧
      tx' = tx.observe ⟨cell, defVersion⟩ := by
  obtain ⟨defVersion, log₁, hask, hrest⟩ := Calls.bind_eq_ok_iff.1 h
  obtain ⟨_, log₂, _, hret⟩ := Calls.bind_eq_ok_iff.1 hrest
  cases hret
  exact ⟨defVersion, (Log.ask_ok hask).2, rfl⟩

/-- The engine's own work loses nothing. -/
theorem Log.Lasting.derived {call : LogM Unit} (h : log.Lasting) (hd : Log.Derives call) :
    (after (call log)).Lasting ∧ Log.Persists log (after (call log)) := by
  obtain ⟨hs, hl, _⟩ := hd log h
  exact ⟨hl, (Log.Steps.grows h.sound hs).persists⟩

/-- The transaction a request names, put back as the request has left it. -/
theorem Inv.amended (hi : Inv past h.before) (hp : Log.Persists h.before.log log)
    (hid : h.request.handle = some id) {index : Fin h.before.table.opened.length}
    (hindex : h.before.table.index id = .ok index) {now : Nat}
    (hb : tx.branch = h.before.table.opened[index].state.branch) (hg : Good (h :: past) log tx) :
    Entries (h :: past) log (h.before.table.amend index tx now) :=
  Entries.amend hi.distinct hb hg fun _ hm hne =>
    hi.others hp hid (Site.transaction_of hindex) hm hne

theorem Inv.kept (hi : Inv past h.before) (hp : Log.Persists h.before.log log)
    (hid : h.request.handle = some id) (ht : h.before.transaction id = some tx)
    (hg : ∀ found ∈ h.before.table.opened, found.state.branch = tx.branch →
      Good (h :: past) log found.state) : Entries (h :: past) log h.before.table := by
  refine ⟨hi.distinct, fun found hm => ?_⟩
  by_cases hb : found.state.branch = tx.branch
  · exact hg found hm hb
  · exact hi.others hp hid ht hm hb

theorem Inv.txGet (hi : Inv past h.before) (hr : h.request = .txGet id cell) (hsafe : h.Safe)
    (hh : Happens h) : Inv (h :: past) h.after := by
  have hnotends (branch : BranchId) : ¬ h.Ends branch :=
    Happening.not_ends (fun id hid => by rw [hr] at hid; cases hid) fun hid => by rw [hr] at hid; cases hid
  have hnotcommit (id : String) : h.request ≠ .txCommit id := fun hid => by rw [hr] at hid; cases hid
  have hnotprobes (branch : BranchId) (cell : CellRef) : ¬ h.Probes branch cell :=
    Happening.not_probes (by rw [Happening.writing, hr])
  have hid : h.request.handle = some id := by rw [hr]; rfl
  have hends := @Ops.txGet_ends h.args h.now h.faults h.before id h.engine.computeNow h.engine.recorded
    cell
  obtain ⟨site, ⟨answer, ⟨_, hlog, htable⟩, hanswer⟩, hfrom⟩ := hh.spec (by
    rw [hr]
    exact hends.returning Answer.read)
  have hkept : site.log.Lasting ∧ Log.Persists h.before.log site.log := by
    rcases hlog with heq | ⟨branch, cell, version, heq⟩
    · rw [heq]
      exact ⟨hi.lasting, .refl _⟩
    · rw [heq]
      exact hi.lasting.derived (h.engine.computes branch cell version)
  obtain ⟨hl, hp⟩ := hkept
  refine hi.next hfrom hl hp ?_ (Happening.answered_of hnotcommit) fun tx hlands =>
    absurd hlands (Happening.not_lands hnotcommit)
  -- A read that is not answered is nothing to rely on.
  have hunread (ha : Ops.Unanswered h.answer) : Entries (h :: past) site.log h.before.table := by
    refine hi.idle hp (fun _ => Happening.not_lands hnotcommit) hnotends fun branch cell hrelies => ?_
    rcases hrelies with ⟨_, _, _, _, _, _, _, hread, _⟩ | hprobes
    · exact ha _ hread
    · exact hnotprobes branch cell hprobes
  rcases htable with ⟨heq, ha⟩ | ⟨index, state, resolved, hindex, hrun, heq, ha⟩
  · rw [Site.table, heq]
    exact hunread (by rw [hanswer]; exact unanswered_map _ ha)
  · obtain ⟨version, hversion, rfl⟩ := Log.txGet_ok hrun
    have ht := Site.transaction_of hindex
    have hgood := hi.good _ (List.getElem_mem index.2)
    have hdone (a : Answer) (hok : h.answer = .ok a) : h.faults.transactions = .done := by
      rw [hok] at hanswer
      obtain ⟨found, hfound, _⟩ := map_ok hanswer.symm
      exact (ha found hfound).2
    rw [Site.table, heq]
    refine Entries.leaves (fun hold => hunread fun a hok => ?_) fun _ => ?_
    · rw [hdone a hok] at hold
      cases hold
    · generalize hstate : h.before.table.opened[index].state = tx at *
      obtain ⟨reads, hobserve, hold, hnew⟩ := tx.observe_eq ⟨cell, version⟩
      rw [hobserve]
      have hguards {other : CellRef} (hm : other ∈ tx.guards) :
          other ∈ Transaction.guards { tx with reads := reads } := by
        obtain ⟨read, hm, hcell⟩ := Transaction.mem_guards.1 hm
        exact Transaction.mem_guards.2 ⟨read, hold read hm, hcell⟩
      refine hi.amended hp hid hindex (by rw [hstate]) ?_
      refine hgood.next hi.lasting hp rfl rfl rfl (fun _ => hguards) (fun _ hm _ => Or.inl hm)
        (fun _ hlands => absurd hlands (Happening.not_lands hnotcommit)) (hnotends _) fun other hrelies => ?_
      rcases hrelies with ⟨id', tx', resolved', version', hr', ht', _, hok, hversion', hforeign⟩ | hprobes
      · rw [hr] at hr'
        cases hr'
        rw [ht] at ht'
        cases ht'
        rw [hversion] at hversion'
        cases hversion'
        by_cases hwritten : cell ∈ tx.writes
        · by_cases hguarded : cell ∈ tx.guards
          · exact hguards hguarded
          · rw [Happening.Safe, hr] at hsafe
            exact absurd (hsafe tx version ht hwritten hguarded hversion (hdone _ hok)) hforeign
        · exact Transaction.mem_guards.2 ⟨_, hnew hwritten, rfl⟩
      · exact absurd hprobes (hnotprobes _ _)

/-! ### Writing -/

/-- What a client's write of one cell asks after, and what it leaves written. -/
theorem Log.clientWrite_wrote (hl : log.Lasting) (hb : (log.branches.lookup branch).isSome)
    {version : ClientVersion} {value : Value} {session : WriteSession}
    (hrun : clientWrite branch version [(cell, value)] log = .ok session log') :
    (∀ read ∈ session.observed, read = ⟨cell.existenceOf, .unversioned⟩ ∧ cell.existenceOf ≠ cell) ∧
      ∀ other ∈ session.authored, other.existenceOf = other →
        log'.WroteOn branch ⟨other, .unversioned⟩ := by
  rcases hl.clientWrite_cases hb version [(cell, value)] with
    ⟨err, _, hrun', _⟩ | ⟨_, defs, plan, _, _, events, _, _, hplan, hrun', hobserved, hauthored,
      hrecords, hlands⟩
  · rw [hrun] at hrun'
    cases hrun'
  · rw [hrun] at hrun'
    cases hrun'
    have hlisted : plan.Listed := Plan.Listed.putAll (show Plan.empty.Listed from rfl) hplan
    have hversioned : plan.Versioned defs := Plan.Versioned.putAll (fun _ hm => by cases hm) hplan
    refine ⟨fun read hm => Plan.observed_of_put hplan (by rwa [← hobserved]), fun other hm hown => ?_⟩
    rw [hauthored, hlisted] at hm
    obtain ⟨record, hrecord, rfl⟩ := List.mem_map.1 hm
    -- An existence cell is nowhere but at no version.
    have hat : record.1 = ⟨record.1.cell, .unversioned⟩ := by
      have hversion : record.1.version = .unversioned := by
        rcases hversioned record hrecord with hv | hv
        · rw [hv, defs.versionOf_own hown]
        · exact hv
      rw [← hversion]
    rw [← hrecords.1] at hrecord
    obtain ⟨event, hevent, heq⟩ := List.mem_map.1 hrecord
    refine ⟨log.nextLayer, .client branch events, hlands.mem (List.mem_singleton_self _), rfl, rfl, event,
      hevent, ?_⟩
    rw [← hat, ← heq]

theorem Inv.wrote (hi : Inv past h.before) (hid : h.request.handle = some id)
    (hnotlands : ∀ tx, ¬ h.Lands tx) (hnotends : ∀ branch, ¬ h.Ends branch)
    (hnotreads : ∀ branch cell, ¬ h.Reads branch cell) {value : Value}
    (hwriting : h.writing = some (id, cell, value))
    {index : Fin h.before.table.opened.length} (hindex : h.before.table.index id = .ok index)
    (hsafe : ∀ tx, h.before.transaction id = some tx →
      (∃ session log, clientWrite tx.branch (h.before.log.clientVersion h.args tx.branch)
        [(cell, value)] h.before.log = .ok session log) →
      cell.existenceOf ≠ cell → cell.existenceOf ∉ tx.guards →
      ¬ h.before.log.WroteOn tx.branch ⟨cell.existenceOf, .unversioned⟩ →
      h.faults.transactions.left ≠ .old)
    {α : Type} {result : WriteSession → α} {answer : Except Halt α}
    (hw : Ops.Wrote h.args h.now h.faults h.before index [(cell, value)] result answer site) :
    site.log.Lasting ∧ Log.Persists h.before.log site.log ∧
      Entries (h :: past) site.log site.table := by
  obtain ⟨hlog, htable⟩ := hw
  have ht := Site.transaction_of hindex
  have hgood := hi.good _ (List.getElem_mem index.2)
  generalize hstate : h.before.table.opened[index].state = tx at *
  have hreg := hgood.anchored.1.1
  obtain ⟨hl, hp⟩ := hi.lasting.clientWrite hreg (h.before.log.clientVersion h.args tx.branch)
    [(cell, value)]
  rw [← hlog] at hl hp
  refine ⟨hl, hp, ?_⟩
  rcases htable with ⟨heq, _, err, log, hrun⟩ | ⟨session, hrun, heq, _⟩
  · rw [Site.table, heq]
    refine hi.idle hp hnotlands hnotends fun branch other hrelies => ?_
    rcases hrelies with hreads | ⟨id', tx', _, _, session, _, _, hw', ht', rfl, hrun', _⟩
    · exact hnotreads _ _ hreads
    · rw [hwriting] at hw'
      cases hw'
      rw [ht] at ht'
      cases ht'
      rw [hrun] at hrun'
      cases hrun'
  · obtain ⟨hobserved, hauthored⟩ := Log.clientWrite_wrote hi.lasting hreg hrun
    -- The one thing a write asks after is whether its object is there.
    have hprobe {other : CellRef} (hrelies : h.Relies tx.branch other) :
        other = cell.existenceOf ∧ cell.existenceOf ≠ cell ∧
          (⟨cell.existenceOf, .unversioned⟩ : CellAt) ∈ session.observed ∧
          ¬ h.before.log.WroteOn tx.branch ⟨cell.existenceOf, .unversioned⟩ := by
      rcases hrelies with hreads | ⟨id', tx', _, _, _, _, version, hw', ht', _, hrun', hm, hforeign⟩
      · exact absurd hreads (hnotreads _ _)
      · rw [hwriting] at hw'
        cases hw'
        rw [ht] at ht'
        cases ht'
        rw [hrun] at hrun'
        cases hrun'
        obtain ⟨hread, hne⟩ := hobserved _ hm
        cases hread
        exact ⟨rfl, hne, hm, hforeign⟩
    rw [Site.table, heq]
    refine Entries.leaves (fun hold => ?_) fun _ => ?_
    · refine hi.kept hp hid ht fun found hm hb => ?_
      have hfound : found.state = tx := by
        rw [← hstate] at hb ⊢
        exact congrArg Open.state (List.inj_on_of_nodup_map hi.distinct hm (List.getElem_mem index.2) hb)
      rw [hfound]
      refine hgood.next hi.lasting hp rfl rfl rfl (fun _ hm => hm) (fun _ hm _ => Or.inl hm)
        (fun _ hlands => absurd hlands (hnotlands _)) (hnotends _) fun other hrelies => ?_
      obtain ⟨rfl, hne, _, hforeign⟩ := hprobe hrelies
      by_contra hunguarded
      exact hsafe tx ht ⟨session, _, hrun⟩ hne hunguarded hforeign hold
    · obtain ⟨reads, writes, habsorb, hold, hnew, hwrites⟩ := Log.absorb_eq tx session
      have hguards {read : CellAt} (hm : read ∈ reads) :
          read.cell ∈ (Log.absorb tx session).guards := by
        rw [habsorb]
        exact Transaction.mem_guards.2 ⟨read, hm, rfl⟩
      refine hi.amended hp hid hindex (by rw [habsorb, hstate]) ?_
      refine hgood.next hi.lasting hp (by rw [habsorb]) (by rw [habsorb]) (by rw [habsorb])
        (fun other hm => ?_) (fun other hm hown => ?_)
        (fun _ hlands => absurd hlands (hnotlands _)) (hnotends _) fun other hrelies => ?_
      · obtain ⟨read, hread, rfl⟩ := Transaction.mem_guards.1 hm
        exact hguards (hold read hread)
      · rw [habsorb] at hm
        exact ((hwrites other).1 hm).imp (fun hm => hm) fun hm => hauthored other hm hown
      · obtain ⟨rfl, hne, hm, hforeign⟩ := hprobe hrelies
        by_cases hwritten : cell.existenceOf ∈ tx.writes
        · exact absurd (hgood.owned _ hwritten cell.existenceOf_existenceOf) hforeign
        · exact hguards (hnew _ hm hwritten)

theorem Inv.txSet (hi : Inv past h.before) {value : Value} (hr : h.request = .txSet id cell value)
    (hsafe : h.Safe) (hh : Happens h) : Inv (h :: past) h.after := by
  have hnotcommit (id : String) : h.request ≠ .txCommit id := fun hid => by rw [hr] at hid; cases hid
  have hnotlands (tx : Transaction) : ¬ h.Lands tx := Happening.not_lands hnotcommit
  have hnotends (branch : BranchId) : ¬ h.Ends branch :=
    Happening.not_ends (fun id hid => by rw [hr] at hid; cases hid) fun hid => by rw [hr] at hid; cases hid
  have hnotreads (branch : BranchId) (cell : CellRef) : ¬ h.Reads branch cell :=
    Happening.not_reads fun id cell hid => by rw [hr] at hid; cases hid
  have hwriting : h.writing = some (id, cell, value) := by rw [Happening.writing, hr]
  rw [Happening.Safe, hr] at hsafe
  have hends := @Ops.txSet_ends h.args h.now h.faults h.before id cell value
  obtain ⟨site, ⟨answer, hwrote, hanswer⟩, hfrom⟩ := hh.spec (by
    rw [hr]
    exact hends.returning Answer.layer)
  have hkept : site.log.Lasting ∧ Log.Persists h.before.log site.log ∧
      Entries (h :: past) site.log site.table := by
    rcases hwrote with ⟨rfl, _, err, herr⟩ | ⟨index, hindex, _, hw⟩
    · refine ⟨hi.lasting, .refl _, hi.idle (.refl _) hnotlands hnotends fun branch cell hrelies => ?_⟩
      rcases hrelies with hreads | ⟨_, _, _, _, _, _, _, hw, ht, _⟩
      · exact hnotreads _ _ hreads
      · rw [hwriting] at hw
        cases hw
        obtain ⟨index, hindex, _⟩ := Site.transaction_eq_some ht
        rw [herr] at hindex
        cases hindex
    · exact hi.wrote (by rw [hr]; rfl) hnotlands hnotends hnotreads hwriting hindex hsafe hw
  obtain ⟨hl, hp, he⟩ := hkept
  exact hi.next hfrom hl hp he (Happening.answered_of hnotcommit) fun tx hlands =>
    absurd hlands (hnotlands tx)

/-- Creating an object asks after nothing: the cell it writes is the object's own. -/
theorem Happening.not_probes_create (hl : h.before.log.Lasting)
    (hknown : ∀ tx, h.before.transaction id = some tx →
      (h.before.log.branches.lookup tx.branch).isSome)
    {structName : ObjectTypeName} (hr : h.request = .txCreate id structName) : ¬ h.Probes branch cell := by
  rintro ⟨id', tx, written, value, session, log, version, hw, ht, rfl, hrun, hm, _⟩
  rw [Happening.writing, hr] at hw
  cases hb : h.before.log.allocationBranch with
  | error err => simp [hb] at hw
  | ok allocation =>
    simp only [hb, Option.some.injEq, Prod.mk.injEq] at hw
    obtain ⟨rfl, rfl, rfl⟩ := hw
    exact ((Log.clientWrite_wrote hl (hknown tx ht) hrun).1 _ hm).2 rfl

theorem Inv.registered (hi : Inv past site) (ht : site.transaction id = some tx) :
    (site.log.branches.lookup tx.branch).isSome := by
  obtain ⟨found, hm, rfl⟩ := site.transaction_opened ht
  exact (hi.good found hm).anchored.1.1

theorem Inv.txCreate (hi : Inv past h.before) {structName : ObjectTypeName}
    (hr : h.request = .txCreate id structName) (hh : Happens h) : Inv (h :: past) h.after := by
  have hnotcommit (id : String) : h.request ≠ .txCommit id := fun hid => by rw [hr] at hid; cases hid
  have hnotlands (tx : Transaction) : ¬ h.Lands tx := Happening.not_lands hnotcommit
  have hnotends (branch : BranchId) : ¬ h.Ends branch :=
    Happening.not_ends (fun id hid => by rw [hr] at hid; cases hid) fun hid => by rw [hr] at hid; cases hid
  have hnotreads (branch : BranchId) (cell : CellRef) : ¬ h.Reads branch cell :=
    Happening.not_reads fun id cell hid => by rw [hr] at hid; cases hid
  have hnotrelies (branch : BranchId) (cell : CellRef) : ¬ h.Relies branch cell := fun hrelies =>
    hrelies.elim (hnotreads _ _)
      (Happening.not_probes_create hi.lasting (fun _ ht => hi.registered ht) hr)
  have hends := @Ops.txCreate_ends h.args h.now h.faults h.before id structName
  obtain ⟨site, ⟨answer, hcreated, hanswer⟩, hfrom⟩ := hh.spec (by
    rw [hr]
    exact hends.returning Answer.object)
  have hkept : site.log.Lasting ∧ Log.Persists h.before.log site.log ∧
      Entries (h :: past) site.log site.table := by
    rcases hcreated with ⟨rfl, _⟩ |
      ⟨index, allocation, hindex, hb, _, ⟨hlog, ht, _⟩ | ⟨_, hw⟩⟩
    · exact ⟨hi.lasting, .refl _, hi.idle (.refl _) hnotlands hnotends hnotrelies⟩
    · rw [hlog, Site.table, ht]
      exact ⟨hi.lasting, .refl _, hi.idle (.refl _) hnotlands hnotends hnotrelies⟩
    · refine hi.wrote (by rw [hr]; rfl) hnotlands hnotends hnotreads ?_ hindex
        (fun tx _ _ hne => absurd rfl hne) hw
      rw [Happening.writing, hr]
      simp only [hb]
  obtain ⟨hl, hp, he⟩ := hkept
  exact hi.next hfrom hl hp he (Happening.answered_of hnotcommit) fun tx hlands =>
    absurd hlands (hnotlands tx)

/-! ### Ending -/

theorem Inv.removed (hi : Inv past h.before) (hp : Log.Persists h.before.log log)
    (hid : h.request.handle = some id) {index : Fin h.before.table.opened.length}
    (hindex : h.before.table.index id = .ok index) :
    Entries (h :: past) log (h.before.table.remove index) :=
  Entries.remove hi.distinct fun _ hm hne => hi.others hp hid (Site.transaction_of hindex) hm hne

theorem Entries.retire {table : Transactions} (he : Entries past log table) (id fate : String) :
    Entries past log (table.retire id fate) := ⟨he.distinct, he.good⟩

theorem Inv.txAbort (hi : Inv past h.before) (hr : h.request = .txAbort id) (hh : Happens h) :
    Inv (h :: past) h.after := by
  have hnotcommit (id : String) : h.request ≠ .txCommit id := fun hid => by rw [hr] at hid; cases hid
  have hnotlands (tx : Transaction) : ¬ h.Lands tx := Happening.not_lands hnotcommit
  have hnotrelies (branch : BranchId) (cell : CellRef) : ¬ h.Relies branch cell :=
    Happening.not_relies (fun id cell hid => by rw [hr] at hid; cases hid)
      (by rw [Happening.writing, hr])
  have hid : h.request.handle = some id := by rw [hr]; rfl
  have hends := @Ops.txAbort_ends h.faults h.before id
  obtain ⟨site, ⟨answer, ⟨hlog, _, htable⟩, hanswer⟩, hfrom⟩ := hh.spec (by
    rw [hr]
    exact hends.returning fun _ => Answer.done)
  have hp : Log.Persists h.before.log site.log := by
    rw [hlog]
    exact .refl _
  have hunanswered (ha : Ops.Unanswered h.answer) : Entries (h :: past) site.log h.before.table :=
    hi.idle hp hnotlands (fun _ => Happening.unended ha) hnotrelies
  refine hi.next hfrom (by rw [hlog]; exact hi.lasting) hp ?_ (Happening.answered_of hnotcommit)
    fun tx hlands => absurd hlands (hnotlands tx)
  rcases htable with ⟨heq, ha⟩ | ⟨index, hindex, heq, ha⟩
  · rw [Site.table, heq]
    exact hunanswered (by rw [hanswer]; exact unanswered_map _ ha)
  · rw [Site.table, heq]
    refine Entries.leaves (fun hold => hunanswered fun a hok => ?_) fun _ => ?_
    · rw [hok] at hanswer
      obtain ⟨found, hfound, _⟩ := map_ok hanswer.symm
      rw [ha hfound] at hold
      cases hold
    · exact (hi.removed hp hid hindex).retire id "was aborted"

theorem Inv.reap (hi : Inv past h.before) (hr : h.request = .reap) (hh : Happens h) :
    Inv (h :: past) h.after := by
  have hnotcommit (id : String) : h.request ≠ .txCommit id := fun hid => by rw [hr] at hid; cases hid
  have hnotlands (tx : Transaction) : ¬ h.Lands tx := Happening.not_lands hnotcommit
  have hnotrelies (branch : BranchId) (cell : CellRef) : ¬ h.Relies branch cell :=
    Happening.not_relies (fun id cell hid => by rw [hr] at hid; cases hid)
      (by rw [Happening.writing, hr])
  have hends := @Ops.reap_ends h.now h.faults h.before
  obtain ⟨site, ⟨answer, ⟨hlog, _, htable⟩, hanswer⟩, hfrom⟩ := hh.spec (by
    rw [hr]
    exact hends.returning fun _ => Answer.done)
  have hp : Log.Persists h.before.log site.log := by
    rw [hlog]
    exact .refl _
  have hended {branch : BranchId} (he : h.Ends branch) :
      ∃ found ∈ Ops.idle h.before.table h.now, found.state.branch = branch := by
    rcases he.2 with ⟨_, _, hid, _⟩ | ⟨_, hfound⟩
    · rw [hr] at hid
      cases hid
    · exact hfound
  have hunanswered (ha : Ops.Unanswered h.answer) : Entries (h :: past) site.log h.before.table :=
    hi.idle hp hnotlands (fun _ => Happening.unended ha) hnotrelies
  refine hi.next hfrom (by rw [hlog]; exact hi.lasting) hp ?_ (Happening.answered_of hnotcommit)
    fun tx hlands => absurd hlands (hnotlands tx)
  rcases htable with ⟨heq, ha | hnone⟩ | ⟨heq, ha⟩
  · rw [Site.table, heq]
    exact hunanswered (by rw [hanswer]; exact unanswered_map _ ha)
  · rw [Site.table, heq]
    refine hi.idle hp hnotlands (fun branch he => ?_) hnotrelies
    obtain ⟨found, hfound, _⟩ := hended he
    rw [hnone] at hfound
    cases hfound
  · rw [Site.table, heq]
    refine Entries.leaves (fun hold => hunanswered fun a hok => ?_) fun _ => ?_
    · rw [hok] at hanswer
      obtain ⟨found, hfound, _⟩ := map_ok hanswer.symm
      rw [ha hfound] at hold
      cases hold
    · refine ⟨?_, fun found hm => ?_⟩
      · rw [Ops.reaped_opened]
        exact hi.distinct.sublist (List.filter_sublist.map _)
      · rw [Ops.reaped_opened, List.mem_filter] at hm
        obtain ⟨hm, hkept⟩ := hm
        refine (hi.good found hm).spared hi.lasting hp (fun other hl => absurd hl (hnotlands other))
          (fun he => ?_) (hnotrelies _)
        obtain ⟨other, hother, hb⟩ := hended he
        obtain ⟨hin, hexpired⟩ := List.mem_filter.1 hother
        rw [List.inj_on_of_nodup_map hi.distinct hin hm hb] at hexpired
        rw [hexpired] at hkept
        cases hkept

/-! ### Committing -/

/-- A commit that is neither refused nor stopped in has replayed everything, and only what it has asked
about first. -/
theorem Log.Lasting.merged (hl : log.Lasting) (hp : (log.branches.lookup tx.parent).isSome)
    {replayed : List LayerId}
    (hrun : Log.mergeTransaction tx .defAndData log = .ok replayed log') :
    ∃ landed, log.Replayed tx.branch tx.parent tx.forkPoint .defAndData tx.guards landed log' ∧
      log'.Lasting ∧ Log.Persists log log' := by
  rcases hl.replay hp tx.branch tx.forkPoint .defAndData tx.guards with ⟨err, hrun'⟩ | ⟨landed, _, hrun', hr, hl'⟩
  · have hcontra : (.ok replayed log' : EStateM.Result BorgError Log _) = .error err log :=
      hrun.symm.trans hrun'
    cases hcontra
  · have hsame := hrun.symm.trans hrun'
    cases hsame
    exact ⟨landed, hr, hl', hr.lands.grows.persists⟩

theorem Log.Lasting.refused (hl : log.Lasting) (hp : (log.branches.lookup tx.parent).isSome)
    {rejection : BorgError}
    (hrun : Log.mergeTransaction tx .defAndData log = .error rejection log' ∨
      ∃ count, Log.mergeUntil tx count log = .error rejection log') : log' = log := by
  rcases hrun with hrun | ⟨count, hrun⟩
  · rcases hl.replay hp tx.branch tx.forkPoint .defAndData tx.guards with ⟨err, hrun'⟩ | ⟨_, _, hrun', _⟩
    · have hsame := hrun.symm.trans hrun'
      cases hsame
      rfl
    · have hcontra := hrun.symm.trans hrun'
      cases hcontra
  · rcases hl.mergeUntil hp count with ⟨err, hrun'⟩ | ⟨_, _, hrun', _⟩
    · have hsame := hrun.symm.trans hrun'
      cases hsame
      rfl
    · have hcontra := hrun.symm.trans hrun'
      cases hcontra

/-- A merge that would land nothing has nothing to land. -/
theorem Happening.sources_nil (hs : h.before.log.Sound) (hno : ¬ h.Merges tx)
    {staged : List (LayerId × List Event)}
    (hv : h.before.log.validateReplay tx.parent tx.forkPoint
      (h.before.log.replayableLayers tx.branch .defAndData) tx.guards = .ok staged) :
    h.before.log.sourcesOf tx.branch .defAndData = [] := by
  by_contra hne
  refine hno ⟨staged, hv, fun hnil => hne ?_⟩
  rw [(hs.validateReplay_ok hv).1] at hnil
  exact List.map_eq_nil_iff.1 hnil

theorem Log.Replayed.landed_nil {landed : List (LayerId × Commit)}
    (h : log.Replayed tx.branch tx.parent tx.forkPoint .defAndData tx.guards landed log')
    (hnone : log.sourcesOf tx.branch .defAndData = []) : landed = [] := by
  have hcarried := h.carried
  rw [hnone, List.map_nil] at hcarried
  exact List.map_eq_nil_iff.1 hcarried

theorem Log.mergeTransaction_validated {replayed : List LayerId}
    (hrun : Log.mergeTransaction tx .defAndData log = .ok replayed log') :
    ∃ staged, log.validateReplay tx.parent tx.forkPoint
      (log.replayableLayers tx.branch .defAndData) tx.guards = .ok staged := by
  obtain ⟨staged, _, hask, _⟩ := Calls.bind_eq_ok_iff.1 hrun
  exact ⟨staged, (Log.ask_ok hask).2⟩

theorem Log.mergeUntil_validated {replayed : List LayerId} {count : Nat}
    (hrun : Log.mergeUntil tx count log = .ok replayed log') :
    ∃ staged, log.validateReplay tx.parent tx.forkPoint
      (log.replayableLayers tx.branch .defAndData) tx.guards = .ok staged := by
  obtain ⟨staged, _, hask, _⟩ := Calls.bind_eq_ok_iff.1 hrun
  exact ⟨staged, (Log.ask_ok hask).2⟩

/-- A commit that has landed nothing, and is not answered. -/
theorem Inv.unmerged (hi : Inv past h.before) (hr : h.request = .txCommit id) (hf : h.From site)
    (hl : site.log.Lasting) (hsame : ∀ at', site.log.commitAt at' = h.before.log.commitAt at')
    (hb : site.log.branches = h.before.log.branches) (ha : Ops.Unanswered h.answer)
    (he : Entries (h :: past) site.log h.before.table → Entries (h :: past) site.log site.table) :
    Inv (h :: past) h.after := by
  have hafter (at' : LayerId) : h.after.log.commitAt at' = h.before.log.commitAt at' :=
    ((hf.kept hl).2.1 at').trans (hsame at')
  have hnotlands (tx : Transaction) : ¬ h.Lands tx := by
    rintro ⟨_, source, _, at', hnone, hsome⟩
    rw [hafter, hnone] at hsome
    cases hsome
  have hp : Log.Persists h.before.log site.log :=
    ⟨fun hc => by rw [hsame, hc], fun hfound => by rw [hb, hfound]⟩
  refine hi.next hf hl hp (he ?_) (fun _ _ => ⟨fun a hok => absurd hok (ha a), fun _ _ => hafter⟩)
    fun tx hlands => absurd hlands (hnotlands tx)
  refine hi.idle hp hnotlands (fun _ => Happening.unended ha) fun branch cell => ?_
  exact Happening.not_relies (fun id cell hid => by rw [hr] at hid; cases hid)
    (by rw [Happening.writing, hr])

section Commit

variable {index : Fin h.before.table.opened.length} {replayed : List LayerId} {answer : Except Halt LayerId}

/-- A commit stopped in its merge had nothing to replay, or stopped before the first of it. -/
theorem Inv.cut (hi : Inv past h.before) (hr : h.request = .txCommit id)
    (hindex : h.before.table.index id = .ok index) (hsafe : h.Safe) {count : Nat}
    (hstop : h.faults.merge = some count)
    (hmerge : Log.mergeUntil h.before.table.opened[index].state count h.before.log = .ok replayed log)
    (hf : h.From { h.before with log := log }) (ha : Ops.Unanswered h.answer) : Inv (h :: past) h.after := by
  rw [Happening.Safe, hr] at hsafe
  have ht := Site.transaction_of hindex
  have hgood := hi.good _ (List.getElem_mem index.2)
  generalize hstate : h.before.table.opened[index].state = tx at *
  obtain ⟨staged, hv⟩ := Log.mergeUntil_validated hmerge
  rcases hi.lasting.mergeUntil hgood.anchored.1.2 count with
    ⟨err, hrun⟩ | ⟨landed, log', hrun, hlands, hl, hcarried⟩
  · have hcontra := hmerge.symm.trans hrun
    cases hcontra
  · have hsame := hmerge.symm.trans hrun
    cases hsame
    have hnil : landed = [] := by
      rw [← List.map_eq_nil_iff (f := Prod.snd), hcarried, List.map_eq_nil_iff]
      by_cases hm : h.Merges tx
      · rcases hsafe tx ht hm with hzero | ⟨hnone, _⟩
        · rw [hstop] at hzero
          cases hzero
          rfl
        · rw [hstop] at hnone
          cases hnone
      · rw [Happening.sources_nil hi.lasting.sound hm hv, List.take_nil]
    subst hnil
    exact hi.unmerged hr hf hl hlands.commitAt_nil hlands.branches ha fun he => he

/-- A commit that merged the whole and could not save: the process stopped in the save, and not before the
handle was out of the table. -/
theorem Happening.Safe.stopped (hsafe : h.Safe) (hr : h.request = .txCommit id)
    (ht : h.before.transaction id = some tx) (hm : h.Merges tx) (hwhole : h.faults.merge = none)
    (ha : (∃ reason left, h.faults.transactions = .failed reason left) ∨
      answer = .error .stopped ∧ ∃ left, h.faults.transactions = .stopped left) :
    answer = .error .stopped ∧ h.faults.transactions.left ≠ .old := by
  rw [Happening.Safe, hr] at hsafe
  rcases hsafe tx ht hm with hzero | ⟨_, hfate⟩
  · rw [hwhole] at hzero
    cases hzero
  · rcases ha with ⟨reason, left, hf⟩ | ⟨rfl, left, hf⟩
    · rw [hf] at hfate
      rcases hfate with he | he | ⟨he, _⟩
      · cases he
      · cases he
      · cases he
    · refine ⟨rfl, ?_⟩
      rw [hf] at hfate
      rcases hfate with he | he | ⟨he, _⟩
      · rw [hf, he]
        exact fun he => by cases he
      · rw [hf, he]
        exact fun he => by cases he
      · cases he

theorem Inv.unsaved (hi : Inv past h.before) (hr : h.request = .txCommit id)
    (hindex : h.before.table.index id = .ok index) (hsafe : h.Safe) (hwhole : h.faults.merge = none)
    (hmerge : Log.mergeTransaction h.before.table.opened[index].state .defAndData h.before.log =
      .ok replayed log)
    (ha : (∃ reason left, h.faults.transactions = .failed reason left) ∨
      answer = .error .stopped ∧ ∃ left, h.faults.transactions = .stopped left)
    (hanswer : h.answer = answer.map Answer.layer) (hnot : Ops.Unanswered answer)
    (hf : h.From { h.before with
      log := log
      transactions := h.faults.transactions.leaves h.before.transactions
        ((h.before.table.remove index).retire id "already committed") }) : Inv (h :: past) h.after := by
  have hid : h.request.handle = some id := by rw [hr]; rfl
  have ht := Site.transaction_of hindex
  have hgood := hi.good _ (List.getElem_mem index.2)
  have hremoved (hp : Log.Persists h.before.log log) := hi.removed hp hid hindex
  generalize hstate : h.before.table.opened[index].state = tx at *
  obtain ⟨staged, hv⟩ := Log.mergeTransaction_validated hmerge
  obtain ⟨landed, hreplayed, hl, hp⟩ := hi.lasting.merged hgood.anchored.1.2 hmerge
  by_cases hm : h.Merges tx
  · obtain ⟨hstopped, hleft⟩ := hsafe.stopped hr ht hm hwhole ha
    rw [hstopped] at hanswer
    refine hi.next hf hl hp (Entries.leaves (fun hold => absurd hold hleft) fun _ =>
      (hremoved hp).retire _ _) (fun _ _ => ⟨fun a hok => ?_, fun err herr => ?_⟩) fun other hlands => ?_
    · rw [hanswer] at hok
      cases hok
    · rw [hanswer] at herr
      cases herr
    · rw [hlands.eq hid ht]
      exact hreplayed.guarded
  · obtain rfl := hreplayed.landed_nil (Happening.sources_nil hi.lasting.sound hm hv)
    refine hi.unmerged hr hf hl hreplayed.lands.commitAt_nil hreplayed.lands.branches ?_
      fun he => Entries.leaves (fun _ => he) fun _ => (hremoved hp).retire _ _
    rw [hanswer]
    exact unanswered_map _ hnot

/-- Catching up commits derived layers only. -/
theorem Log.Lasting.caughtUp {derive : LogM Unit} (hl : log.Lasting) (hd : Log.Derives derive)
    (hlog : log' = log ∨ log' = after (derive log)) :
    log'.Lasting ∧ Log.Persists log log' ∧ ∀ at' commit,
      log'.commitAt at' = some commit → commit.author.isSource → log.commitAt at' = some commit := by
  rcases hlog with rfl | rfl
  · exact ⟨hl, .refl _, fun _ _ hc _ => hc⟩
  · obtain ⟨hl', hp'⟩ := hl.derived hd
    exact ⟨hl', hp', (hd log hl).2.2⟩

/-- A commit that saved its table and is not answered landed nothing: the handle is out of the table, and the
only thing left to go wrong is resuming the branch. -/
theorem Inv.unresumed (hi : Inv past h.before) (hr : h.request = .txCommit id)
    (ht : h.before.transaction id = some tx) (hsafe : h.Safe) (hwhole : h.faults.merge = none)
    (hdone : h.faults.transactions = .done) (hmerge : Log.mergeTransaction tx .defAndData h.before.log =
      .ok replayed log)
    {landed : List (LayerId × Commit)}
    (hreplayed : h.before.log.Replayed tx.branch tx.parent tx.forkPoint .defAndData tx.guards landed log)
    {reason : String} {left : Left} (hfailed : h.faults.derivation tx.branch = .failed reason left)
    (at' : LayerId) : log.commitAt at' = h.before.log.commitAt at' := by
  rw [Happening.Safe, hr] at hsafe
  obtain ⟨staged, hv⟩ := Log.mergeTransaction_validated hmerge
  by_cases hm : h.Merges tx
  · rcases hsafe tx ht hm with hzero | ⟨_, hfate⟩
    · rw [hwhole] at hzero
      cases hzero
    · rw [hdone] at hfate
      rcases hfate with he | he | ⟨_, he⟩
      · cases he
      · cases he
      · exact absurd hfailed (he reason left)
  · obtain rfl := hreplayed.landed_nil (Happening.sources_nil hi.lasting.sound hm hv)
    exact hreplayed.lands.commitAt_nil at'

theorem Inv.saved (hi : Inv past h.before) (hr : h.request = .txCommit id)
    (hindex : h.before.table.index id = .ok index) (hsafe : h.Safe) (hwhole : h.faults.merge = none)
    (hmerge : Log.mergeTransaction h.before.table.opened[index].state .defAndData h.before.log =
      .ok replayed log)
    (hdone : h.faults.transactions = .done)
    (hlog : site.log = log ∨ site.log = after (h.engine.derive log))
    (htable : site.transactions = some ((h.before.table.remove index).retire id "already committed"))
    (ha : ∀ err, answer = .error (.refused err) → site.log = log ∧ ∃ reason left,
      h.faults.derivation h.before.table.opened[index].state.branch = .failed reason left)
    (hanswer : h.answer = answer.map Answer.layer) (hf : h.From site) : Inv (h :: past) h.after := by
  have hid : h.request.handle = some id := by rw [hr]; rfl
  have ht := Site.transaction_of hindex
  have hgood := hi.good _ (List.getElem_mem index.2)
  have hremoved (log : Log) (hp : Log.Persists h.before.log log) := hi.removed hp hid hindex
  generalize hstate : h.before.table.opened[index].state = tx at *
  obtain ⟨landed, hreplayed, hl, hp⟩ := hi.lasting.merged hgood.anchored.1.2 hmerge
  obtain ⟨hl', hp', honly⟩ := hl.caughtUp h.engine.derives hlog
  obtain ⟨_, hcommits, hbranches, _⟩ := hf.kept hl'
  have hpersists := hp.trans hp'
  have hentries : Entries (h :: past) site.log site.table := by
    rw [Site.table, htable]
    exact (hremoved _ hpersists).retire _ _
  refine hi.next hf hl' hpersists hentries (fun id' hid' => ⟨fun a hok => ?_, fun err herr at' => ?_⟩)
    fun other hlands => ?_
  · rw [hr] at hid'
    cases hid'
    refine ⟨tx, landed, log, ht, hreplayed, ⟨fun hc => ?_, fun hb => ?_⟩, fun at' commit hc hsource => ?_⟩
    · rw [hcommits]
      exact hp'.commits hc
    · rw [hbranches]
      exact hp'.branches hb
    · rw [hcommits] at hc
      exact honly at' commit hc hsource
  · rw [herr] at hanswer
    have hrefused : answer = .error (.refused err) := by
      cases answer with
      | ok a => cases hanswer
      | error halt =>
        cases hanswer
        rfl
    obtain ⟨heq, reason, left, hfailed⟩ := ha err hrefused
    rw [hcommits, heq]
    exact hi.unresumed hr ht hsafe hwhole hdone hmerge hreplayed hfailed at'
  · rw [hlands.eq hid ht]
    exact hreplayed.guarded

theorem Inv.txCommit (hi : Inv past h.before) (hr : h.request = .txCommit id) (hsafe : h.Safe)
    (hh : Happens h) : Inv (h :: past) h.after := by
  have hid : h.request.handle = some id := by rw [hr]; rfl
  have hends := @Ops.txCommit_ends h.now h.faults h.before id h.engine.derive
  obtain ⟨site, ⟨answer, hcommitted, hanswer⟩, hfrom⟩ := hh.spec (by
    rw [hr]
    exact hends.returning Answer.layer)
  have hunanswered (ha : Ops.Unanswered answer) : Ops.Unanswered h.answer := by
    rw [hanswer]
    exact unanswered_map _ ha
  cases hcommitted with
  | unknown err herr =>
    exact hi.unmerged hr hfrom hi.lasting (fun _ => rfl) rfl (hunanswered (Ops.unanswered_error _))
      fun he => he
  | rejected index hindex rejection log _ hmerge ha =>
    have hgood := hi.good _ (List.getElem_mem index.2)
    obtain rfl := hi.lasting.refused hgood.anchored.1.2 hmerge
    refine hi.unmerged hr hfrom hi.lasting (fun _ => rfl) rfl (hunanswered ha) fun he => ?_
    refine Entries.leaves (fun _ => he) fun _ => ?_
    exact hi.amended (.refl _) hid hindex rfl (he.good _ (List.getElem_mem index.2))
  | cut index hindex count replayed log hstop hmerge =>
    exact hi.cut hr hindex hsafe hstop hmerge hfrom (hunanswered (Ops.unanswered_error _))
  | unsaved index hindex replayed log _ hwhole hmerge ha hnot =>
    exact hi.unsaved hr hindex hsafe hwhole hmerge ha hanswer hnot hfrom
  | saved index hindex replayed log _ _ hwhole hmerge hdone hlog htable _ ha =>
    exact hi.saved hr hindex hsafe hwhole hmerge hdone hlog htable ha hanswer hfrom

end Commit

/-! ### Runs -/

theorem inv_new : Inv [] Site.new where
  lasting := Log.lasting_new
  distinct := List.nodup_nil
  good found hm := by cases hm
  known h hm := by cases hm
  lands :=
    { answered := fun h hm => by cases hm
      checked := fun h hm => by cases hm
      once := .nil
      ended := .nil
      guarded := .nil }

theorem Run.inv (hr : Run past site) (hsafe : ∀ h ∈ past, h.Safe) : Inv past site := by
  induction hr with
  | start => exact inv_new
  | request h _ hb hh ih =>
    have hi := ih fun other hm => hsafe other (List.mem_cons_of_mem h hm)
    have hs := hsafe h List.mem_cons_self
    subst hb
    cases hr : h.request with
    | txBegin => exact hi.txBegin hr hh
    | txGet id cell => exact hi.txGet hr hs hh
    | txSet id cell value => exact hi.txSet hr hs hh
    | txCreate id structName => exact hi.txCreate hr hh
    | txCommit id => exact hi.txCommit hr hs hh
    | txAbort id => exact hi.txAbort hr hh
    | reap => exact hi.reap hr hh
  | restart log _ hl ih =>
    have hi := ih hsafe
    obtain ⟨hlasting, hc, hb⟩ := hi.lasting.restarted hl
    exact hi.moved rfl hlasting ⟨fun hcommit => by rw [hc, hcommit], fun hfound => by rw [hb, hfound]⟩
  | other log config _ hs hl ih =>
    have hi := ih hsafe
    exact hi.moved rfl hl (Log.Steps.grows hi.lasting.sound hs).persists

/-- **A transaction lands at most once, and under its full guard**, however often it is retried and
whatever befalls the requests, where each of them is safe from what befalls it. -/
theorem lands_once (hr : Run past site) (hsafe : ∀ h ∈ past, h.Safe) : LandsOnce past :=
  (hr.inv hsafe).lands

/-! ### A commit, and one that is retried -/

/-- The table cannot be written. -/
def Mishaps.full : Mishaps := { Mishaps.nothing with transactions := .failed "disk full" .old }

theorem Happening.safe_of_nothing (hf : h.faults = .nothing)
    (hr : ∀ id cell, h.request ≠ .txGet id cell) : h.Safe := by
  unfold Happening.Safe
  split
  · intro tx _ _
    rw [hf]
    exact Or.inr ⟨rfl, Or.inr (Or.inr ⟨rfl, fun _ _ he => by cases he⟩)⟩
  · intro tx _ _ _ _ _
    rw [hf]
    exact fun he => by cases he
  · rename_i id cell hreq
    exact absurd hreq (hr id cell)
  · trivial

/-- A commit lands what is new on the parent. -/
theorem Happening.Lands.intro (id : String) (at' : LayerId) (hr : h.request = .txCommit id)
    (ht : h.before.transaction id = some tx)
    (hl : ∃ source ∈ h.before.log.sourcesOf tx.branch .defAndData,
      h.before.log.commitAt at' = none ∧
        h.after.log.commitAt at' = some (source.2.onto tx.parent)) : h.Lands tx := by
  obtain ⟨source, hm, hb, ha⟩ := hl
  exact ⟨⟨id, hr, ht⟩, source, hm, at', hb, ha⟩

/-- The transaction is committed; or it is committed with a full disk, and then once more. -/
def finished : Happening := .served rootArgs 0 .nothing .idle (.txCommit "tx-1") created.after
def unsaved : Happening := .served rootArgs 0 .full .idle (.txCommit "tx-1") created.after
def retried : Happening := .served rootArgs 0 .nothing .idle (.txCommit "tx-1") unsaved.after

/-- The transaction as it is committed. -/
def creating : Transaction := ⟨2, 1, 1, [], [.existence "Doc" (.allocated .object 1 1 1)]⟩

theorem finished_run : Run [finished, created, begun] finished.after :=
  created_run.served _ _ _ _ _ (by decide +kernel)

theorem retried_run : Run [retried, unsaved, created, begun] retried.after := by
  have hunsaved : Run [unsaved, created, begun] unsaved.after :=
    created_run.served _ _ _ _ _ (by decide +kernel)
  exact hunsaved.served _ _ _ _ _ (by decide +kernel)

theorem finished_lands : finished.Lands creating :=
  .intro "tx-1" 3 rfl (by decide +kernel) (by decide +kernel)

theorem unsaved_lands : unsaved.Lands creating :=
  .intro "tx-1" 3 rfl (by decide +kernel) (by decide +kernel)

theorem retried_lands : retried.Lands creating :=
  .intro "tx-1" 4 rfl (by decide +kernel) (by decide +kernel)

theorem lands_once_committed :
    Run [finished, created, begun] finished.after ∧ finished.Lands creating ∧
      LandsOnce [finished, created, begun] := by
  refine ⟨finished_run, finished_lands, lands_once finished_run fun h hm => ?_⟩
  simp only [List.mem_cons, List.not_mem_nil, or_false] at hm
  rcases hm with rfl | rfl | rfl
  · exact Happening.safe_of_nothing rfl fun _ _ he => by cases he
  · exact Happening.safe_of_nothing rfl fun _ _ he => by cases he
  · exact Happening.safe_of_nothing rfl fun _ _ he => by cases he

/-- **A transaction lands twice**: the merge is done when the save that retires the handle fails, the
commit is answered with an error, and the handle is there to be committed again. -/
theorem lands_twice :
    Run [retried, unsaved, created, begun] retried.after ∧ unsaved.Lands creating ∧
      retried.Lands creating ∧ ¬ LandsOnce [retried, unsaved, created, begun] := by
  refine ⟨retried_run, unsaved_lands, retried_lands, fun hl => ?_⟩
  have honce := (List.pairwise_cons.1 hl.once).1 unsaved List.mem_cons_self
  exact honce creating creating retried_lands unsaved_lands rfl

end BorgCore
