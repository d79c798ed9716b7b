import BorgCore.Engine.Restart
import BorgCore.Engine.Whole

/-!
# Whole calls on a log that lasts

A session, a merge and the beginning of a transaction each leave a log that lasts: none of them forks
a branch but at a layer that has committed.
-/

namespace BorgCore

namespace Log

variable {log log' : Log} {branch parent : BranchId}

/-- What a later log has and no more: the same branches, and source layers only as given. -/
theorem Lasting.clientWrite_cases (h : log.Lasting) (hb : (log.branches.lookup branch).isSome)
    (version : ClientVersion) (writes : List (CellRef × Value)) :
    (∃ err log', clientWrite branch version writes log = .error err log' ∧ Lands log [] log') ∨
      ∃ authority defs plan session log' events,
        log.view (log.readPath branch none) = .ok authority ∧
        log.viewAt (log.readPath branch none) version = .ok defs ∧
        Plan.empty.putAll defs authority (log.present (log.readPath branch none)) writes = .ok plan ∧
        clientWrite branch version writes log = .ok session log' ∧
        session.observed = plan.observed ∧ session.authored = plan.authored ∧
        Records events plan.records ∧ Lands log [(log.nextLayer, .client branch events)] log' := by
  cases ha : log.view (log.readPath branch none) with
  | error err =>
    refine Or.inl ⟨err, log, ?_, .refl h.sound⟩
    have hask : ask (fun log' => log'.view (log.readPath branch none)) log = .error err log := by
      simp only [ask, ha]
    have hopen : WriteSession.openClient branch version log = .error err log := by
      unfold WriteSession.openClient WriteSession.openOn
      rw [Calls.bind_ok Calls.get_run, Calls.bind_error hask]
    rw [clientWrite, Calls.bind_error hopen]
  | ok authority =>
    obtain ⟨defs, hd⟩ := viewAt_ok ha version
    have hrun := clientWrite_run h.sound hb ha hd writes
    cases hp : Plan.empty.putAll defs authority (log.present (log.readPath branch none)) writes with
    | error err =>
      rw [hp] at hrun
      obtain ⟨log', hrun, hl⟩ := hrun
      exact Or.inl ⟨err, log', hrun, hl⟩
    | ok plan =>
      rw [hp] at hrun
      obtain ⟨session, log', events, hrun, hobserved, hauthored, hrecords, hl⟩ := hrun
      exact Or.inr ⟨authority, defs, plan, session, log', events, rfl, hd, hp, hrun, hobserved,
        hauthored, hrecords, hl⟩

theorem Lasting.clientWrite (h : log.Lasting) (hb : (log.branches.lookup branch).isSome)
    (version : ClientVersion) (writes : List (CellRef × Value)) :
    (after (clientWrite branch version writes log)).Lasting ∧
      Persists log (after (clientWrite branch version writes log)) := by
  have hsteps := clientWrite_steps h.sound hb version writes
  refine ⟨h.steps_same hsteps ?_, (Steps.grows h.sound hsteps).persists⟩
  rcases h.clientWrite_cases hb version writes with
    ⟨err, log', hrun, hl⟩ | ⟨_, _, _, _, log', _, _, _, _, hrun, _, _, _, hl⟩
  · rw [hrun]
    exact hl.branches
  · rw [hrun]
    exact hl.branches

theorem Lasting.createRoot (h : log.Lasting) (name : Option String) :
    (after (createRoot name log)).Lasting := by
  have hrun := createRoot_run h.sound name
  have hstep : Step log (after (Log.createRoot name log)) := .createRoot name
  refine h.steps (.single hstep) fun {id found origin} hf ho => ?_
  rw [hrun] at hf ⊢
  simp only [after, branched, AssocMap.lookup_insert_eq] at hf
  split at hf
  · cases hf
    cases ho
  · exact h.rooted hf ho

theorem Lasting.push (h : log.Lasting) (hb : (log.branches.lookup branch).isSome)
    (events : List DefEvent) : (after (push branch events log)).Lasting := by
  have hsteps := push_steps h.sound hb events
  cases hv : log.view (log.readPath branch none) with
  | error err =>
    have hask : ask (fun log => log.view (log.readPath branch none)) log = .error err log := by
      simp only [ask, hv]
    have hrun : Log.push branch events log = .error err log := Calls.bind_error hask
    rw [hrun]
    exact h
  | ok view =>
    have hrun := push_run h.sound hb events hv
    cases ha : view.applyAll log.nextLayer events with
    | error err =>
      rw [ha] at hrun
      obtain ⟨log', hrun, hl⟩ := hrun
      rw [hrun] at hsteps ⊢
      exact h.steps_same hsteps hl.branches
    | ok _ =>
      rw [ha] at hrun
      obtain ⟨log', hrun, hl⟩ := hrun
      rw [hrun] at hsteps ⊢
      exact h.steps_same hsteps hl.branches

/-- A branch's ceiling is a layer that has committed. -/
theorem Lasting.ceiling (h : log.Lasting) (hzero : (log.readPath branch none).ceiling ≠ 0) :
    ∃ commit, log.commitAt (log.readPath branch none).ceiling = some commit := by
  rw [h.sound.ceiling_none] at hzero ⊢
  cases hh : log.head branch with
  | some top =>
    obtain ⟨commit, hc, _⟩ := ((h.sound.projected.heads_iff branch top).1 hh).1
    exact ⟨commit, hc⟩
  | none =>
    rw [hh] at hzero
    cases ho : log.outward branch with
    | none => simp [ho] at hzero
    | some next =>
      obtain ⟨owner, origin⟩ := next
      obtain ⟨found, hf, hfo, _⟩ := outward_eq_some ho
      exact h.rooted hf hfo

/-- A transaction that begins leaves a log that lasts, with one more branch. -/
theorem Lasting.txBegin_ok (h : log.Lasting) (hb : (log.branches.lookup branch).isSome)
    {name : Option String} {tx : Transaction} (ht : txBegin branch name log = .ok tx log') :
    log'.Lasting ∧ Persists log log' ∧ log'.Anchored tx.branch tx.parent tx.forkPoint ∧
      tx = .new log.nextBranch branch tx.forkPoint ∧ log.branches.lookup tx.branch = none := by
  have hsteps := @txBegin_steps log branch name
  rw [ht] at hsteps
  have hpersists := (Steps.grows h.sound hsteps).persists
  obtain ⟨owner, htx, hlog, _, _, hceiling, hzero⟩ := Log.txBegin_ok h.sound ht
  refine ⟨h.steps hsteps fun {id found origin} hf ho => ?_, hpersists,
    (h.sound.anchored_txBegin hb ht).2, htx, ?_⟩
  · rw [hlog] at hf
    simp only [branched, AssocMap.lookup_insert_eq] at hf
    split at hf
    · cases hf
      cases ho
      obtain ⟨commit, hc⟩ := h.ceiling (by rw [hceiling]; exact hzero)
      rw [hceiling] at hc
      exact ⟨commit, hpersists.commits hc⟩
    · obtain ⟨commit, hc⟩ := h.rooted hf ho
      exact ⟨commit, hpersists.commits hc⟩
  · rw [htx]
    show log.branches.lookup log.nextBranch = none
    refine Option.eq_none_iff_forall_ne_some.2 fun found hf => ?_
    exact Nat.lt_irrefl _ (h.sound.branch_id hf).2.1

theorem txBegin_error {name : Option String} {err : BorgError} (h : log.Sound)
    (ht : txBegin branch name log = .error err log') : log' = log := by
  rw [txBegin, Calls.bind_ok Calls.get_run] at ht
  cases hp : log.forkPointOf branch with
  | none =>
    rw [hp] at ht
    cases ht
    rfl
  | some forkPoint =>
    rw [hp] at ht
    cases hask : ask (fun log => log.ownerOf forkPoint) log with
    | error err' log₁ =>
      have ht' : (EStateM.Result.error err' log₁ : EStateM.Result BorgError Log Transaction) =
          .error err log' := (Calls.bind_error hask).symm.trans ht
      cases ht'
      exact ask_error hask
    | ok owner log₁ =>
      obtain ⟨rfl, howner⟩ := ask_ok hask
      have hp : log₁.branchOf forkPoint = some owner := by
        unfold ownerOf at howner
        cases hl : log₁.layer forkPoint with
        | none => simp [hl] at howner
        | some layer =>
          simp only [hl, Except.ok.injEq] at howner
          simp [branchOf, hl, howner]
      have ht' : (EStateM.Result.ok (.new log₁.nextBranch branch forkPoint) _ :
          EStateM.Result BorgError Log Transaction) = .error err log' :=
        ((Calls.bind_ok hask).trans (Calls.bind_ok (fork_run h hp name))).symm.trans ht
      cases ht'

/-- A merge that is refused leaves the log alone; one that is not lasts. -/
theorem Lasting.replay (h : log.Lasting) (hp : (log.branches.lookup parent).isSome) (child : BranchId)
    (origin : LayerId) (mode : MergeMode) (reads : List CellRef) :
    (∃ err, replay child parent origin mode reads log = .error err log) ∨
      ∃ landed log', replay child parent origin mode reads log = .ok (landed.map Prod.fst) log' ∧
        log.Replayed child parent origin mode reads landed log' ∧ log'.Lasting := by
  rcases replay_run h.sound hp h.sorted.committed origin mode reads with
    herr | ⟨landed, log', hrun, hr⟩
  · exact Or.inl herr
  · have hsteps := @replay_steps log parent child h.sound hp origin mode reads
    rw [hrun] at hsteps
    exact Or.inr ⟨landed, log', hrun, hr, h.steps_same hsteps hr.lands.branches⟩

end Log

end BorgCore
