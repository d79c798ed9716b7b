import BorgCore.Engine.Whole
import BorgCore.Ops.Transactions

/-!
# What one operation can do

Each operation is described once, however it ends: what becomes of the log, which table it saves and
how the save fares, and what it takes for it to be answered.
-/

namespace BorgCore

/-! ### Saving -/

namespace Fate

/-- What can be read of a file after a write: what was there, nothing, or what was written. -/
theorem load_leaves {α : Type} [Inhabited α] (fate : Fate) (file : Sidecar α) (value : α) :
    fate.left = .old ∧ (fate.leaves file value).load = file.load ∨
      fate.left = .torn ∧ (fate.leaves file value).load = default ∨
        fate.left = .new ∧ (fate.leaves file value).load = value := by
  unfold leaves
  cases fate.left with
  | old => exact Or.inl ⟨rfl, rfl⟩
  | torn => exact Or.inr (Or.inl ⟨rfl, rfl⟩)
  | new => exact Or.inr (Or.inr ⟨rfl, rfl⟩)

theorem ends {σ : Type} {fate : Fate} {call : EStateM Halt σ Unit} {state state' : σ}
    {post : Except Halt Unit → σ → Prop} (h : call state = fate.result state')
    (hdone : fate = .done → post (.ok ()) state')
    (hfailed : ∀ reason left, fate = .failed reason left →
      post (.error (.refused (.storage reason))) state')
    (hstopped : ∀ left, fate = .stopped left → post (.error .stopped) state') :
    Calls.Ends call state post := by
  unfold Calls.Ends
  rw [h]
  cases fate with
  | done => exact hdone rfl
  | failed reason left => exact hfailed reason left rfl
  | stopped left => exact hstopped left rfl

end Fate

namespace Site

def table (site : Site) : Transactions := site.transactions.load

def transaction (site : Site) (tx : String) : Option Transaction :=
  match site.table.index tx with
  | .ok index => some site.table.opened[index].state
  | .error _ => none

end Site

namespace Ops

variable {args : Ops} {now : Nat} {faults : Mishaps} {site : Site} {tx : String}

/-- Nobody is told anything but that something went wrong, or nothing at all. -/
def Unanswered {α : Type} (answer : Except Halt α) : Prop := ∀ a, answer ≠ .ok a

theorem unanswered_error {α : Type} (halt : Halt) : Unanswered (.error halt : Except Halt α) := nofun

theorem require_ok {α : Type} {check : Except BorgError α} {a : α} (h : check = .ok a) :
    require check site = .ok a site := by
  subst h
  rfl

theorem require_error {α : Type} {check : Except BorgError α} {err : BorgError} (h : check = .error err) :
    require check site = .error (.refused err) site := by
  subst h
  rfl

theorem engine_ok {α : Type} {call : LogM α} {a : α} {log : Log} (h : call site.log = .ok a log) :
    engine call site = .ok a { site with log := log } := by
  unfold engine
  rw [h]

theorem engine_error {α : Type} {call : LogM α} {err : BorgError} {log : Log}
    (h : call site.log = .error err log) :
    engine call site = .error (.refused err) { site with log := log } := by
  unfold engine
  rw [h]

def pausing (site : Site) (branch : BranchId) (pause : Bool) : DerivationConfig :=
  let paused := site.derivation.load.paused.filter (· ≠ branch)
  ⟨if pause then paused ++ [branch] else paused⟩

theorem setPaused_run (faults : Mishaps) (branch : BranchId) (pause : Bool) (site : Site) :
    setPaused faults branch pause site =
      (faults.derivation branch).result { site with
        derivation := (faults.derivation branch).leaves site.derivation (pausing site branch pause) } := by
  unfold setPaused
  rw [Calls.bind_ok Calls.get_run]
  rfl

theorem setPaused_ends (branch : BranchId) (pause : Bool) :
    Calls.Ends (setPaused faults branch pause) site fun answer site' =>
      (∃ config, site' = { site with derivation := config }) ∧
        (answer = .ok () → faults.derivation branch = .done) ∧
        (∀ err, answer = .error (.refused err) →
          ∃ reason left, faults.derivation branch = .failed reason left) := by
  refine Fate.ends (setPaused_run faults branch pause site) (fun h => ?_) (fun reason left h => ?_)
    fun left h => ?_
  · exact ⟨⟨_, rfl⟩, fun _ => h, fun err he => by cases he⟩
  · exact ⟨⟨_, rfl⟩, fun he => (by cases he), fun _ _ => ⟨reason, left, h⟩⟩
  · exact ⟨⟨_, rfl⟩, fun he => (by cases he), fun err he => by cases he⟩

/-- An operation that ends by saving the table is answered where the save is done. -/
theorem saved_ends {α : Type} (fate : Fate) (table : Transactions) (a : α) :
    Calls.Ends (do saveTransactions fate table; return a) site fun answer site' =>
      site' = { site with transactions := fate.leaves site.transactions table } ∧
        ∀ b, answer = .ok b → b = a ∧ fate = .done := by
  refine .bind (Fate.ends rfl (fun h => .pure ⟨rfl, ?_⟩) (fun reason left h => ⟨rfl, ?_⟩)
    fun left h => ⟨rfl, ?_⟩)
  · intro b hb
    cases hb
    exact ⟨rfl, h⟩
  · intro b hb
    cases hb
  · intro b hb
    cases hb

theorem txBegin_ends :
    Calls.Ends (txBegin args now faults) site fun answer site' =>
      site'.allocations = site.allocations ∧
        ((∃ branch, site.log.branchNamed args.branch = .ok branch ∧
            site'.log = after (Log.txBegin branch (some s!"tx-{site.table.next}") site.log)) ∨
          site'.log = site.log) ∧
        (site'.transactions = site.transactions ∧ Unanswered answer ∨
          ∃ branch state, site.log.branchNamed args.branch = .ok branch ∧
            Log.txBegin branch (some s!"tx-{site.table.next}") site.log = .ok state site'.log ∧
            site'.transactions = faults.transactions.leaves site.transactions
              { site.table with
                next := site.table.next + 1
                opened := site.table.opened ++ [⟨s!"tx-{site.table.next}", now, state⟩] } ∧
            ∀ id, answer = .ok id → id = s!"tx-{site.table.next}" ∧ faults.transactions = .done) := by
  unfold txBegin
  refine .step Calls.get_run ?_
  cases hbranch : site.log.branchNamed args.branch with
  | error err =>
    refine .of_error (Calls.bind_error (require_error hbranch)) ?_
    exact ⟨rfl, Or.inr rfl, Or.inl ⟨rfl, unanswered_error _⟩⟩
  | ok branch =>
    refine .step (require_ok hbranch) (.step Calls.get_run ?_)
    cases hrun : Log.txBegin branch (some s!"tx-{site.table.next}") site.log with
    | error err log =>
      refine .of_error (Calls.bind_error (engine_error hrun)) ?_
      exact ⟨rfl, Or.inl ⟨branch, rfl, by rw [hrun]; rfl⟩, Or.inl ⟨rfl, unanswered_error _⟩⟩
    | ok state log =>
      have hlog : log = after (Log.txBegin branch (some s!"tx-{site.table.next}") site.log) := by
        rw [hrun]
        rfl
      refine .step (engine_ok hrun) (.bind ((setPaused_ends state.branch true).mono ?_))
      rintro answer site' ⟨⟨config, rfl⟩, _, _⟩
      cases answer with
      | error halt => exact ⟨rfl, Or.inl ⟨branch, rfl, hlog⟩, Or.inl ⟨rfl, unanswered_error _⟩⟩
      | ok _ =>
        refine (saved_ends _ _ _).mono ?_
        rintro answer site' ⟨rfl, hanswer⟩
        exact ⟨rfl, Or.inl ⟨branch, rfl, hlog⟩, Or.inr ⟨branch, state, rfl, hrun, rfl, hanswer⟩⟩

theorem txGet_ends {computeNow : BranchId → CellRef → DefVersion → LogM Unit}
    {recorded : List Poisoning} {cell : CellRef} :
    Calls.Ends (txGet args now faults computeNow recorded tx cell) site fun answer site' =>
      site'.allocations = site.allocations ∧
        (site'.log = site.log ∨
          ∃ branch cell version, site'.log = after (computeNow branch cell version site.log)) ∧
        (site'.transactions = site.transactions ∧ Unanswered answer ∨
          ∃ index state resolved, site.table.index tx = .ok index ∧
            Log.txGet computeNow recorded site.table.opened[index].state cell
              (site.log.clientVersion args site.table.opened[index].state.branch) args.freshness
              site.log = .ok (state, resolved) site'.log ∧
            site'.transactions =
              faults.transactions.leaves site.transactions (site.table.amend index state now) ∧
            ∀ found, answer = .ok found → found = resolved ∧ faults.transactions = .done) := by
  unfold txGet
  refine .step Calls.get_run ?_
  cases hindex : site.table.index tx with
  | error err =>
    refine .of_error (Calls.bind_error (require_error hindex)) ?_
    exact ⟨rfl, Or.inl rfl, Or.inl ⟨rfl, unanswered_error _⟩⟩
  | ok index =>
    refine .step (require_ok hindex) (.step Calls.get_run ?_)
    have hlog := @Log.after_txGet site.log computeNow recorded site.table.opened[index].state cell
      (site.log.clientVersion args site.table.opened[index].state.branch) args.freshness
    cases hrun : Log.txGet computeNow recorded site.table.opened[index].state cell
        (site.log.clientVersion args site.table.opened[index].state.branch) args.freshness site.log with
    | error err log =>
      rw [hrun] at hlog
      refine .of_error (Calls.bind_error (engine_error hrun)) ?_
      exact ⟨rfl, hlog.imp id fun ⟨version, h⟩ => ⟨_, _, version, h⟩, Or.inl ⟨rfl, unanswered_error _⟩⟩
    | ok found log =>
      obtain ⟨state, resolved⟩ := found
      rw [hrun] at hlog
      refine .step (engine_ok hrun) ((saved_ends _ _ _).mono ?_)
      rintro answer site' ⟨rfl, hanswer⟩
      exact ⟨rfl, hlog.imp id fun ⟨version, h⟩ => ⟨_, _, version, h⟩,
        Or.inr ⟨index, state, resolved, rfl, hrun, rfl, hanswer⟩⟩

/-- What a write through a transaction comes to: refused, and nothing is saved; or committed on the
transaction's branch, and then saved. -/
def Wrote {α : Type} (args : Ops) (now : Nat) (faults : Mishaps) (site : Site)
    (index : Fin site.table.opened.length) (writes : List (CellRef × Value)) (result : WriteSession → α)
    (answer : Except Halt α) (site' : Site) : Prop :=
  let state := site.table.opened[index].state
  let run := clientWrite state.branch (site.log.clientVersion args state.branch) writes site.log
  site'.log = after run ∧
    (site'.transactions = site.transactions ∧ Unanswered answer ∧ (∃ err log, run = .error err log) ∨
      ∃ session, run = .ok session site'.log ∧
        site'.transactions = faults.transactions.leaves site.transactions
          (site.table.amend index (Log.absorb state session) now) ∧
        ∀ a, answer = .ok a → a = result session ∧ faults.transactions = .done)

theorem wrote_ends {α : Type} {site₀ : Site} (index : Fin site.table.opened.length)
    (writes : List (CellRef × Value)) (result : WriteSession → α) (hl : site₀.log = site.log)
    (ht : site₀.transactions = site.transactions) :
    Calls.Ends (do
      let session ← engine (clientWrite site.table.opened[index].state.branch
        (site₀.log.clientVersion args site.table.opened[index].state.branch) writes)
      saveTransactions faults.transactions
        (site.table.amend index (Log.absorb site.table.opened[index].state session) now)
      return result session) site₀ fun answer site' =>
        site'.allocations = site₀.allocations ∧
          Wrote args now faults site index writes result answer site' := by
  rw [hl]
  cases hrun : clientWrite site.table.opened[index].state.branch
      (site.log.clientVersion args site.table.opened[index].state.branch) writes site₀.log with
  | error err log =>
    have hwrite := hrun
    rw [hl] at hwrite
    refine .of_error (Calls.bind_error (engine_error hrun)) ⟨rfl, ?_, Or.inl ⟨ht, ?_, err, log, hwrite⟩⟩
    · rw [hwrite]
      rfl
    · exact unanswered_error _
  | ok session log =>
    have hwrite := hrun
    rw [hl] at hwrite
    refine .step (engine_ok hrun) ((saved_ends _ _ _).mono ?_)
    rintro answer site' ⟨rfl, hanswer⟩
    refine ⟨rfl, ?_, Or.inr ⟨session, hwrite, ?_, hanswer⟩⟩
    · rw [hwrite]
      rfl
    · show faults.transactions.leaves site₀.transactions _ = _
      rw [ht]

theorem txSet_ends {cell : CellRef} {value : Value} :
    Calls.Ends (txSet args now faults tx cell value) site fun answer site' =>
      (site' = site ∧ Unanswered answer ∧ ∃ err, site.table.index tx = .error err) ∨
        ∃ index, site.table.index tx = .ok index ∧ site'.allocations = site.allocations ∧
          Wrote args now faults site index [(cell, value)] WriteSession.layer answer site' := by
  unfold txSet
  refine .step Calls.get_run ?_
  cases hindex : site.table.index tx with
  | error err =>
    refine .of_error (Calls.bind_error (require_error hindex)) ?_
    exact Or.inl ⟨rfl, unanswered_error _, err, rfl⟩
  | ok index =>
    refine .step (require_ok hindex) (.step Calls.get_run ((wrote_ends index _ _ rfl rfl).mono ?_))
    rintro answer site' ⟨ha, hw⟩
    exact Or.inr ⟨index, rfl, ha, hw⟩

theorem txCreate_ends {structName : ObjectTypeName} :
    Calls.Ends (txCreate args now faults tx structName) site fun answer site' =>
      (site' = site ∧ Unanswered answer) ∨
        ∃ index branch, site.table.index tx = .ok index ∧ site.log.allocationBranch = .ok branch ∧
          site'.allocations =
            faults.allocations.leaves site.allocations ⟨site.allocations.load.next + 1⟩ ∧
          (site'.log = site.log ∧ site'.transactions = site.transactions ∧ Unanswered answer ∨
            faults.allocations = .done ∧
              Wrote args now faults site index
                [(.existence structName
                  (.allocated .object branch serverAllocator site.allocations.load.next), .bool true)]
                (fun _ => .allocated .object branch serverAllocator site.allocations.load.next)
                answer site') := by
  unfold txCreate
  refine .step Calls.get_run ?_
  cases hindex : site.table.index tx with
  | error err =>
    exact .of_error (Calls.bind_error (require_error hindex)) (Or.inl ⟨rfl, unanswered_error _⟩)
  | ok index =>
    refine .step (require_ok hindex) (.step Calls.get_run ?_)
    cases hbranch : site.log.allocationBranch with
    | error err =>
      exact .of_error (Calls.bind_error (require_error rfl)) (Or.inl ⟨rfl, unanswered_error _⟩)
    | ok branch =>
      refine .step (require_ok rfl) (.bind ?_)
      unfold allocate
      refine .step Calls.get_run (.bind ?_)
      refine Fate.ends rfl (fun h => .pure ?_) (fun reason left h => ?_) fun left h => ?_
      · have hwrote := @wrote_ends args now faults site Pid
          { site with allocations :=
              faults.allocations.leaves site.allocations ⟨site.allocations.load.next + 1⟩ }
          index [(.existence structName
            (.allocated .object branch serverAllocator site.allocations.load.next), .bool true)]
          (fun _ => .allocated .object branch serverAllocator site.allocations.load.next) rfl rfl
        refine .step Calls.get_run (hwrote.mono ?_)
        rintro answer site' ⟨ha, hw⟩
        exact Or.inr ⟨index, branch, rfl, rfl, ha, Or.inr ⟨h, hw⟩⟩
      · exact Or.inr ⟨index, branch, rfl, rfl, rfl, Or.inl ⟨rfl, rfl, unanswered_error _⟩⟩
      · exact Or.inr ⟨index, branch, rfl, rfl, rfl, Or.inl ⟨rfl, rfl, unanswered_error _⟩⟩

/-- How a commit goes: the handle is not open; the merge is refused, and the transaction stays open; the
process stops in the merge; or the merge is done, and then the handle is retired, the branch resumed
and the parent caught up. -/
inductive Committed (now : Nat) (faults : Mishaps) (derive : LogM Unit) (tx : String) (site : Site) :
    Except Halt LayerId → Site → Prop
  | unknown (err : BorgError) (h : site.table.index tx = .error err) :
      Committed now faults derive tx site (.error (.refused err)) site
  | rejected (index : Fin site.table.opened.length) (h : site.table.index tx = .ok index)
      (rejection : BorgError) (log : Log) (answer : Except Halt LayerId)
      (hmerge : Log.mergeTransaction site.table.opened[index].state .defAndData site.log =
          .error rejection log ∨
        ∃ count, Log.mergeUntil site.table.opened[index].state count site.log = .error rejection log)
      (ha : Unanswered answer) :
      Committed now faults derive tx site answer
        { site with
          log := log
          transactions := faults.transactions.leaves site.transactions
            (site.table.amend index site.table.opened[index].state now) }
  | cut (index : Fin site.table.opened.length) (h : site.table.index tx = .ok index) (count : Nat)
      (landed : List LayerId) (log : Log) (hstop : faults.merge = some count)
      (hmerge : Log.mergeUntil site.table.opened[index].state count site.log = .ok landed log) :
      Committed now faults derive tx site (.error .stopped) { site with log := log }
  | unsaved (index : Fin site.table.opened.length) (h : site.table.index tx = .ok index)
      (replayed : List LayerId) (log : Log) (answer : Except Halt LayerId) (hwhole : faults.merge = none)
      (hmerge : Log.mergeTransaction site.table.opened[index].state .defAndData site.log =
        .ok replayed log)
      (ha : (∃ reason left, faults.transactions = .failed reason left) ∨
        answer = .error .stopped ∧ ∃ left, faults.transactions = .stopped left)
      (hnot : Unanswered answer) :
      Committed now faults derive tx site answer
        { site with
          log := log
          transactions := faults.transactions.leaves site.transactions
            ((site.table.remove index).retire tx "already committed") }
  | saved (index : Fin site.table.opened.length) (h : site.table.index tx = .ok index)
      (replayed : List LayerId) (log : Log) (answer : Except Halt LayerId) (site' : Site)
      (hwhole : faults.merge = none)
      (hmerge : Log.mergeTransaction site.table.opened[index].state .defAndData site.log =
        .ok replayed log)
      (hdone : faults.transactions = .done)
      (hlog : site'.log = log ∨ site'.log = after (derive log))
      (ht : site'.transactions = some ((site.table.remove index).retire tx "already committed"))
      (halloc : site'.allocations = site.allocations)
      (ha : ∀ err, answer = .error (.refused err) → site'.log = log ∧ ∃ reason left,
        faults.derivation site.table.opened[index].state.branch = .failed reason left) :
      Committed now faults derive tx site answer site'

theorem rejected_ends (index : Fin site.table.opened.length) (rejection : BorgError) {site₀ : Site}
    (ht : site₀.transactions = site.transactions) :
    Calls.Ends (do
      saveTransactions faults.transactions (site.table.amend index site.table.opened[index].state now)
      throw (.refused rejection) : OpM LayerId) site₀ fun answer site' =>
        Unanswered answer ∧ site' = { site₀ with
          transactions := faults.transactions.leaves site.transactions
            (site.table.amend index site.table.opened[index].state now) } := by
  rw [← ht]
  refine .bind (Fate.ends rfl (fun h => .throw ?_) (fun reason left h => ?_) fun left h => ?_)
  · exact ⟨unanswered_error _, rfl⟩
  · exact ⟨unanswered_error _, rfl⟩
  · exact ⟨unanswered_error _, rfl⟩

/-- Catching up is never what an operation fails of. -/
theorem caughtUp_ends (stops : Bool) (derive : LogM Unit) (branch : BranchId) {α : Type} (a : α) :
    Calls.Ends (do catchUp stops derive branch; return a) site fun answer site' =>
      (∃ log, (log = site.log ∨ log = after (derive site.log)) ∧ site' = { site with log := log }) ∧
        ∀ err, answer ≠ .error (.refused err) := by
  by_cases hpaused : branch ∈ site.derivation.load.paused
  · have hrun : catchUp stops derive branch site = .ok () site := by
      simp only [catchUp, if_pos hpaused]
    exact .step hrun (.pure ⟨⟨site.log, Or.inl rfl, rfl⟩, fun err h => by cases h⟩)
  · cases stops with
    | true =>
      have hrun : catchUp true derive branch site =
          .error .stopped { site with log := after (derive site.log) } := by
        simp only [catchUp, if_neg hpaused, if_true]
      exact .of_error (Calls.bind_error hrun) ⟨⟨_, Or.inr rfl, rfl⟩, fun err h => by cases h⟩
    | false =>
      have hrun : catchUp false derive branch site = .ok () { site with log := after (derive site.log) } := by
        simp only [catchUp, if_neg hpaused, Bool.false_eq_true, if_false]
      exact .step hrun (.pure ⟨⟨_, Or.inr rfl, rfl⟩, fun err h => by cases h⟩)

theorem txCommit_ends {derive : LogM Unit} :
    Calls.Ends (txCommit now faults derive tx) site (Committed now faults derive tx site) := by
  unfold txCommit
  refine .step Calls.get_run ?_
  cases hindex : site.table.index tx with
  | error err => exact .of_error (Calls.bind_error (require_error hindex)) (.unknown err hindex)
  | ok index =>
    refine .step (require_ok hindex) ?_
    cases hstop : faults.merge with
    | some count =>
      cases hmerge : Log.mergeUntil site.table.opened[index].state count site.log with
      | ok landed log =>
        have hrun : merging (some count) site.table.opened[index].state site =
            .error .stopped { site with log := log } := by
          simp only [merging, hmerge]
        exact .of_error (Calls.bind_error hrun) (.cut index hindex count landed log hstop hmerge)
      | error rejection log =>
        have hrun : merging (some count) site.table.opened[index].state site =
            .ok (.error rejection) { site with log := log } := by
          simp only [merging, hmerge]
        have hrejected := @rejected_ends now faults site index rejection { site with log := log } rfl
        refine .step hrun (hrejected.mono ?_)
        rintro answer site' ⟨ha, rfl⟩
        exact .rejected index hindex rejection log answer (Or.inr ⟨count, hmerge⟩) ha
    | none =>
      cases hmerge : Log.mergeTransaction site.table.opened[index].state .defAndData site.log with
      | error rejection log =>
        have hrun : merging none site.table.opened[index].state site =
            .ok (.error rejection) { site with log := log } := by
          simp only [merging, hmerge]
        have hrejected := @rejected_ends now faults site index rejection { site with log := log } rfl
        refine .step hrun (hrejected.mono ?_)
        rintro answer site' ⟨ha, rfl⟩
        exact .rejected index hindex rejection log answer (Or.inl hmerge) ha
      | ok replayed log =>
        have hrun : merging none site.table.opened[index].state site =
            .ok (.ok replayed) { site with log := log } := by
          simp only [merging, hmerge]
        refine .step hrun (.bind ?_)
        refine Fate.ends rfl (fun h => ?_) (fun reason left h => ?_) fun left h => ?_
        · refine .bind ((setPaused_ends site.table.opened[index].state.branch false).mono ?_)
          rintro answer site' ⟨⟨config, rfl⟩, hdone, hfailed⟩
          have htable : faults.transactions.leaves site.transactions
              ((site.table.remove index).retire tx "already committed") =
                some ((site.table.remove index).retire tx "already committed") := by
            rw [h]
            rfl
          cases answer with
          | error halt =>
            refine .saved index hindex replayed log _ _ hstop hmerge h (Or.inl rfl) htable rfl ?_
            intro err he
            cases he
            exact ⟨rfl, hfailed err rfl⟩
          | ok _ =>
            refine .step Calls.get_run ((caughtUp_ends _ _ _ _).mono ?_)
            rintro answer site' ⟨⟨log', hlog, rfl⟩, hanswer⟩
            exact .saved index hindex replayed log _ _ hstop hmerge h hlog htable rfl
              fun err he => absurd he (hanswer err)
        · exact .unsaved index hindex replayed log _ hstop hmerge (Or.inl ⟨reason, left, h⟩)
            (unanswered_error _)
        · exact .unsaved index hindex replayed log _ hstop hmerge (Or.inr ⟨rfl, left, h⟩)
            (unanswered_error _)

theorem txAbort_ends :
    Calls.Ends (txAbort faults tx) site fun answer site' =>
      site'.log = site.log ∧ site'.allocations = site.allocations ∧
        (site'.transactions = site.transactions ∧ Unanswered answer ∨
          ∃ index, site.table.index tx = .ok index ∧
            site'.transactions = faults.transactions.leaves site.transactions
              ((site.table.remove index).retire tx "was aborted") ∧
            (answer = .ok () → faults.transactions = .done)) := by
  unfold txAbort
  refine .step Calls.get_run ?_
  cases hindex : site.table.index tx with
  | error err =>
    refine .of_error (Calls.bind_error (require_error hindex)) ?_
    exact ⟨rfl, rfl, Or.inl ⟨rfl, unanswered_error _⟩⟩
  | ok index =>
    refine .step (require_ok hindex) (.bind ?_)
    refine (setPaused_ends site.table.opened[index].state.branch false).mono ?_
    rintro answer site' ⟨⟨config, rfl⟩, _, _⟩
    cases answer with
    | error halt => exact ⟨rfl, rfl, Or.inl ⟨rfl, unanswered_error _⟩⟩
    | ok _ =>
      refine Fate.ends rfl (fun h => ?_) (fun reason left h => ?_) fun left h => ?_
      · exact ⟨rfl, rfl, Or.inr ⟨index, rfl, rfl, fun _ => h⟩⟩
      · exact ⟨rfl, rfl, Or.inr ⟨index, rfl, rfl, fun he => by cases he⟩⟩
      · exact ⟨rfl, rfl, Or.inr ⟨index, rfl, rfl, fun he => by cases he⟩⟩

theorem release_ends (branches : List BranchId) :
    Calls.Ends (reapTransactions.release faults branches) site fun _ site' =>
      ∃ config, site' = { site with derivation := config } := by
  induction branches generalizing site with
  | nil => exact .pure ⟨site.derivation, rfl⟩
  | cons branch rest ih =>
    unfold reapTransactions.release
    refine .bind ((setPaused_ends branch false).mono ?_)
    rintro answer site' ⟨⟨config, rfl⟩, _, _⟩
    cases answer with
    | error halt => exact ⟨config, rfl⟩
    | ok _ =>
      refine ih.mono ?_
      rintro answer site' ⟨config, rfl⟩
      exact ⟨config, rfl⟩

/-- The open transactions that have been idle for too long. -/
def idle (table : Transactions) (now : Nat) : List Open :=
  table.opened.filter (expired now table.txIdleTimeout)

def reaped (table : Transactions) (now : Nat) : Transactions :=
  let fate := s!"expired after {spellDuration table.txIdleTimeout} idle"
  (idle table now).foldl (fun table found => table.retire found.id fate)
    { table with opened := table.opened.filter fun found => !expired now table.txIdleTimeout found }

theorem foldl_retire (reaped : List Open) (fate : String) (table : Transactions) :
    (reaped.foldl (fun table found => table.retire found.id fate) table).opened = table.opened ∧
      (reaped.foldl (fun table found => table.retire found.id fate) table).next = table.next := by
  induction reaped generalizing table with
  | nil => exact ⟨rfl, rfl⟩
  | cons found rest ih => exact ih (table.retire found.id fate)

theorem reaped_opened (table : Transactions) (now : Nat) :
    (reaped table now).opened =
      table.opened.filter fun found => !expired now table.txIdleTimeout found :=
  (foldl_retire _ _ _).1

theorem reaped_next (table : Transactions) (now : Nat) : (reaped table now).next = table.next :=
  (foldl_retire _ _ _).2

theorem reap_ends :
    Calls.Ends (reapTransactions now faults) site fun answer site' =>
      site'.log = site.log ∧ site'.allocations = site.allocations ∧
        (site'.transactions = site.transactions ∧ (Unanswered answer ∨ idle site.table now = []) ∨
          site'.transactions = faults.transactions.leaves site.transactions (reaped site.table now) ∧
            (answer = .ok () → faults.transactions = .done)) := by
  unfold reapTransactions
  refine .step Calls.get_run ?_
  show Calls.Ends (if (idle site.table now).isEmpty = true then pure () else _) site _
  by_cases hidle : (idle site.table now).isEmpty = true
  · rw [if_pos hidle]
    exact .pure ⟨rfl, rfl, Or.inl ⟨rfl, Or.inr (List.isEmpty_iff.1 hidle)⟩⟩
  · rw [if_neg hidle]
    refine .bind ((release_ends _).mono ?_)
    rintro answer site' ⟨config, rfl⟩
    cases answer with
    | error halt => exact ⟨rfl, rfl, Or.inl ⟨rfl, Or.inl (unanswered_error _)⟩⟩
    | ok _ =>
      refine Fate.ends rfl (fun h => ?_) (fun reason left h => ?_) fun left h => ?_
      · exact ⟨rfl, rfl, Or.inr ⟨rfl, fun _ => h⟩⟩
      · exact ⟨rfl, rfl, Or.inr ⟨rfl, fun he => by cases he⟩⟩
      · exact ⟨rfl, rfl, Or.inr ⟨rfl, fun he => by cases he⟩⟩

end Ops

end BorgCore
