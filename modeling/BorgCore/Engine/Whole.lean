import BorgCore.Engine.Housing
import BorgCore.Engine.Transactions

/-!
# Whole calls are runs

A session, a merge and a read are made of calls on the log, so each is a run of them, however it ends:
what every run keeps, they keep.  `Fills` is a call that works on one open layer and leaves it open; it
composes like the code does.
-/

namespace BorgCore

namespace Log

variable {log log' : Log} {handle : LayerHandle} {branch parent child : BranchId} {α β : Type}

/-! ### One call after another -/

theorem bind_steps {call : LogM α} {next : α → LogM β} (hc : Steps log (after (call log)))
    (hn : ∀ a log', call log = .ok a log' → Steps log log' → Steps log' (after (next a log'))) :
    Steps log (after ((call >>= next) log)) := by
  cases hrun : call log with
  | error err log' =>
    rw [hrun] at hc
    rw [Calls.bind_error hrun]
    exact hc
  | ok a log' =>
    rw [hrun] at hc
    rw [Calls.bind_ok hrun]
    exact hc.trans (hn a log' hrun hc)

@[simp] theorem after_ask (question : Log → Except BorgError α) (log : Log) :
    after (ask question log) = log := by
  unfold ask
  split <;> rfl

theorem ask_steps (question : Log → Except BorgError α) : Steps log (after (ask question log)) := by
  rw [after_ask]

theorem ask_ok {question : Log → Except BorgError α} {a : α} (h : ask question log = .ok a log') :
    log' = log ∧ question log = .ok a := by
  unfold ask at h
  split at h <;> cases h
  exact ⟨rfl, by assumption⟩

theorem ask_error {question : Log → Except BorgError α} {err : BorgError}
    (h : ask question log = .error err log') : log' = log := by
  unfold ask at h
  split at h <;> cases h
  rfl

/-! ### Calls that fill a layer -/

/-- A run of calls on the log that leaves one open layer open. -/
def Fills (handle : LayerHandle) (call : LogM α) : Prop :=
  ∀ log, log.Sound → log.Owns handle →
    Steps log (after (call log)) ∧ (after (call log)).Owns handle

namespace Fills

theorem idle {call : LogM α} (h : ∀ log, after (call log) = log) : Fills handle call := by
  intro log _ ho
  rw [h]
  exact ⟨.refl, ho⟩

theorem pure (a : α) : Fills handle (pure a : LogM α) := idle fun _ => rfl

theorem ask (question : Log → Except BorgError α) : Fills handle (ask question) :=
  idle (after_ask question)

theorem bind {call : LogM α} {next : α → LogM β} (hc : Fills handle call)
    (hn : ∀ s a t, call s = .ok a t → Fills handle (next a)) : Fills handle (call >>= next) := by
  intro log h ho
  obtain ⟨hsteps, ho'⟩ := hc log h ho
  cases hrun : call log with
  | error err log' =>
    rw [hrun] at hsteps ho'
    rw [Calls.bind_error hrun]
    exact ⟨hsteps, ho'⟩
  | ok a log' =>
    rw [hrun] at hsteps ho'
    rw [Calls.bind_ok hrun]
    obtain ⟨hsteps', ho''⟩ := hn log a log' hrun log' (Steps.sound h hsteps) ho'
    exact ⟨hsteps.trans hsteps', ho''⟩

/-! ### Calls on the layer -/

theorem put (cell : CellRef) (draft : EventDraft) : Fills handle (put handle cell draft) := by
  intro log h ho
  obtain ⟨staged, hst, _, hf⟩ := h.staged_of_owns ho
  have hstep : Step log (after (Log.put handle cell draft log)) := .put handle cell draft ho
  rw [put_run cell draft hst hf] at hstep ⊢
  obtain ⟨layer, hl, hs, he⟩ := ho
  exact ⟨.single hstep, layer, hl, hs, he⟩

theorem includeEvent (event : EventId) : Fills handle (includeEvent handle event) := by
  intro log h ho
  obtain ⟨staged, hst, _, hf⟩ := h.staged_of_owns ho
  have hstep : Step log (after (Log.includeEvent handle event log)) := .includeEvent handle event ho
  cases he : log.storage.events.lookup event with
  | none =>
    have hrun : Log.includeEvent handle event log = .error (.storage s!"unknown event e{event}") log := by
      simp only [Log.includeEvent, store, MemoryStorage.includeEvent, he]
    rw [hrun]
    exact ⟨.refl, ho⟩
  | some found =>
    rw [includeEvent_run (by rw [he]; rfl) hst hf] at hstep ⊢
    obtain ⟨layer, hl, hs, he⟩ := ho
    exact ⟨.single hstep, layer, hl, hs, he⟩

theorem putDef (event : DefEvent) : Fills handle (putDef handle event) := by
  intro log h ho
  obtain ⟨staged, hst, _, hf⟩ := h.staged_of_owns ho
  have hstep : Step log (after (Log.putDef handle event log)) := .putDef handle event ho
  by_cases hk : handle.layer.kind = .value
  · have hrun : Log.putDef handle event log = .error .mixedLayerKind log := by
      simp [Log.putDef, hk]
    rw [hrun]
    exact ⟨.refl, ho⟩
  · rw [putDef_run event hk hst hf] at hstep ⊢
    obtain ⟨layer, hl, hs, he⟩ := ho
    exact ⟨.single hstep, layer, hl, hs, he⟩

theorem putDefs (events : List DefEvent) : Fills handle (push.putDefs handle events) := by
  induction events with
  | nil => exact .pure ()
  | cons event rest ih => exact .bind (.putDef event) fun _ _ _ _ => ih

theorem includeAll (events : List EventId) : Fills handle (includeAll handle events) := by
  induction events with
  | nil => exact .pure ()
  | cons event rest ih => exact .bind (.includeEvent event) fun _ _ _ _ => ih

end Fills

/-! ### Layers from open to end -/

theorem opened_steps (h : log.Sound) (hb : (log.branches.lookup branch).isSome) (kind : LayerKind)
    (author : LayerAuthor) {next : LayerHandle → LogM α}
    (hn : ∀ handle log, log.Sound → log.Owns handle → Steps log (after (next handle log))) :
    Steps log (after ((do next (← openLayer branch kind author) : LogM α) log)) := by
  have hstep : Step log (after (openLayer branch kind author log)) := .openLayer branch kind author hb
  have hrun := openLayer_run branch kind author h
  rw [hrun] at hstep
  rw [Calls.bind_ok hrun]
  have hopened : Steps log (log.opened branch kind author) := .single hstep
  exact hopened.trans (hn _ _ (Steps.sound h hopened) ⟨_, AList.lookup_insert _, rfl, rfl⟩)

theorem commit_steps (ho : log.Owns handle) : Steps log (after (commit handle log)) :=
  .single (.commit handle ho)

theorem abort_steps (ho : log.Owns handle) : Steps log (after (abort handle log)) :=
  .single (.abort handle ho)

/-- What fills a layer and then does something else to it. -/
theorem Fills.then_steps {call : LogM α} {next : α → LogM β} (hc : Fills handle call) (h : log.Sound)
    (ho : log.Owns handle)
    (hn : ∀ a log', call log = .ok a log' → log'.Sound → log'.Owns handle →
      Steps log' (after (next a log'))) : Steps log (after ((call >>= next) log)) := by
  obtain ⟨hsteps, ho'⟩ := hc log h ho
  refine bind_steps hsteps fun a log' hrun hs => ?_
  rw [hrun] at ho'
  exact hn a log' hrun (Steps.sound h hs) ho'

theorem push_steps (h : log.Sound) (hb : (log.branches.lookup branch).isSome) (events : List DefEvent) :
    Steps log (after (push branch events log)) := by
  unfold push
  refine bind_steps (ask_steps _) fun view log₁ hask _ => ?_
  obtain ⟨rfl, _⟩ := ask_ok hask
  refine opened_steps h hb .defs .source fun handle log' h' ho => ?_
  cases view.applyAll handle.id events with
  | error rejection => exact bind_steps (abort_steps ho) fun _ _ _ _ => .refl
  | ok _ => exact Fills.then_steps (.putDefs events) h' ho fun _ _ _ _ ho' => commit_steps ho'

/-! ### Merges -/

theorem replayLayer_steps (h : log.Sound) (hp : (log.branches.lookup parent).isSome) (source : LayerId)
    (events : List Event) : Steps log (after (replayLayer parent source events log)) := by
  rw [replayLayer, Calls.bind_ok Calls.get_run]
  refine opened_steps h hp _ .source fun handle log' h' ho => ?_
  refine Fills.then_steps (.putDefs _) h' ho fun _ log₁ _ h₁ ho₁ => ?_
  exact Fills.then_steps (.includeAll _) h₁ ho₁ fun _ log₂ _ _ ho₂ => commit_steps ho₂

theorem replayLayers_steps (h : log.Sound) (hp : (log.branches.lookup parent).isSome)
    (staged : List (LayerId × List Event)) :
    Steps log (after (replayLayers parent staged log)) := by
  induction staged generalizing log with
  | nil => exact .refl
  | cons source rest ih =>
    obtain ⟨layer, events⟩ := source
    refine bind_steps (replayLayer_steps h hp layer events) fun landed log' _ hs => ?_
    refine bind_steps (ih (Steps.sound h hs) ((Steps.grows h hs).registered hp)) fun _ _ _ _ => ?_
    exact .refl

/-- **A merge is a run.** -/
theorem replay_steps (h : log.Sound) (hp : (log.branches.lookup parent).isSome) (origin : LayerId)
    (mode : MergeMode) (reads : List CellRef) :
    Steps log (after (replay child parent origin mode reads log)) := by
  refine bind_steps (ask_steps _) fun staged log' hask _ => ?_
  rw [(ask_ok hask).1]
  exact replayLayers_steps h hp staged

theorem txBegin_steps (name : Option String) : Steps log (after (txBegin branch name log)) := by
  rw [txBegin, Calls.bind_ok Calls.get_run]
  cases log.forkPointOf branch with
  | none => exact .refl
  | some forkPoint =>
    refine bind_steps (ask_steps _) fun owner log' _ _ => ?_
    exact bind_steps (.single (.fork owner forkPoint name)) fun _ _ _ _ => .refl

/-! ### Reads -/

/-- A read leaves the log alone, or as computing inline leaves it. -/
theorem after_resolve (computeNow : BranchId → CellRef → DefVersion → LogM Unit)
    (recorded : List Poisoning) (cell : CellRef) (layer : Option LayerId) (version : ClientVersion)
    (requirement : FreshnessRequirement) :
    after (resolve computeNow recorded branch cell layer version requirement log) = log ∨
      ∃ defVersion, after (resolve computeNow recorded branch cell layer version requirement log) =
        after (computeNow branch cell defVersion log) := by
  unfold resolve
  cases hversion : ask (fun log => log.versionFor branch cell layer version) log with
  | error err log₁ =>
    obtain rfl := ask_error hversion
    rw [Calls.bind_error hversion]
    exact Or.inl rfl
  | ok defVersion log₁ =>
    obtain ⟨rfl, _⟩ := ask_ok hversion
    rw [Calls.bind_ok hversion, Calls.bind_ok Calls.get_run]
    split
    · cases hsettled : ask (fun log => log.settledHere branch cell defVersion layer) log₁ with
      | error err log₂ =>
        obtain rfl := ask_error hsettled
        rw [Calls.bind_error hsettled]
        exact Or.inl rfl
      | ok settled log₂ =>
        obtain ⟨rfl, _⟩ := ask_ok hsettled
        rw [Calls.bind_ok hsettled]
        split
        · refine Or.inr ⟨defVersion, ?_⟩
          cases hcompute : computeNow branch cell defVersion log₂ with
          | error err log₃ =>
            rw [Calls.bind_error hcompute]
            rfl
          | ok _ log₃ =>
            rw [Calls.bind_ok hcompute]
            exact after_ask _ log₃
        · exact Or.inl (after_ask _ log₂)
    · exact Or.inl (after_ask _ log₁)

theorem after_txGet (computeNow : BranchId → CellRef → DefVersion → LogM Unit)
    (recorded : List Poisoning) (tx : Transaction) (cell : CellRef) (version : ClientVersion)
    (requirement : FreshnessRequirement) :
    after (txGet computeNow recorded tx cell version requirement log) = log ∨
      ∃ defVersion, after (txGet computeNow recorded tx cell version requirement log) =
        after (computeNow tx.branch cell defVersion log) := by
  unfold txGet
  cases hversion : ask (fun log => log.versionFor tx.branch cell none version) log with
  | error err log₁ =>
    obtain rfl := ask_error hversion
    rw [Calls.bind_error hversion]
    exact Or.inl rfl
  | ok defVersion log₁ =>
    obtain ⟨rfl, _⟩ := ask_ok hversion
    rw [Calls.bind_ok hversion]
    have hresolve := @after_resolve log₁ tx.branch computeNow recorded cell none version requirement
    cases hrun : resolve computeNow recorded tx.branch cell none version requirement log₁ with
    | error err log₂ =>
      rw [hrun] at hresolve
      rw [Calls.bind_error hrun]
      exact hresolve
    | ok resolved log₂ =>
      rw [hrun] at hresolve
      rw [Calls.bind_ok hrun]
      exact hresolve

end Log

namespace WriteSession

open Log

variable {log log' : Log} {session session' : WriteSession} {branch : BranchId} {cell : CellRef}

theorem implyExistence_handle (h : session.implyExistence cell log = .ok session' log') :
    session'.handle = session.handle := by
  unfold implyExistence at h
  split at h
  · cases h
    rfl
  · simp only at h
    split at h
    · cases h
      rfl
    · split at h
      · cases h
        rfl
      · obtain ⟨found, log₁, _, h⟩ := Calls.bind_eq_ok_iff.1 h
        cases found with
        | some found =>
          cases h
          rfl
        | none =>
          obtain ⟨_, log₂, _, h⟩ := Calls.bind_eq_ok_iff.1 h
          cases h
          rfl

theorem implyExistence_fills (session : WriteSession) (cell : CellRef) :
    Fills session.handle (session.implyExistence cell) := by
  unfold implyExistence
  split
  · exact .pure _
  · simp only
    split
    · exact .pure _
    · split
      · exact .pure _
      · refine .bind (.ask _) fun _ found _ _ => ?_
        cases found with
        | some found => exact .pure _
        | none => exact .bind (.put _ _) fun _ _ _ _ => .pure _

theorem put_handle {value : Value} {derivation : Option Derivation}
    (h : session.put cell value derivation log = .ok session' log') :
    session'.handle = session.handle := by
  unfold WriteSession.put at h
  obtain ⟨_, log₁, _, h⟩ := Calls.bind_eq_ok_iff.1 h
  obtain ⟨session₁, log₂, himply, h⟩ := Calls.bind_eq_ok_iff.1 h
  obtain ⟨_, log₃, _, h⟩ := Calls.bind_eq_ok_iff.1 h
  rw [← implyExistence_handle himply]
  split at h <;> cases h <;> rfl

theorem put_fills (session : WriteSession) (cell : CellRef) (value : Value)
    (derivation : Option Derivation) : Fills session.handle (session.put cell value derivation) := by
  unfold WriteSession.put
  refine .bind (.ask _) fun _ _ _ _ => .bind (implyExistence_fills session cell) ?_
  intro log session' log' himply
  rw [← implyExistence_handle himply]
  refine .bind (.put _ _) fun _ _ _ _ => ?_
  split <;> exact .pure _

theorem openClient_steps (h : log.Sound) (hb : (log.branches.lookup branch).isSome)
    (version : ClientVersion) :
    Steps log (after (openClient branch version log)) ∧
      ∀ session log', openClient branch version log = .ok session log' →
        log'.Owns session.handle := by
  constructor
  · have hopen : Steps log (after (openLayer branch .value .source log)) :=
      .single (.openLayer _ _ _ hb)
    unfold openClient openOn
    rw [Calls.bind_ok Calls.get_run]
    refine bind_steps (ask_steps _) fun authority log₁ hask _ => ?_
    obtain ⟨rfl, _⟩ := ask_ok hask
    refine bind_steps (ask_steps _) fun view log₂ hask _ => ?_
    obtain ⟨rfl, _⟩ := ask_ok hask
    exact bind_steps hopen fun _ _ _ _ => .refl
  · intro session log' hopen
    obtain ⟨_, hh, _, _, rfl⟩ := openClient_ok h hopen
    rw [hh]
    exact ⟨_, AList.lookup_insert _, rfl, rfl⟩

/-- The writes of a session, and its layer discarded where one is refused. -/
theorem putAll_steps (h : log.Sound) (ho : log.Owns session.handle) (writes : List (CellRef × Value)) :
    Steps log (after (session.putAll writes log)) ∧
      ∀ session' log', session.putAll writes log = .ok session' log' → log'.Owns session'.handle := by
  induction writes generalizing session log with
  | nil =>
    refine ⟨.refl, fun session' log' hrun => ?_⟩
    cases hrun
    exact ho
  | cons write rest ih =>
    obtain ⟨cell, value⟩ := write
    obtain ⟨hsteps, ho'⟩ := put_fills session cell value none log h ho
    unfold putAll
    cases hput : session.put cell value none log with
    | ok session₁ log₁ =>
      rw [hput] at hsteps ho'
      rw [← put_handle hput] at ho'
      obtain ⟨hrest, hlast⟩ := ih (Steps.sound h hsteps) ho'
      simp only
      exact ⟨hsteps.trans hrest, hlast⟩
    | error rejection log₁ =>
      rw [hput] at hsteps ho'
      have habort : Steps log₁ (after (session.abort log₁)) := abort_steps ho'
      simp only
      cases hrun : session.abort log₁ with
      | ok _ log₂ =>
        rw [hrun] at habort
        refine ⟨hsteps.trans habort, fun session' log' hok => ?_⟩
        cases hok
      | error err log₂ =>
        rw [hrun] at habort
        refine ⟨hsteps.trans habort, fun session' log' hok => ?_⟩
        cases hok

end WriteSession

/-- **A client's session is a run**, from open to commit. -/
theorem clientWrite_steps {log : Log} {branch : BranchId} (h : log.Sound)
    (hb : (log.branches.lookup branch).isSome) (version : ClientVersion)
    (writes : List (CellRef × Value)) :
    Log.Steps log (after (clientWrite branch version writes log)) := by
  unfold clientWrite
  refine Log.bind_steps (WriteSession.openClient_steps h hb version).1 fun session log₁ hopen hs => ?_
  have ho := (WriteSession.openClient_steps h hb version).2 session log₁ hopen
  obtain ⟨hput, hlast⟩ := WriteSession.putAll_steps (Log.Steps.sound h hs) ho writes
  refine Log.bind_steps hput fun session' log₂ hrun _ => ?_
  exact Log.bind_steps (Log.commit_steps (hlast session' log₂ hrun)) fun _ _ _ _ => .refl

end BorgCore
