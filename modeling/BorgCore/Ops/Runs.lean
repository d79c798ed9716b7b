import BorgCore.Engine.Lasting
import BorgCore.Ops.Served

/-!
# A store over many requests

Requests come one at a time.  Any file write may fail and the process may stop in any of them, or
inside a merge; the next process then opens the store that was left.  Between requests the store may be
stopped, and everything else that can be done to it may be done.
-/

namespace BorgCore

/-- One request, what befell it, and what came of it. -/
structure Happening where
  args : Ops
  now : Nat
  faults : Mishaps
  engine : Engine
  request : Request
  before : Site
  answer : Except Halt Answer
  after : Site

/-- The operation ends as it does; where the process stopped, the next one has opened the store. -/
def Happens (h : Happening) : Prop :=
  Calls.Ends (serve h.args h.now h.faults h.engine h.request) h.before fun answer site =>
    h.answer = answer ∧
      (answer = .error .stopped → ∃ log, site.log.Restarted log ∧ h.after = { site with log := log }) ∧
      (answer ≠ .error .stopped → h.after = site)

/-- What the operation leaves, as the next request finds it. -/
def Happening.From (h : Happening) (site : Site) : Prop :=
  (h.answer = .error .stopped → ∃ log, site.log.Restarted log ∧ h.after = { site with log := log }) ∧
    (h.answer ≠ .error .stopped → h.after = site)

/-- What is true of every ending of an operation is true of what happens. -/
theorem Happens.spec {h : Happening} {post : Except Halt Answer → Site → Prop} (hh : Happens h)
    (he : Calls.Ends (serve h.args h.now h.faults h.engine h.request) h.before post) :
    ∃ site, post h.answer site ∧ h.From site := by
  obtain ⟨answer, site, ⟨rfl, hstop, hgo⟩, hp⟩ := Calls.Ends.exists_both hh he
  exact ⟨site, hp, hstop, hgo⟩

/-- A stop between an operation and the next request takes nothing away. -/
theorem Happening.From.kept {h : Happening} {site : Site} (hf : h.From site) (hl : site.log.Lasting) :
    h.after.log.Lasting ∧ (∀ id, h.after.log.commitAt id = site.log.commitAt id) ∧
      (∀ id, h.after.log.branches.lookup id = site.log.branches.lookup id) ∧
      h.after.transactions = site.transactions ∧ h.after.allocations = site.allocations := by
  by_cases hstop : h.answer = .error .stopped
  · obtain ⟨log, hr, ha⟩ := hf.1 hstop
    obtain ⟨hlast, hc, hb⟩ := hl.restarted hr
    rw [ha]
    exact ⟨hlast, hc, hb, rfl, rfl⟩
  · rw [hf.2 hstop]
    exact ⟨hl, fun _ => rfl, fun _ => rfl, rfl, rfl⟩

/-- What a store has been through, the latest first, and where that has left it. -/
inductive Run : List Happening → Site → Prop
  | start : Run [] Site.new
  | request {past : List Happening} {site : Site} (h : Happening) (hr : Run past site)
      (hb : h.before = site) (hh : Happens h) : Run (h :: past) h.after
  | restart {past : List Happening} {site : Site} (log : Log) (hr : Run past site)
      (hl : site.log.Restarted log) : Run past { site with log := log }
  | other {past : List Happening} {site : Site} (log : Log) (config : Sidecar DerivationConfig)
      (hr : Run past site) (hs : Log.Steps site.log log) (hl : log.Lasting) :
      Run past { site with log := log, derivation := config }

/-! ### Requests as they are served -/

/-- A request as it is served, and not stopped in. -/
def Happening.served (args : Ops) (now : Nat) (faults : Mishaps) (engine : Engine) (request : Request)
    (before : Site) : Happening :=
  let run := serve args now faults engine request before
  ⟨args, now, faults, engine, request, before, Calls.outcome run, Calls.left run⟩

/-- Whether the process stopped in a request. -/
def Happening.stopped (h : Happening) : Bool :=
  match h.answer with
  | .error .stopped => true
  | _ => false

theorem Happening.stopped_iff {h : Happening} : h.stopped = true ↔ h.answer = .error .stopped := by
  unfold Happening.stopped
  split
  · exact ⟨fun _ => ‹_›, fun _ => rfl⟩
  · rename_i hne
    exact ⟨fun he => (by cases he), fun he => absurd he hne⟩

theorem happens_served {args : Ops} {now : Nat} {faults : Mishaps} {engine : Engine} {request : Request}
    {before : Site} (h : (Happening.served args now faults engine request before).stopped = false) :
    Happens (.served args now faults engine request before) := by
  refine Calls.ends_iff.2 ⟨rfl, fun hstop => ?_, fun _ => rfl⟩
  have hstopped : (Happening.served args now faults engine request before).stopped = true :=
    Happening.stopped_iff.2 hstop
  rw [h] at hstopped
  cases hstopped

/-- The log the next process opens, its tables read in the order they are in. -/
def Log.restart (log : Log) : Log :=
  match Log.reopen log.storage.dropped log.storage.layerMeta.values log.storage.branches.values with
  | .ok reopened => reopened
  | .error _ => log

/-- A request the process stops in. -/
def Happening.cut (args : Ops) (now : Nat) (faults : Mishaps) (engine : Engine) (request : Request)
    (before : Site) : Happening :=
  let site := Calls.left (serve args now faults engine request before)
  ⟨args, now, faults, engine, request, before, .error .stopped,
    { site with log := site.log.restart }⟩

/-- Whether the store that is left opens. -/
def Log.reopens (log : Log) : Bool :=
  match Log.reopen log.storage.dropped log.storage.layerMeta.values log.storage.branches.values with
  | .ok _ => true
  | .error _ => false

theorem Log.restarted_restart {log : Log} (h : log.reopens = true) : log.Restarted log.restart := by
  refine ⟨_, _, List.Perm.refl _, List.Perm.refl _, ?_⟩
  unfold Log.reopens at h
  unfold Log.restart
  split at h
  · rename_i reopened hrun
    rw [hrun]
  · cases h

theorem happens_cut {args : Ops} {now : Nat} {faults : Mishaps} {engine : Engine} {request : Request}
    {before : Site} (h : (Happening.served args now faults engine request before).stopped = true)
    (hl : (Calls.left (serve args now faults engine request before)).log.reopens = true) :
    Happens (.cut args now faults engine request before) := by
  have hstop : Calls.outcome (serve args now faults engine request before) = .error .stopped :=
    Happening.stopped_iff.1 h
  exact Calls.ends_iff.2 ⟨hstop.symm, fun _ => ⟨_, Log.restarted_restart hl, rfl⟩, fun hne => absurd hstop hne⟩

theorem Run.served {past : List Happening} {site : Site} (hr : Run past site) (args : Ops) (now : Nat)
    (faults : Mishaps) (engine : Engine) (request : Request)
    (h : (Happening.served args now faults engine request site).stopped = false) :
    Run (.served args now faults engine request site :: past)
      (Happening.served args now faults engine request site).after :=
  .request _ hr rfl (happens_served h)

namespace Log

variable {log log' : Log}

/-- A merge that is stopped in has replayed the first of the layers. -/
theorem Lasting.mergeUntil {tx : Transaction} (h : log.Lasting)
    (hp : (log.branches.lookup tx.parent).isSome) (count : Nat) :
    (∃ err, mergeUntil tx count log = .error err log) ∨
      ∃ landed log', mergeUntil tx count log = .ok (landed.map Prod.fst) log' ∧
        Lands log landed log' ∧ log'.Lasting ∧
        landed.map Prod.snd =
          ((log.sourcesOf tx.branch .defAndData).take count).map fun source => source.2.onto tx.parent := by
  unfold Log.mergeUntil
  cases hv : log.validateReplay tx.parent tx.forkPoint (log.replayableLayers tx.branch .defAndData)
      tx.guards with
  | error err =>
    have hask : ask (fun log => log.validateReplay tx.parent tx.forkPoint
        (log.replayableLayers tx.branch .defAndData) tx.guards) log = .error err log := by
      simp only [ask, hv]
    exact Or.inl ⟨err, Calls.bind_error hask⟩
  | ok staged =>
    obtain ⟨rfl, _, _⟩ := h.sound.validateReplay_ok hv
    have hask : ask (fun log => log.validateReplay tx.parent tx.forkPoint
        (log.replayableLayers tx.branch .defAndData) tx.guards) log =
        .ok ((log.sourcesOf tx.branch .defAndData).map fun source => (source.1, source.2.events)) log := by
      simp only [ask, hv]
    rw [Calls.bind_ok hask, ← List.map_take]
    obtain ⟨landed, log', hrun, hl, hmap⟩ := replayLayers_run h.sound hp h.sorted.committed
      fun source hm => (mem_sourcesOf.1 (List.mem_of_mem_take hm)).2
    have hsteps := replayLayers_steps h.sound hp
      (((log.sourcesOf tx.branch .defAndData).take count).map fun source => (source.1, source.2.events))
    rw [hrun] at hsteps
    exact Or.inr ⟨landed, log', hrun, hl, h.steps_same hsteps hl.branches, hmap⟩

end Log

/-! ### A store with one declared field -/

def Mishaps.nothing : Mishaps := ⟨.done, .done, fun _ => .done, none, false⟩

def rootArgs : Ops := ⟨none, none, .any⟩

def declared : Site :=
  { Site.new with
    log := after (Log.push 1 [.declareField "Doc" "title" .string 1 .source]
      (after (Log.createRoot (some "main") Log.new))) }

def begun : Happening := .served rootArgs 0 .nothing .idle .txBegin declared
def created : Happening := .served rootArgs 0 .nothing .idle (.txCreate "tx-1" "Doc") begun.after

theorem declared_run : Run [] declared := by
  have hroot : Log.Steps Log.new (after (Log.createRoot (some "main") Log.new)) :=
    .single (.createRoot (some "main"))
  have hl := Log.lasting_new.createRoot (some "main")
  have hb : ((after (Log.createRoot (some "main") Log.new)).branches.lookup 1).isSome := by decide +kernel
  exact .other _ none .start (hroot.trans (Log.push_steps hl.sound hb _)) (hl.push hb _)

theorem created_run : Run [created, begun] created.after := by
  have hbegun : Run [begun] begun.after := declared_run.served _ _ _ _ _ (by decide +kernel)
  exact hbegun.served _ _ _ _ _ (by decide +kernel)

end BorgCore
