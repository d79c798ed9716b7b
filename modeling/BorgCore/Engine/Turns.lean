import BorgCore.Engine.Presence
import BorgCore.Engine.Reruns
import BorgCore.Engine.Rounds
import BorgCore.Engine.Working

/-!
# Turns of a round

What one turn of a round can do is said once, in `Taken`: a turn that cannot be taken changes nothing, a
wave is scheduled, a run begins, makes a call, or ends.  The round's own invariant is that every run under
way holds a layer of its own.
-/

namespace BorgCore

/-! ### A sound log answers -/

namespace DerivationEngine

variable {engine : DerivationEngine}

theorem cellsOf_sound (h : engine.log.Sound) (layer : LayerId) :
    engine.cellsOf layer = .ok ((engine.log.storage.contents layer).map fun event =>
      (event.at, event.derivation.map Derivation.producer)) := by
  unfold cellsOf
  rw [h.storage.readLayer layer]
  rfl

theorem usable_sound (h : engine.log.Sound) (path : ReadPath) (role : Option MigrationRole) (cell : CellRef) :
    ∃ answer, engine.usable path role cell = .ok answer := by
  cases role with
  | none => exact ⟨true, rfl⟩
  | some role =>
    unfold usable
    dsimp only
    rw [h.storage.getCell path cell role.input]
    cases Timeline.nearest (engine.log.storage.recordAt · cell role.input) path.segments with
    | none => exact ⟨false, rfl⟩
    | some found => exact ⟨_, rfl⟩

theorem backfill_sound (scope : RunAt) (h : engine.log.Sound) (definition : ProducerDef) :
    ∃ seeds, engine.backfill scope definition = .ok seeds := by
  unfold backfill
  dsimp only
  split
  · exact ⟨[], rfl⟩
  have hrows : ∃ rows, engine.log.storage.scanBuffer (engine.log.readPath scope.on none) definition.source =
      .ok rows := ⟨_, MemoryStorage.mapM_event (h.storage.scanFrom_stored _)⟩
  obtain ⟨rows, hrows⟩ := hrows
  obtain ⟨usable, husable⟩ := Calls.filterM_ok
    (fun cell => usable_sound h (engine.log.readPath scope.on none) (scope.defs.migrationRole definition) cell)
    (rows.map Event.cell).dedup
  exact ⟨_, (Calls.except_bind_ok hrows).trans ((Calls.except_bind_ok husable).trans rfl)⟩

end DerivationEngine

namespace Scheduling

variable {scope : RunAt} {s : Scheduling}

theorem offer_ok (scope : RunAt) (h : s.engine.log.Sound) (walk : Walk) (layer : LayerId)
    (cells : List (CellAt × Option ProducerId)) (definition : ProducerDef) :
    ∃ out, offer scope walk layer cells definition s = .ok () out := by
  unfold offer
  split
  · exact ⟨s, rfl⟩
  split
  · exact ⟨s, rfl⟩
  dsimp only
  split
  · exact ⟨_, rfl⟩
  obtain ⟨seeds, hseeds⟩ := DerivationEngine.backfill_sound scope h definition
  rw [hseeds]
  exact ⟨_, rfl⟩

theorem Schedules.log {offered : ProducerDef → Invocation → Prop} {out : Scheduling}
    (h : Schedules scope offered s out) : out.engine.log = s.engine.log := by
  obtain ⟨poison, he⟩ := h.engine
  rw [he]

theorem offerAll_ok (scope : RunAt) (h : s.engine.log.Sound) (walk : ProducerId → Walk) (layer : LayerId)
    {cells : List (CellAt × Option ProducerId)} (hcells : s.engine.cellsOf layer = .ok cells)
    (definitions : List ProducerDef) :
    ∃ out, offerAll scope walk layer cells definitions s = .ok () out := by
  induction definitions generalizing s with
  | nil => exact ⟨s, rfl⟩
  | cons definition rest ih =>
    obtain ⟨mid, hoffer⟩ := offer_ok scope h (walk definition.id) layer cells definition
    have hmid : Schedules scope (fun _ _ => True) s mid := (offer_schedules hcells fun _ _ => trivial).ok hoffer
    obtain ⟨out, hrest⟩ := ih (by rw [hmid.log]; exact h) (hmid.cells hcells)
    exact ⟨out, (Calls.bind_ok hoffer).trans hrest⟩

theorem schedule_ok (scope : RunAt) (h : s.engine.log.Sound) (walk : LayerId → ProducerId → Walk)
    (wave : List LayerId) : ∃ out, schedule scope walk wave s = .ok () out := by
  induction wave generalizing s with
  | nil => exact ⟨s, rfl⟩
  | cons layer rest ih =>
    have hcells := DerivationEngine.cellsOf_sound h layer
    obtain ⟨mid, hall⟩ := offerAll_ok scope h (walk layer) layer hcells s.engine.producers.values
    have hmid : Schedules scope (fun _ _ => True) s mid :=
      (offerAll_schedules hcells fun _ _ _ _ => trivial).ok hall
    obtain ⟨out, hrest⟩ := ih (by rw [hmid.log]; exact h)
    refine ⟨out, (Calls.bind_ok Calls.get_run).trans ?_⟩
    rw [hcells]
    exact (Calls.bind_ok hall).trans hrest

end Scheduling

namespace Settling

variable {s s' : Settling} {turn : Turn}

def Enabled (s : Settling) : Turn → Prop
  | .schedule _ => s.failed = none ∧ s.wave ≠ [] ∧ s.waiting = [] ∧ s.running = []
  | .start index => s.failed = none ∧ index < s.waiting.length ∧ s.running.length < s.engine.parallelism
  | .advance index => s.failed = none ∧ index < s.running.length

/-- Every run under way holds a layer of its own. -/
structure Sound (s : Settling) : Prop where
  log : s.engine.log.Sound
  on : (s.engine.log.branches.lookup s.scope.on).isSome
  holds : ∀ run ∈ s.running, run.Holds s.scope s.engine.log
  apart : (s.running.map fun run => run.session.layer).Nodup

/-- What scheduling starts from. -/
def toSchedule (s : Settling) : Scheduling := ⟨s.engine, s.reruns, s.seeded, [], []⟩

/-- **What a turn can do.** -/
inductive Taken (s : Settling) : Turn → Settling → Prop
  | still {turn : Turn} (stands : ¬ s.Enabled turn) : Taken s turn s
  | scheduled {walk : LayerId → ProducerId → Walk} {out : Scheduling} (enabled : s.Enabled (.schedule walk))
      (ran : Scheduling.schedule s.scope walk s.wave s.toSchedule = .ok () out) :
      Taken s (.schedule walk) { s with
        engine := out.engine, reruns := out.reruns, seeded := out.seeded, waiting := out.work, wave := [] }
  | started {index : Nat} {definition : ProducerDef} {invocation : Invocation} {run : Running} {log : Log}
      (enabled : s.Enabled (.start index)) (found : s.waiting[index]? = some (definition, invocation))
      (works : Log.Works s.scope.on (fun _ => False) s.engine.log log) (holds : run.Holds s.scope log)
      (fresh : run.Fresh s.engine s.engine.log definition invocation.input) :
      Taken s (.start index) { s with
        engine := { s.engine with log }, waiting := s.waiting.eraseIdx index, running := s.running ++ [run] }
  | refused {index : Nat} {definition : ProducerDef} {invocation : Invocation} {err : BorgError}
      (enabled : s.Enabled (.start index)) (found : s.waiting[index]? = some (definition, invocation)) :
      Taken s (.start index) ({ s with waiting := s.waiting.eraseIdx index }.poisoned definition.id err)
  | went {index : Nat} {run next : Running} {log : Log} (enabled : s.Enabled (.advance index))
      (found : s.running[index]? = some run)
      (works : Log.Works s.scope.on (· = run.session.layer) s.engine.log log) (holds : next.Holds s.scope log)
      (definition : next.definition = run.definition) (input : next.input = run.input)
      (layer : next.session.layer = run.session.layer) (follows : next.code.Follows run.code) :
      Taken s (.advance index) { s with
        engine := { s.engine with log }, running := s.running.set index next }
  | ended {index : Nat} {run : Running} {log : Log} {events : List Event} (enabled : s.Enabled (.advance index))
      (found : s.running[index]? = some run) (done : run.code = .done)
      (works : Log.Works s.scope.on (· = run.session.layer) s.engine.log log)
      (committed : log.commitAt run.session.layer = some (run.commitOf s.scope events))
      (wrote : run.Wrote events) :
      Taken s (.advance index) { s with
        engine := { s.engine with
          index := s.engine.index.record s.scope.home run.invocation run.readSet run.writeSet, log }
        running := s.running.eraseIdx index
        round := s.round.ran run.session.layer run.readSet run.writeSet
        executed := s.executed + 1
        wave := s.wave ++ [run.session.layer] }
  | failed {index : Nat} {run : Running} {log : Log} {err : BorgError} (enabled : s.Enabled (.advance index))
      (found : s.running[index]? = some run) (failed : run.code = .fail err)
      (works : Log.Works s.scope.on (· = run.session.layer) s.engine.log log) :
      Taken s (.advance index) ({ s with
        engine := { s.engine with log }, running := s.running.eraseIdx index }.poisoned run.definition.id err)
  | panicked {index : Nat} {run : Running} (enabled : s.Enabled (.advance index))
      (found : s.running[index]? = some run) (panicked : run.code = .panic) :
      Taken s (.advance index) { s with failed := some .unfinished }

theorem next_of_failed (h : s.failed ≠ none) (turn : Turn) : s.next turn = s := by
  unfold next
  rw [if_pos (Option.isSome_iff_ne_none.2 h)]

theorem next_taken (hs : s.Sound) (turn : Turn) : Taken s turn (s.next turn) := by
  by_cases hfailed : s.failed = none
  swap
  · rw [next_of_failed hfailed]
    exact .still fun h => by cases turn <;> exact hfailed h.1
  unfold next
  rw [if_neg (by rw [hfailed]; exact Bool.false_ne_true)]
  cases turn with
  | schedule walk =>
    dsimp only
    split
    · rename_i hidle
      refine .still fun ⟨_, hwave, hwaiting, hrunning⟩ => ?_
      rcases hidle with h | h | h
      · exact hwave h
      · exact h hwaiting
      · exact h hrunning
    · rename_i hready
      have henabled : s.Enabled (.schedule walk) :=
        ⟨hfailed, fun h => hready (.inl h), Classical.byContradiction fun h => hready (.inr (.inl h)),
          Classical.byContradiction fun h => hready (.inr (.inr h))⟩
      obtain ⟨out, hout⟩ := Scheduling.schedule_ok (s := s.toSchedule) s.scope hs.log walk s.wave
      have hrun : Scheduling.schedule s.scope walk s.wave ⟨s.engine, s.reruns, s.seeded, [], []⟩ = .ok () out := hout
      unfold schedule
      rw [hrun]
      exact .scheduled henabled hout
  | start index =>
    dsimp only
    unfold start
    cases hfound : s.waiting[index]? with
    | none =>
      exact .still fun h => absurd h.2.1 (Nat.not_lt.2 (List.getElem?_eq_none_iff.1 hfound))
    | some entry =>
      obtain ⟨definition, invocation⟩ := entry
      dsimp only
      split
      · rename_i hfull
        exact .still fun h => absurd h.2.2 (Nat.not_lt.2 hfull)
      rename_i hroom
      have henabled : s.Enabled (.start index) :=
        ⟨hfailed, (List.getElem?_eq_some_iff.1 hfound).1, Nat.not_le.1 hroom⟩
      rcases Running.begin_works s.engine hs.log hs.on definition invocation.input with
        ⟨err, hbegin⟩ | ⟨run, log, hbegin, hworks, hholds, hfresh⟩
      · rw [hbegin]
        exact .refused henabled hfound
      · rw [hbegin]
        exact .started henabled hfound hworks hholds hfresh
  | advance index =>
    dsimp only
    unfold advance
    cases hfound : s.running[index]? with
    | none =>
      exact .still fun h => absurd h.2 (Nat.not_lt.2 (List.getElem?_eq_none_iff.1 hfound))
    | some run =>
      have henabled : s.Enabled (.advance index) := ⟨hfailed, (List.getElem?_eq_some_iff.1 hfound).1⟩
      have hadvance := Running.advance_advances hs.log (hs.holds run (List.mem_of_getElem? hfound))
      dsimp only
      generalize run.advance s.scope s.engine = turned at hadvance
      cases hadvance with
      | goes works holds definition input layer follows =>
        exact .went henabled hfound works holds definition input layer follows
      | ends done works committed wrote => exact .ended henabled hfound done works committed wrote
      | fails failed works => exact .failed henabled hfound failed works
      | panics panicked => exact .panicked henabled hfound panicked

theorem next_of_disabled (hs : s.Sound) (h : ¬ s.Enabled turn) : s.next turn = s := by
  have htaken := next_taken hs turn
  generalize s.next turn = s' at htaken
  cases htaken with
  | still => rfl
  | scheduled enabled => exact absurd enabled h
  | started enabled => exact absurd enabled h
  | refused enabled => exact absurd enabled h
  | went enabled => exact absurd enabled h
  | ended enabled => exact absurd enabled h
  | failed enabled => exact absurd enabled h
  | panicked enabled => exact absurd enabled h

/-! ### What every turn keeps -/

theorem Taken.scope (h : Taken s turn s') : s'.scope = s.scope := by cases h <;> rfl

/-- A turn moves what is written and what is judged, and nothing else of the engine. -/
theorem Taken.engine (h : Taken s turn s') : ∃ log index poison,
    s'.engine = { s.engine with log := log, index := index, poison := poison } := by
  cases h with
  | still => exact ⟨_, _, _, rfl⟩
  | scheduled enabled ran =>
    have hout : Scheduling.Schedules s.scope (fun _ _ => True) s.toSchedule _ :=
      (Scheduling.schedule_schedules fun _ _ _ _ _ _ => trivial).ok ran
    obtain ⟨poison, he⟩ := hout.engine
    exact ⟨_, _, poison, he⟩
  | started => exact ⟨_, _, _, rfl⟩
  | refused => exact ⟨_, _, _, rfl⟩
  | went => exact ⟨_, _, _, rfl⟩
  | ended => exact ⟨_, _, _, rfl⟩
  | failed => exact ⟨_, _, _, rfl⟩
  | panicked => exact ⟨_, _, _, rfl⟩

theorem Taken.producers (h : Taken s turn s') : s'.engine.producers = s.engine.producers := by
  obtain ⟨log, index, poison, he⟩ := h.engine
  rw [he]

/-- A run that is replaced or over is not among the others. -/
theorem other_of_mem_set {α : Type} {as : List α} {index : Nat} {a b : α} (h : b ∈ as.set index a) :
    b = a ∨ ∃ j, j ≠ index ∧ as[j]? = some b := by
  obtain ⟨j, hj⟩ := List.mem_iff_getElem?.1 h
  rw [List.getElem?_set] at hj
  by_cases he : index = j
  · rw [if_pos he] at hj
    split at hj
    · exact .inl (Option.some.inj hj).symm
    · cases hj
  · rw [if_neg he] at hj
    exact .inr ⟨j, fun h => he h.symm, hj⟩

theorem mem_eraseIdx_of_ne {α : Type} {as : List α} {index : Nat} {a b : α} (h : b ∈ as)
    (ha : as[index]? = some a) (hne : b ≠ a) : b ∈ as.eraseIdx index := by
  obtain ⟨j, hj⟩ := List.mem_iff_getElem?.1 h
  refine List.mem_eraseIdx_iff_getElem?.2 ⟨j, fun he => hne ?_, hj⟩
  rw [he, ha] at hj
  exact (Option.some.inj hj).symm

theorem mem_set_of_ne {α : Type} {as : List α} {index : Nat} {a b next : α} (h : b ∈ as)
    (ha : as[index]? = some a) (hne : b ≠ a) : b ∈ as.set index next := by
  obtain ⟨j, hj⟩ := List.mem_iff_getElem?.1 h
  refine List.mem_iff_getElem?.2 ⟨j, ?_⟩
  rw [List.getElem?_set, if_neg fun he => hne ?_, hj]
  rw [← he, ha] at hj
  exact (Option.some.inj hj).symm

theorem Sound.layer_ne (hs : s.Sound) {i j : Nat} {run other : Running} (hi : s.running[i]? = some run)
    (hj : s.running[j]? = some other) (hne : j ≠ i) : other.session.layer ≠ run.session.layer := by
  intro he
  have hlt : j < (s.running.map fun run => run.session.layer).length := by
    rw [List.length_map]
    exact (List.getElem?_eq_some_iff.1 hj).1
  refine hne ((List.getElem?_inj hlt hs.apart).1 ?_)
  rw [List.getElem?_map, List.getElem?_map, hi, hj]
  exact congrArg some he

theorem Sound.others (hs : s.Sound) {index : Nat} {run : Running} (hfound : s.running[index]? = some run)
    {log : Log} (works : Log.Works s.scope.on (· = run.session.layer) s.engine.log log) {j : Nat}
    {other : Running} (hj : s.running[j]? = some other) (hne : j ≠ index) : other.Holds s.scope log :=
  (hs.holds other (List.mem_of_getElem? hj)).spared works (hs.layer_ne hfound hj hne)

/-- **Every turn keeps every run on a layer of its own.** -/
theorem Sound.taken (hs : s.Sound) (h : Taken s turn s') : s'.Sound := by
  cases h with
  | still => exact hs
  | scheduled enabled ran =>
    have hout : Scheduling.Schedules s.scope (fun _ _ => True) s.toSchedule _ :=
      (Scheduling.schedule_schedules fun _ _ _ _ _ _ => trivial).ok ran
    have hlog : _ = s.engine.log := hout.log
    exact ⟨by rw [hlog]; exact hs.log, by rw [hlog]; exact hs.on, by rw [hlog]; exact hs.holds, hs.apart⟩
  | started enabled found works holds fresh =>
    refine ⟨works.sound, works.grows.registered hs.on, fun run hrun => ?_, ?_⟩
    · rcases List.mem_append.1 hrun with hrun | hrun
      · exact (hs.holds run hrun).spared works not_false
      · obtain rfl := List.mem_singleton.1 hrun
        exact holds
    · show (List.map _ (_ ++ _)).Nodup
      rw [List.map_append, List.map_singleton, List.nodup_append]
      refine ⟨hs.apart, List.nodup_singleton _, fun layer hlayer other hother => ?_⟩
      obtain ⟨run, hrun, rfl⟩ := List.mem_map.1 hlayer
      obtain rfl := List.mem_singleton.1 hother
      rw [fresh.layer]
      exact Nat.ne_of_lt (hs.log.owns_lt (hs.holds run hrun).owns)
  | refused => exact ⟨hs.log, hs.on, hs.holds, hs.apart⟩
  | went enabled found works holds definition input layer follows =>
    refine ⟨works.sound, works.grows.registered hs.on, fun run hrun => ?_, ?_⟩
    · rcases other_of_mem_set hrun with rfl | ⟨j, hne, hj⟩
      · exact holds
      · exact hs.others found works hj hne
    · show (List.map _ (List.set _ _ _)).Nodup
      obtain ⟨hlt, rfl⟩ := List.getElem?_eq_some_iff.1 found
      rw [List.map_set, layer, ← List.map_set, List.set_getElem_self]
      exact hs.apart
  | ended enabled found done works committed wrote =>
    refine ⟨works.sound, works.grows.registered hs.on, fun run hrun => ?_,
      hs.apart.sublist ((List.eraseIdx_sublist _ _).map _)⟩
    obtain ⟨j, hne, hj⟩ := List.mem_eraseIdx_iff_getElem?.1 hrun
    exact hs.others found works hj hne
  | failed enabled found failed works =>
    refine ⟨works.sound, works.grows.registered hs.on, fun run hrun => ?_,
      hs.apart.sublist ((List.eraseIdx_sublist _ _).map _)⟩
    obtain ⟨j, hne, hj⟩ := List.mem_eraseIdx_iff_getElem?.1 hrun
    exact hs.others found works hj hne
  | panicked => exact ⟨hs.log, hs.on, hs.holds, hs.apart⟩

/-- What a turn does to the log is a call of a run. -/
theorem Taken.works (hs : s.Sound) (h : Taken s turn s') :
    ∃ own, Log.Works s.scope.on own s.engine.log s'.engine.log := by
  cases h with
  | @scheduled walk out enabled ran =>
    have hout : Scheduling.Schedules s.scope (fun _ _ => True) s.toSchedule out :=
      (Scheduling.schedule_schedules fun _ _ _ _ _ _ => trivial).ok ran
    have hlog : out.engine.log = s.engine.log := hout.log
    refine ⟨fun _ => False, ?_⟩
    rw [hlog]
    exact .refl hs.log
  | still => exact ⟨fun _ => False, .refl hs.log⟩
  | started enabled found works holds fresh => exact ⟨_, works⟩
  | refused => exact ⟨fun _ => False, .refl hs.log⟩
  | went enabled found works => exact ⟨_, works⟩
  | ended enabled found done works => exact ⟨_, works⟩
  | failed enabled found failed works => exact ⟨_, works⟩
  | panicked => exact ⟨fun _ => False, .refl hs.log⟩

/-- A judgement stands for the rest of the round. -/
theorem Taken.broken (h : Taken s turn s') {branch : BranchId} {producer : ProducerId}
    (hb : (s.engine.isBroken branch producer).isSome) : (s'.engine.isBroken branch producer).isSome := by
  have hjudged {engine : DerivationEngine} {home : BranchId} {judged : ProducerId} {since : LayerId}
      {err : BorgError} (hb : (engine.isBroken branch producer).isSome) :
      ((engine.recordPoisoning home judged since err).isBroken branch producer).isSome := by
    rw [DerivationEngine.isBroken_recordPoisoning]
    split
    · rfl
    · exact hb
  cases h with
  | @scheduled walk out enabled ran =>
    have hout : Scheduling.Schedules s.scope (fun _ _ => True) s.toSchedule out :=
      (Scheduling.schedule_schedules fun _ _ _ _ _ _ => trivial).ok ran
    exact hout.broken branch producer hb
  | still => exact hb
  | started => exact hb
  | refused => exact hjudged hb
  | went => exact hb
  | ended => exact hb
  | failed => exact hjudged hb
  | panicked => exact hb

/-- **A round begins on a branch of its own**, with nothing under way. -/
theorem begin_sound {engine : DerivationEngine} {branch : BranchId} {span : Span}
    (hlog : engine.log.Sound) (h : begin engine branch span = .ok s) : s.Sound := by
  unfold begin at h
  cases hl : engine.log.layer span.forkAt with
  | none => rw [hl] at h; cases h
  | some layer =>
    rw [hl] at h
    have hb : engine.log.branchOf span.forkAt = some layer.branch := by
      unfold Log.branchOf
      rw [hl]
      rfl
    dsimp only at h
    rw [Log.fork_run hlog hb] at h
    dsimp only at h
    split at h
    · cases h
    · cases h
      refine ⟨hlog.branched none _ fun id hid => ?_, ?_, fun _ h => absurd h List.not_mem_nil, List.nodup_nil⟩
      · cases hid
        exact ⟨_, hb⟩
      · show ((engine.log.branches.insert engine.log.nextBranch _).lookup engine.log.nextBranch).isSome
        rw [AssocMap.lookup_insert_eq, if_pos rfl]
        rfl

/-! ### What its merge is given -/

/-- The merge of a round has a branch to land on, and a committed layer of every invocation. -/
structure Mergeable (s : Settling) : Prop where
  parent : (s.engine.log.branches.lookup s.round.parent).isSome
  layers : ∀ layer ∈ s.round.layers, (s.engine.log.commitAt layer).isSome

theorem Mergeable.grows (h : s.Mergeable) {own : LayerId → Prop}
    (works : Log.Works s.scope.on own s.engine.log s'.engine.log) (hround : s'.round = s.round) : s'.Mergeable where
  parent := by
    rw [hround]
    exact works.grows.registered h.parent
  layers layer hl := by
    rw [hround] at hl
    obtain ⟨commit, hc⟩ := Option.isSome_iff_exists.1 (h.layers layer hl)
    rw [works.grows.commits hc]
    rfl

theorem Mergeable.taken (h : s.Mergeable) (hs : s.Sound) (ht : Taken s turn s') : s'.Mergeable := by
  obtain ⟨_, hworks⟩ := ht.works hs
  cases ht with
  | ended enabled found done works committed wrote =>
    refine ⟨works.grows.registered h.parent, fun layer hl => ?_⟩
    rcases Round.mem_layers_ran.1 hl with rfl | hl
    · exact Option.isSome_iff_exists.2 ⟨_, committed⟩
    · obtain ⟨commit, hc⟩ := Option.isSome_iff_exists.1 (h.layers layer hl)
      exact Option.isSome_iff_exists.2 ⟨commit, works.grows.commits hc⟩
  | still => exact h
  | scheduled => exact h.grows hworks rfl
  | started => exact h.grows hworks rfl
  | refused => exact h.grows hworks rfl
  | went => exact h.grows hworks rfl
  | failed => exact h.grows hworks rfl
  | panicked => exact h.grows hworks rfl

theorem begin_mergeable {engine : DerivationEngine} {branch : BranchId} {span : Span} (hlog : engine.log.Sound)
    (hb : (engine.log.branches.lookup branch).isSome) (h : begin engine branch span = .ok s) : s.Mergeable := by
  unfold begin at h
  cases hl : engine.log.layer span.forkAt with
  | none =>
    rw [hl] at h
    cases h
  | some layer =>
    rw [hl] at h
    have hfork : engine.log.branchOf span.forkAt = some layer.branch := by
      unfold Log.branchOf
      rw [hl]
      rfl
    dsimp only at h
    rw [Log.fork_run hlog hfork] at h
    dsimp only at h
    split at h
    · cases h
    · cases h
      refine ⟨?_, fun _ hin => absurd hin (List.not_mem_nil)⟩
      exact AssocMap.isSome_lookup_insert hb _ _

end Settling

end BorgCore
