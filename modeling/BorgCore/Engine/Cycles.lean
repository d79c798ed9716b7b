import BorgCore.Engine.Termination

/-!
# What is judged a cycle

An invocation is scheduled at most once in a wave, and in a later wave only where an invocation of the wave
before wrote what dirties it.  So what a round may count of an invocation is a matter of which distances
from the opening wave it is reached at, along what invocations read and write.
-/

namespace BorgCore

namespace Settling

variable {s s' start : Settling} {turn : Turn} {turns : ℕ → Turn}

/-! ### What invocations read and write -/

/-- What the runs of an invocation read and write at most. -/
structure Footprint where
  reads : Invocation → CellAt → Prop
  writes : Invocation → CellAt → Prop

/-- The runs of a round stay within a footprint, and so did those the dependency index knows. -/
structure Footprint.Covers (footprint : Footprint) (s : Settling) (turns : ℕ → Turn) : Prop where
  known : ∀ invocation cell, invocation ∈ s.engine.index.dependents.getD (s.scope.home, cell) [] →
    footprint.reads invocation cell
  running : ∀ n, ∀ run ∈ (s.after turns n).running,
    (∀ cell ∈ run.readSet, footprint.reads run.invocation cell) ∧
    ∀ cell ∈ run.writeSet, footprint.writes run.invocation cell

/-- What one invocation writes may dirty another: the other reads it, or it is of the other's entity in its
producer's source buffer. -/
def Feeds (footprint : Footprint) (s : Settling) (writer reader : Invocation) : Prop :=
  ∃ definition ∈ s.engine.producers.values, reader.producer = definition.id ∧
    DerivationEngine.peer (s.scope.defs.migrationRole definition) (some writer.producer) = false ∧
    ∃ cell, footprint.writes writer cell ∧ (footprint.reads reader cell ∨
      writer.producer ≠ definition.id ∧ cell.cell.buffer = definition.source ∧ cell.cell.pid = reader.input ∧
        (s.scope.defs.migrationRole definition).all (fun role => cell.version == role.input) = true)

/-- The opening wave has nothing for a producer, which gets its source buffer one wave later. -/
def Late (s : Settling) (invocation : Invocation) : Prop :=
  ∃ definition ∈ s.engine.producers.values, invocation.producer = definition.id ∧
    ∀ layer ∈ s.wave, s.engine.passesOver s.scope layer definition = true

/-- The invocations at a distance from the opening wave. -/
def Reached (footprint : Footprint) (s : Settling) : ℕ → Invocation → Prop
  | 0, invocation => ∃ definition ∈ s.engine.producers.values, ∃ layer ∈ s.wave,
      s.engine.Dirties s.scope s.seeded layer definition invocation
  | n + 1, invocation => (∃ writer, Reached footprint s n writer ∧ Feeds footprint s writer invocation) ∨
      n = 0 ∧ s.Late invocation

/-- No invocation is reached at more distances than it may run. -/
def Shallow (footprint : Footprint) (s : Settling) : Prop :=
  ∀ invocation, ∀ distances : Finset ℕ, (∀ n ∈ distances, Reached footprint s n invocation) →
    distances.card ≤ cycleRerunLimit

/-- **Dependencies without a cycle are shallow where their chains are short**, and no producer is late. -/
theorem shallow_of_rank {footprint : Footprint} (rank : Invocation → ℕ)
    (hrank : ∀ invocation, rank invocation < cycleRerunLimit)
    (hfeeds : ∀ writer reader, Feeds footprint s writer reader → rank writer < rank reader)
    (hlate : ∀ invocation, ¬ s.Late invocation) : Shallow footprint s := by
  have hreached : ∀ n invocation, Reached footprint s n invocation → n ≤ rank invocation := by
    intro n
    induction n with
    | zero => exact fun _ _ => Nat.zero_le _
    | succ n ih =>
      rintro invocation (⟨writer, hwriter, hfed⟩ | ⟨-, hl⟩)
      · exact Nat.lt_of_le_of_lt (ih writer hwriter) (hfeeds writer invocation hfed)
      · exact absurd hl (hlate invocation)
  intro invocation distances hall
  have hsub : distances ⊆ Finset.range cycleRerunLimit := fun n hn =>
    Finset.mem_range.2 (Nat.lt_of_le_of_lt (hreached n invocation (hall n hn)) (hrank invocation))
  exact (Finset.card_le_card hsub).trans_eq (Finset.card_range _)

/-! ### A wave after the opening one -/

/-- What a round keeps of its opening. -/
structure Within (start s : Settling) : Prop where
  sound : s.Sound
  scope : s.scope = start.scope
  producers : s.engine.producers = start.engine.producers
  live : s.engine.liveVersions = start.engine.liveVersions
  watermark : ∀ producer, s.engine.log.frontier.watermark start.scope.home producer =
    start.engine.log.frontier.watermark start.scope.home producer

/-- What is passed over at a position is settled by the opening. -/
theorem Within.passesAt (hw : start.Within s) (position : LayerId) (definition : ProducerDef) :
    s.engine.passesAt s.scope position definition = start.engine.passesAt start.scope position definition := by
  unfold DerivationEngine.passesAt DerivationEngine.isMaterializedVersion
  rw [hw.scope, hw.live, hw.watermark]

theorem Within.taken (hw : start.Within s) (hhome : start.scope.home ≠ start.scope.on) (h : Taken s turn s') :
    start.Within s' := by
  obtain ⟨log, index, poison, he⟩ := h.engine
  obtain ⟨own, works⟩ := h.works hw.sound
  refine ⟨hw.sound.taken h, h.scope.trans hw.scope, h.producers.trans hw.producers, ?_, fun producer => ?_⟩
  · rw [he]
    exact hw.live
  · refine (works.watermark start.scope.home ?_ producer).trans (hw.watermark producer)
    rw [hw.scope]
    exact hhome

/-- A layer of a run of the round, and who wrote it. -/
def WrittenBy (footprint : Footprint) (s : Settling) (layer : LayerId) (writer : Invocation) : Prop :=
  ∃ events, s.engine.log.commitAt layer =
    some ⟨s.scope.on, .value, .derived writer.producer s.scope.reflects, [], events, []⟩ ∧
    ∀ event ∈ events, footprint.writes writer event.at ∧
      event.derivation.map Derivation.producer = some writer.producer

theorem WrittenBy.position {footprint : Footprint} {layer : LayerId} {writer : Invocation}
    (h : WrittenBy footprint s layer writer) : s.engine.position layer = s.scope.reflects := by
  obtain ⟨events, hc, -⟩ := h
  obtain ⟨found, hl, -, -, -, hauthor, -⟩ := Log.commitAt_eq_some hc
  unfold DerivationEngine.position Log.authorOf Log.layer
  rw [hl, Option.map_some, ← hauthor]

theorem WrittenBy.taken {footprint : Footprint} {layer : LayerId} {writer : Invocation} (hs : s.Sound)
    (h : WrittenBy footprint s layer writer) (ht : Taken s turn s') : WrittenBy footprint s' layer writer := by
  obtain ⟨events, hc, hevents⟩ := h
  obtain ⟨own, works⟩ := ht.works hs
  refine ⟨events, ?_, hevents⟩
  rw [ht.scope]
  exact works.grows.commits hc

theorem WrittenBy.feeds {footprint : Footprint} {layer : LayerId} {writer reader : Invocation} (hs : s.Sound)
    (h : WrittenBy footprint s layer writer) {definition : ProducerDef}
    (hdefinition : definition ∈ s.engine.producers.values) {cells : List (CellAt × Option ProducerId)}
    (hcells : s.engine.cellsOf layer = .ok cells)
    (hedges : ∀ cell, reader ∈ s.engine.index.dependents.getD (s.scope.home, cell) [] →
      footprint.reads reader cell)
    (hin : reader ∈ s.engine.invalidatedBy s.scope cells definition) : Feeds footprint s writer reader := by
  obtain ⟨events, hc, hevents⟩ := h
  obtain ⟨_, _, _, _, _, _, _, hcontents, _⟩ := Log.commitAt_eq_some hc
  have hcontents : events = s.engine.log.storage.contents layer := hcontents
  rw [DerivationEngine.cellsOf_sound hs.log, ← hcontents] at hcells
  cases hcells
  have hproducer := DerivationEngine.producer_of_invalidatedBy hin
  have hentry {entry : CellAt × Option ProducerId}
      (he : entry ∈ events.map fun event => (event.at, event.derivation.map Derivation.producer)) :
      footprint.writes writer entry.1 ∧ entry.2 = some writer.producer := by
    obtain ⟨event, hevent, rfl⟩ := List.mem_map.1 he
    exact hevents event hevent
  unfold DerivationEngine.invalidatedBy at hin
  rcases List.mem_append.1 (List.mem_dedup.1 hin) with hin | hin
  · obtain ⟨cell, hcell, hedge⟩ := DependencyIndex.mem_dependentsOf.1 (List.mem_filter.1 hin).1
    obtain ⟨entry, hmem, rfl⟩ := List.mem_map.1 hcell
    obtain ⟨hmem, hpeer⟩ := List.mem_filter.1 hmem
    obtain ⟨hwrites, hauthor⟩ := hentry hmem
    have hpeer : (!DerivationEngine.peer (s.scope.defs.migrationRole definition) entry.2) = true := hpeer
    rw [hauthor, Bool.not_eq_true'] at hpeer
    exact ⟨definition, hdefinition, hproducer, hpeer, entry.1, hwrites, .inl (hedges entry.1 hedge)⟩
  · obtain ⟨entry, hmem, rfl⟩ := List.mem_map.1 hin
    obtain ⟨hmem, hnamed⟩ := List.mem_filter.1 hmem
    obtain ⟨hwrites, hauthor⟩ := hentry hmem
    simp only [hauthor, Bool.and_eq_true, Bool.not_eq_true', decide_eq_true_eq, ne_eq,
      Option.some.injEq] at hnamed
    obtain ⟨⟨⟨hpeer, hother⟩, hbuffer⟩, hversion⟩ := hnamed
    exact ⟨definition, hdefinition, hproducer, hpeer, entry.1, hwrites, .inr ⟨hother, hbuffer, rfl, hversion⟩⟩

/-! ### Wave after wave -/

/-- A producer that is not to be seeded any more. -/
def Decided (s : Settling) (definition : ProducerDef) : Prop :=
  (s.engine.isBroken s.scope.home definition.id).isSome ∨ definition.id ∈ s.seeded

theorem Decided.taken {definition : ProducerDef} (h : Decided s definition) (ht : Taken s turn s') :
    Decided s' definition := by
  unfold Decided
  rw [ht.scope]
  exact h.imp ht.broken (ht.seeded definition.id)

/-- Scheduling a wave decides every producer that does not pass over all of it. -/
theorem decided_of_wave {walk : LayerId → ProducerId → Walk} {out : Scheduling} (hs : s.Sound)
    (ran : Scheduling.schedule s.scope walk s.wave s.toSchedule = .ok () out) {layer : LayerId}
    {definition : ProducerDef} (hlayer : layer ∈ s.wave) (hdefinition : definition ∈ s.engine.producers.values)
    (hpass : s.engine.passesOver s.scope layer definition = false) :
    (out.engine.isBroken s.scope.home definition.id).isSome ∨ definition.id ∈ out.seeded :=
  (Scheduling.schedule_covers (s := s.toSchedule) hlayer hdefinition hpass
    (DerivationEngine.cellsOf_sound hs.log layer) ran).imp_right And.left

/-- A round in which `k + 1` waves have been scheduled. -/
structure Waves (footprint : Footprint) (start : Settling) (k : ℕ) (s : Settling) : Prop where
  within : start.Within s
  first : ∀ definition ∈ s.engine.producers.values,
    (∀ layer ∈ start.wave, start.engine.passesOver start.scope layer definition = true) ∨ Decided s definition
  later : 0 < k → ∀ definition ∈ s.engine.producers.values,
    start.engine.passesAt start.scope start.scope.reflects definition = true ∨ Decided s definition
  waiting : ∀ entry ∈ s.waiting, Reached footprint start k entry.2 ∧ entry.2.producer = entry.1.id
  running : ∀ run ∈ s.running, Reached footprint start k run.invocation
  wave : ∀ layer ∈ s.wave, ∃ writer, Reached footprint start k writer ∧ WrittenBy footprint s layer writer
  edges : ∀ invocation cell, invocation ∈ s.engine.index.dependents.getD (s.scope.home, cell) [] →
    footprint.reads invocation cell
  counted : ∀ invocation, ∃ distances : Finset ℕ,
    (∀ n ∈ distances, n < k + 1 ∧ Reached footprint start n invocation) ∧ s.runs invocation = distances.card

variable {footprint : Footprint} {k : ℕ}

/-- A wave is scheduled: what it dirties is one wave further. -/
theorem waves_scheduled {walk : LayerId → ProducerId → Walk} {out : Scheduling} (hw : start.Within s)
    (hhome : start.scope.home ≠ start.scope.on) (enabled : s.Enabled (.schedule walk))
    (ran : Scheduling.schedule s.scope walk s.wave s.toSchedule = .ok () out)
    (hdirty : ∀ definition ∈ s.engine.producers.values, ∀ layer ∈ s.wave, ∀ invocation,
      s.engine.Dirties s.scope s.seeded layer definition invocation → Reached footprint start k invocation)
    (hcounted : ∀ invocation, ∃ distances : Finset ℕ,
      (∀ n ∈ distances, n < k ∧ Reached footprint start n invocation) ∧ s.runs invocation = distances.card)
    (hedges : ∀ invocation cell, invocation ∈ s.engine.index.dependents.getD (s.scope.home, cell) [] →
      footprint.reads invocation cell)
    (hfirst : ∀ definition ∈ s.engine.producers.values,
      (∀ layer ∈ start.wave, start.engine.passesOver start.scope layer definition = true) ∨
        (out.engine.isBroken s.scope.home definition.id).isSome ∨ definition.id ∈ out.seeded)
    (hlater : 0 < k → ∀ layer ∈ s.wave, s.engine.position layer = s.scope.reflects) :
    Waves footprint start k { s with
      engine := out.engine, reruns := out.reruns, seeded := out.seeded, waiting := out.work, wave := [] } := by
  have hout : Scheduling.Schedules s.scope (fun definition invocation =>
      Reached footprint start k invocation ∧ invocation.producer = definition.id) s.toSchedule out :=
    (Scheduling.schedule_schedules fun layer hlayer definition hdefinition invocation hd =>
      ⟨hdirty definition hdefinition layer hlayer invocation hd, hd.producer_eq⟩).ok ran
  obtain ⟨poison, he⟩ := hout.engine
  obtain ⟨new, hwork, -, hnew⟩ := hout.work
  have hwork : out.work = new := hwork
  have hindex : out.engine.index = s.engine.index := by rw [he]; rfl
  have hproducers : out.engine.producers = s.engine.producers := by rw [he]; rfl
  refine ⟨hw.taken hhome (.scheduled enabled ran), fun definition hdefinition => ?_,
    fun hk definition hdefinition => ?_, fun entry hin => ?_, fun run hrun => ?_,
    fun _ hlayer => absurd hlayer List.not_mem_nil, fun invocation cell hin => ?_, fun invocation => ?_⟩
  · exact hfirst definition (hproducers ▸ hdefinition)
  · obtain ⟨seen, hseen⟩ := List.exists_mem_of_ne_nil s.wave enabled.2.1
    by_cases hpass : start.engine.passesAt start.scope start.scope.reflects definition = true
    · exact .inl hpass
    refine .inr (decided_of_wave hw.sound ran hseen (hproducers ▸ hdefinition) ?_)
    unfold DerivationEngine.passesOver
    rw [hw.passesAt, hlater hk seen hseen, hw.scope]
    exact Bool.eq_false_iff.2 hpass
  · have hin : entry ∈ new := hwork ▸ hin
    exact (hnew entry.1 entry.2 hin).1
  · have hrun : run ∈ s.running := hrun
    rw [enabled.2.2.2] at hrun
    cases hrun
  · rw [hindex] at hin
    exact hedges invocation cell hin
  · obtain ⟨distances, hall, hcard⟩ := hcounted invocation
    by_cases hin : invocation ∈ out.scheduled
    · obtain ⟨hruns, definition, ⟨hreached, -⟩, -⟩ := hout.counted invocation hin List.not_mem_nil
      refine ⟨insert k distances, fun n hn => ?_, ?_⟩
      · rcases Finset.mem_insert.1 hn with rfl | hn
        · exact ⟨Nat.lt_succ_self n, hreached⟩
        · exact ⟨Nat.lt_succ_of_lt (hall n hn).1, (hall n hn).2⟩
      · rw [Finset.card_insert_of_notMem fun hk => Nat.lt_irrefl k (hall k hk).1, ← hcard]
        exact hruns
    · refine ⟨distances, fun n hn => ⟨Nat.lt_succ_of_lt (hall n hn).1, (hall n hn).2⟩, ?_⟩
      exact (hout.other invocation hin).trans hcard

theorem Waves.dirty (hw : Waves footprint start k s) (hs : s.Sound) {definition : ProducerDef}
    (hdefinition : definition ∈ s.engine.producers.values) {layer : LayerId} (hlayer : layer ∈ s.wave)
    {invocation : Invocation} (hd : s.engine.Dirties s.scope s.seeded layer definition invocation) :
    Reached footprint start (k + 1) invocation := by
  obtain ⟨writer, hwriter, hwritten⟩ := hw.wave layer hlayer
  have hproducer := hd.producer_eq
  obtain ⟨hbroken, hpass, cells, hcells, hin | ⟨hunseeded, -⟩⟩ := hd
  · have hfeeds := hwritten.feeds hs hdefinition hcells (hw.edges invocation) hin
    unfold Feeds at hfeeds
    rw [hw.within.producers, hw.within.scope] at hfeeds
    exact .inl ⟨writer, hwriter, hfeeds⟩
  · -- a producer is seeded late only where the opening wave had nothing for it
    have hundecided : ¬ Decided s definition := by
      rintro (hb | hseeded)
      · rw [hbroken] at hb
        cases hb
      · exact hunseeded hseeded
    rcases Nat.eq_zero_or_pos k with rfl | hk
    · refine .inr ⟨rfl, definition, hw.within.producers ▸ hdefinition, hproducer, ?_⟩
      exact (hw.first definition hdefinition).resolve_right hundecided
    · have hpassed := (hw.later hk definition hdefinition).resolve_right hundecided
      unfold DerivationEngine.passesOver at hpass
      rw [hw.within.passesAt, hwritten.position, hw.within.scope, hpassed] at hpass
      cases hpass

theorem Waves.taken (hw : Waves footprint start k s) (hhome : start.scope.home ≠ start.scope.on)
    (hfootprint : ∀ run ∈ s.running, (∀ cell ∈ run.readSet, footprint.reads run.invocation cell) ∧
      ∀ cell ∈ run.writeSet, footprint.writes run.invocation cell) (h : Taken s turn s') :
    Waves footprint start k s' ∨ Waves footprint start (k + 1) s' := by
  have hs := hw.within.sound
  have hwithin := hw.within.taken hhome h
  have hfirst : ∀ definition ∈ s.engine.producers.values,
      (∀ layer ∈ start.wave, start.engine.passesOver start.scope layer definition = true) ∨ Decided s' definition :=
    fun definition hdefinition => (hw.first definition hdefinition).imp_right fun hd => hd.taken h
  have hlater : 0 < k → ∀ definition ∈ s.engine.producers.values,
      start.engine.passesAt start.scope start.scope.reflects definition = true ∨ Decided s' definition :=
    fun hk definition hdefinition => (hw.later hk definition hdefinition).imp_right fun hd => hd.taken h
  have hwave : ∀ layer ∈ s.wave, ∃ writer, Reached footprint start k writer ∧ WrittenBy footprint s' layer writer :=
    fun layer hlayer =>
      have ⟨writer, hreached, hwritten⟩ := hw.wave layer hlayer
      ⟨writer, hreached, hwritten.taken hs h⟩
  have hrest {index : Nat} : ∀ entry ∈ s.waiting.eraseIdx index,
      Reached footprint start k entry.2 ∧ entry.2.producer = entry.1.id :=
    fun entry hin => hw.waiting entry ((List.eraseIdx_sublist _ _).mem hin)
  have hothers {index : Nat} : ∀ run ∈ s.running.eraseIdx index, Reached footprint start k run.invocation :=
    fun run hin => hw.running run ((List.eraseIdx_sublist _ _).mem hin)
  cases h with
  | still => exact .inl hw
  | scheduled enabled ran =>
    refine .inr (waves_scheduled hw.within hhome enabled ran
      (fun definition hdefinition layer hlayer invocation hd => hw.dirty hs hdefinition hlayer hd) hw.counted
      hw.edges hfirst fun _ layer hlayer => ?_)
    obtain ⟨writer, -, hwritten⟩ := hw.wave layer hlayer
    exact hwritten.position
  | started enabled found works holds fresh =>
    obtain ⟨hreached, hproducer⟩ := hw.waiting _ (List.mem_of_getElem? found)
    refine .inl ⟨hwithin, hfirst, hlater, hrest, fun run hin => ?_, hwave, hw.edges, hw.counted⟩
    rcases List.mem_append.1 hin with hin | hin
    · exact hw.running run hin
    · obtain rfl := List.mem_singleton.1 hin
      rw [fresh.invocation_eq hproducer]
      exact hreached
  | refused enabled found => exact .inl ⟨hwithin, hfirst, hlater, hrest, hw.running, hwave, hw.edges, hw.counted⟩
  | went enabled found works holds definition input layer follows =>
    refine .inl ⟨hwithin, hfirst, hlater, hw.waiting, fun run hin => ?_, hwave, hw.edges, hw.counted⟩
    rcases List.mem_or_eq_of_mem_set hin with hin | rfl
    · exact hw.running run hin
    · rw [Running.invocation_congr definition input]
      exact hw.running _ (List.mem_of_getElem? found)
  | @ended index run log events enabled found done works committed wrote =>
    have hrun := List.mem_of_getElem? found
    obtain ⟨hreads, hwrites⟩ := hfootprint run hrun
    refine .inl ⟨hwithin, hfirst, hlater, hw.waiting, hothers, fun layer hlayer => ?_, fun invocation cell hin => ?_,
      hw.counted⟩
    · rcases List.mem_append.1 hlayer with hlayer | hlayer
      · exact hwave layer hlayer
      · obtain rfl := List.mem_singleton.1 hlayer
        refine ⟨run.invocation, hw.running run hrun, events, committed, fun event hevent => ?_⟩
        obtain ⟨hat, hby⟩ := wrote.1 event hevent
        exact ⟨hwrites event.at hat, hby⟩
    · rcases DependencyIndex.mem_record.1 hin with ⟨rfl, -, hcell⟩ | ⟨hold, -⟩
      · exact hreads cell hcell
      · exact hw.edges invocation cell hold
  | failed enabled found failed works =>
    exact .inl ⟨hwithin, hfirst, hlater, hw.waiting, hothers, hwave, hw.edges, hw.counted⟩
  | panicked => exact .inl ⟨hwithin, hfirst, hlater, hw.waiting, hw.running, hwave, hw.edges, hw.counted⟩

theorem Opening.no_start (h : start.Opening) (index : ℕ) : ¬ start.Enabled (.start index) := by
  intro enabled
  have hlt := enabled.2.1
  rw [h.waiting] at hlt
  exact Nat.not_lt_zero index hlt

theorem Opening.no_advance (h : start.Opening) (index : ℕ) : ¬ start.Enabled (.advance index) := by
  intro enabled
  have hlt := enabled.2
  rw [h.running] at hlt
  exact Nat.not_lt_zero index hlt

/-- However far a round has come, what it has counted it has reached. -/
theorem Opening.waves (h : start.Opening) (hhome : start.scope.home ≠ start.scope.on)
    (hfootprint : footprint.Covers start turns) (n : ℕ) :
    start.after turns n = start ∨ ∃ k, Waves footprint start k (start.after turns n) := by
  induction n with
  | zero => exact .inl rfl
  | succ n ih =>
    have htaken := after_taken h.sound turns n
    rcases ih with hstart | ⟨k, hw⟩
    · rw [hstart] at htaken
      generalize start.after turns (n + 1) = s' at htaken ⊢
      generalize turns n = turn at htaken
      cases htaken with
      | still => exact .inl rfl
      | @scheduled walk out enabled ran =>
        refine .inr ⟨0, waves_scheduled ⟨h.sound, rfl, rfl, rfl, fun _ => rfl⟩ hhome enabled ran
          (fun definition hdefinition layer hlayer invocation hd => ⟨definition, hdefinition, layer, hlayer, hd⟩)
          (fun invocation => ⟨∅, fun n hn => absurd hn (Finset.notMem_empty n), h.runs_zero invocation⟩)
          hfootprint.known (fun definition hdefinition => ?_) fun hk => absurd hk (Nat.lt_irrefl 0)⟩
        by_cases hall : ∀ layer ∈ start.wave, start.engine.passesOver start.scope layer definition = true
        · exact .inl hall
        · simp only [not_forall, Bool.not_eq_true] at hall
          obtain ⟨layer, hlayer, hpass⟩ := hall
          exact .inr (decided_of_wave h.sound ran hlayer hdefinition hpass)
      | started enabled => exact absurd enabled (h.no_start _)
      | refused enabled => exact absurd enabled (h.no_start _)
      | went enabled => exact absurd enabled (h.no_advance _)
      | ended enabled => exact absurd enabled (h.no_advance _)
      | failed enabled => exact absurd enabled (h.no_advance _)
      | panicked enabled => exact absurd enabled (h.no_advance _)
    · rcases hw.taken hhome (hfootprint.running n) htaken with hnext | hnext
      · exact .inr ⟨k, hnext⟩
      · exact .inr ⟨k + 1, hnext⟩

/-- **Shallow dependencies are never judged a cycle.** -/
theorem Opening.judges_nobody (h : start.Opening) (hhome : start.scope.home ≠ start.scope.on)
    (hfootprint : footprint.Covers start turns) (hshallow : Shallow footprint start) {n : ℕ}
    {walk : LayerId → ProducerId → Walk} (hturn : turns n = .schedule walk) :
    (start.after turns (n + 1)).engine.poison = (start.after turns n).engine.poison := by
  have hruns : ∀ invocation, (start.after turns (n + 1)).runs invocation ≤ cycleRerunLimit := by
    intro invocation
    rcases h.waves hhome hfootprint (n + 1) with hstart | ⟨k, hw⟩
    · rw [hstart, h.runs_zero]
      exact Nat.zero_le _
    · obtain ⟨distances, hall, hcard⟩ := hw.counted invocation
      rw [hcard]
      exact hshallow invocation distances fun n hn => (hall n hn).2
  have htaken := after_taken h.sound turns n
  rw [hturn] at htaken
  generalize start.after turns (n + 1) = s' at htaken hruns ⊢
  cases htaken with
  | still => rfl
  | scheduled enabled ran => exact congrArg DerivationEngine.poison ((Taken.schedules ran).judged hruns)

/-! ### What feeds on itself -/

def DirtiedBy (s : Settling) (layer : LayerId) (invocation : Invocation) : Prop :=
  ∃ definition ∈ s.engine.producers.values, s.engine.passesOver s.scope layer definition = false ∧
    ∃ cells, s.engine.cellsOf layer = .ok cells ∧ invocation ∈ s.engine.invalidatedBy s.scope cells definition

/-- Whatever one of these invocations commits dirties one of them. -/
def Feedback (members : Invocation → Prop) (s : Settling) (turns : ℕ → Turn) : Prop :=
  ∀ n index run, turns n = .advance index → (s.after turns n).Enabled (turns n) →
    (s.after turns n).running[index]? = some run → members run.invocation → run.code = .done →
    ∃ invocation, members invocation ∧ (s.after turns (n + 1)).DirtiedBy run.session.layer invocation

variable {members : Invocation → Prop}

/-- One of these invocations is scheduled, or about to be, or its producer is poisoned. -/
def Hot (members : Invocation → Prop) (s : Settling) : Prop :=
  (∃ entry ∈ s.waiting, members entry.2) ∨ (∃ run ∈ s.running, members run.invocation) ∨
  (∃ layer ∈ s.wave, (s.engine.log.commitAt layer).isSome ∧
    ∃ invocation, members invocation ∧ s.DirtiedBy layer invocation) ∨
  ∃ invocation, members invocation ∧ (s.engine.isBroken s.scope.home invocation.producer).isSome

/-- A layer goes on dirtying an invocation whose edges are left. -/
theorem DirtiedBy.within {layer : LayerId} {commit : Commit} {invocation : Invocation}
    (h : s.DirtiedBy layer invocation) (hw : start.Within s) (hw' : start.Within s')
    (hc : s.engine.log.commitAt layer = some commit) (hc' : s'.engine.log.commitAt layer = some commit)
    (hedges : ∀ key, invocation ∈ s.engine.index.dependents.getD key [] →
      invocation ∈ s'.engine.index.dependents.getD key []) : s'.DirtiedBy layer invocation := by
  obtain ⟨definition, hdefinition, hpass, cells, hcells, hin⟩ := h
  obtain ⟨found, hl, -, -, -, hauthor, -, hcontents, -⟩ := Log.commitAt_eq_some hc
  obtain ⟨found', hl', -, -, -, hauthor', -, hcontents', -⟩ := Log.commitAt_eq_some hc'
  have hposition : s'.engine.position layer = s.engine.position layer := by
    unfold DerivationEngine.position Log.authorOf Log.layer
    rw [hl, hl', Option.map_some, Option.map_some, ← hauthor, ← hauthor']
  have hsame : s'.engine.cellsOf layer = .ok cells := by
    rw [← hcells, DerivationEngine.cellsOf_sound hw.sound.log, DerivationEngine.cellsOf_sound hw'.sound.log,
      ← hcontents, ← hcontents']
  refine ⟨definition, hw'.producers ▸ hw.producers ▸ hdefinition, ?_, cells, hsame, ?_⟩
  · unfold DerivationEngine.passesOver at hpass ⊢
    rw [hw.passesAt] at hpass
    rw [hw'.passesAt, hposition]
    exact hpass
  · unfold DerivationEngine.invalidatedBy at hin ⊢
    rw [hw'.scope, ← hw.scope]
    rcases List.mem_append.1 (List.mem_dedup.1 hin) with hin | hin
    · obtain ⟨hin, hproducer⟩ := List.mem_filter.1 hin
      obtain ⟨cell, hcell, hedge⟩ := DependencyIndex.mem_dependentsOf.1 hin
      refine List.mem_dedup.2 (List.mem_append_left _ (List.mem_filter.2 ⟨?_, hproducer⟩))
      exact DependencyIndex.mem_dependentsOf.2 ⟨cell, hcell, hedges _ hedge⟩
    · exact List.mem_dedup.2 (List.mem_append_right _ hin)

/-- A wave that dirties one of them schedules it, or its producer is judged. -/
theorem hot_scheduled {walk : LayerId → ProducerId → Walk} {out : Scheduling}
    (ran : Scheduling.schedule s.scope walk s.wave s.toSchedule = .ok () out) {layer : LayerId}
    (hlayer : layer ∈ s.wave) {invocation : Invocation} (hmember : members invocation)
    (h : s.DirtiedBy layer invocation) : Hot members { s with
      engine := out.engine, reruns := out.reruns, seeded := out.seeded, waiting := out.work, wave := [] } := by
  obtain ⟨definition, hdefinition, hpass, cells, hcells, hin⟩ := h
  have hproducer := DerivationEngine.producer_of_invalidatedBy hin
  rcases Scheduling.schedule_covers (s := s.toSchedule) hlayer hdefinition hpass hcells ran with
    hbroken | ⟨-, hscheduled⟩
  · exact .inr (.inr (.inr ⟨invocation, hmember, hproducer ▸ hbroken⟩))
  · rcases (Taken.schedules ran).placed invocation (hscheduled invocation hin) List.not_mem_nil with
      ⟨definition, hwork⟩ | hbroken
    · exact .inl ⟨_, hwork, hmember⟩
    · exact .inr (.inr (.inr ⟨invocation, hmember, hbroken⟩))

theorem recorded_isBroken {engine : DerivationEngine} {branch : BranchId} {producer : ProducerId}
    {since : LayerId} {err : BorgError} :
    ((engine.recordPoisoning branch producer since err).isBroken branch producer).isSome := by
  rw [DerivationEngine.isBroken_recordPoisoning, if_pos rfl]

/-- **What feeds on itself goes on until it is judged.** -/
theorem Hot.taken {known : Invocation → Prop} (hhot : Hot members s) (hw : start.Within s)
    (hhome : start.scope.home ≠ start.scope.on) (ht : s.Tracked known) (h : Taken s turn s')
    (hfeedback : ∀ index run, turn = .advance index → s.Enabled turn → s.running[index]? = some run →
      members run.invocation → run.code = .done →
      ∃ invocation, members invocation ∧ s'.DirtiedBy run.session.layer invocation) : Hot members s' := by
  have hs := hw.sound
  have hw' := hw.taken hhome h
  obtain ⟨own, works⟩ := h.works hs
  have hbroken (hb : ∃ invocation, members invocation ∧
      (s.engine.isBroken s.scope.home invocation.producer).isSome) : Hot members s' := by
    obtain ⟨invocation, hmember, hb⟩ := hb
    refine .inr (.inr (.inr ⟨invocation, hmember, ?_⟩))
    rw [h.scope]
    exact h.broken hb
  -- a layer of the wave goes on dirtying a member whose edges the turn leaves
  have hlayer (hkeeps : ∀ layer ∈ s.wave, layer ∈ s'.wave)
      (hedges : ∀ invocation, members invocation → ∀ key, invocation ∈ s.engine.index.dependents.getD key [] →
        invocation ∈ s'.engine.index.dependents.getD key [])
      (hd : ∃ layer ∈ s.wave, (s.engine.log.commitAt layer).isSome ∧
        ∃ invocation, members invocation ∧ s.DirtiedBy layer invocation) : Hot members s' := by
    obtain ⟨layer, hin, hc, invocation, hmember, hd⟩ := hd
    obtain ⟨commit, hc⟩ := Option.isSome_iff_exists.1 hc
    have hc' := works.grows.commits hc
    refine .inr (.inr (.inl ⟨layer, hkeeps layer hin, by rw [hc']; rfl, invocation, hmember, ?_⟩))
    exact hd.within hw hw' hc hc' (hedges invocation hmember)
  cases h with
  | still => exact hhot
  | @scheduled walk out enabled ran =>
    rcases hhot with ⟨entry, hin, -⟩ | ⟨run, hin, -⟩ | ⟨layer, hin, -, invocation, hmember, hd⟩ | hb
    · rw [enabled.2.2.1] at hin
      cases hin
    · rw [enabled.2.2.2] at hin
      cases hin
    · exact hot_scheduled ran hin hmember hd
    · exact hbroken hb
  | @started index definition invocation run log enabled found _ holds fresh =>
    obtain ⟨-, hproducer, -⟩ := ht.waiting _ (List.mem_of_getElem? found)
    rcases hhot with ⟨entry, hin, hmember⟩ | ⟨other, hin, hmember⟩ | hd | hb
    · by_cases he : entry = (definition, invocation)
      · refine .inr (.inl ⟨run, List.mem_append_right _ (List.mem_singleton_self run), ?_⟩)
        have hsame : entry.2 = invocation := congrArg Prod.snd he
        rw [fresh.invocation_eq hproducer]
        exact hsame ▸ hmember
      · exact .inl ⟨entry, mem_eraseIdx_of_ne hin found he, hmember⟩
    · exact .inr (.inl ⟨other, List.mem_append_left _ hin, hmember⟩)
    · exact hlayer (fun _ hin => hin) (fun _ _ _ hin => hin) hd
    · exact hbroken hb
  | @refused index definition invocation err enabled found =>
    obtain ⟨-, hproducer, -⟩ := ht.waiting _ (List.mem_of_getElem? found)
    rcases hhot with ⟨entry, hin, hmember⟩ | ⟨other, hin, hmember⟩ | hd | hb
    · by_cases he : entry = (definition, invocation)
      · refine .inr (.inr (.inr ⟨entry.2, hmember, ?_⟩))
        rw [he, hproducer]
        exact recorded_isBroken
      · exact .inl ⟨entry, mem_eraseIdx_of_ne hin found he, hmember⟩
    · exact .inr (.inl ⟨other, hin, hmember⟩)
    · exact hlayer (fun _ hin => hin) (fun _ _ _ hin => hin) hd
    · exact hbroken hb
  | @went index run next log enabled found _ holds definition input layer follows =>
    rcases hhot with ⟨entry, hin, hmember⟩ | ⟨other, hin, hmember⟩ | hd | hb
    · exact .inl ⟨entry, hin, hmember⟩
    · by_cases he : other = run
      · refine .inr (.inl ⟨next, List.mem_set (List.getElem?_eq_some_iff.1 found).1 _, ?_⟩)
        rw [Running.invocation_congr definition input]
        exact he ▸ hmember
      · exact .inr (.inl ⟨other, mem_set_of_ne hin found he, hmember⟩)
    · exact hlayer (fun _ hin => hin) (fun _ _ _ hin => hin) hd
    · exact hbroken hb
  | @ended index run log events enabled found done _ committed wrote =>
    by_cases hown : members run.invocation
    · obtain ⟨invocation, hmember, hd⟩ := hfeedback index run rfl enabled found hown done
      refine .inr (.inr (.inl ⟨run.session.layer, List.mem_append_right _ (List.mem_singleton_self _), ?_,
        invocation, hmember, hd⟩))
      show (log.commitAt _).isSome
      rw [committed]
      rfl
    · rcases hhot with ⟨entry, hin, hmember⟩ | ⟨other, hin, hmember⟩ | hd | hb
      · exact .inl ⟨entry, hin, hmember⟩
      · exact .inr (.inl ⟨other, mem_eraseIdx_of_ne hin found fun he => hown (he ▸ hmember), hmember⟩)
      · refine hlayer (fun _ hin => List.mem_append_left _ hin) (fun invocation hmember key hin => ?_) hd
        refine DependencyIndex.mem_record.2 (.inr ⟨hin, fun ⟨he, _⟩ => hown (he ▸ hmember)⟩)
      · exact hbroken hb
  | @failed index run log err enabled found failed _ =>
    rcases hhot with ⟨entry, hin, hmember⟩ | ⟨other, hin, hmember⟩ | hd | hb
    · exact .inl ⟨entry, hin, hmember⟩
    · by_cases he : other = run
      · exact .inr (.inr (.inr ⟨other.invocation, hmember, he ▸ recorded_isBroken⟩))
      · exact .inr (.inl ⟨other, mem_eraseIdx_of_ne hin found he, hmember⟩)
    · exact hlayer (fun _ hin => hin) (fun _ _ _ hin => hin) hd
    · exact hbroken hb
  | panicked => exact hhot

theorem Opening.hot (h : start.Opening) (hhome : start.scope.home ≠ start.scope.on)
    (hfeedback : Feedback members start turns) {invocation : Invocation} (hmember : members invocation) {n : ℕ}
    (hrun : 0 < start.starts turns invocation n) : Hot members (start.after turns n) := by
  have hwithin : ∀ n, start.Within (start.after turns n) := by
    intro n
    induction n with
    | zero => exact ⟨h.sound, rfl, rfl, rfl, fun _ => rfl⟩
    | succ n ih => exact ih.taken hhome (after_taken h.sound turns n)
  induction n with
  | zero => exact absurd hrun (Nat.lt_irrefl 0)
  | succ n ih =>
    have hhot : Hot members (start.after turns n) := by
      by_cases hstart : (start.after turns n).startOf (turns n) = some invocation
      swap
      · have hsame : start.starts turns invocation (n + 1) = start.starts turns invocation n + 0 := by
          show _ + (if _ then 1 else 0) = _
          rw [if_neg hstart]
        rw [hsame] at hrun
        exact ih hrun
      -- what a turn starts was waiting
      cases hturn : turns n with
      | schedule walk => rw [hturn] at hstart; cases hstart
      | advance index => rw [hturn] at hstart; cases hstart
      | start index =>
        rw [hturn] at hstart
        unfold startOf at hstart
        dsimp only at hstart
        split at hstart
        · obtain ⟨entry, hfound, rfl⟩ := Option.map_eq_some_iff.1 hstart
          exact .inl ⟨entry, List.mem_of_getElem? hfound, hmember⟩
        · cases hstart
    exact hhot.taken (hwithin n) hhome (h.tracked turns n) (after_taken h.sound turns n)
      fun index run hturn enabled hfound hown hdone =>
      hfeedback n index run hturn enabled hfound hown hdone

theorem Opening.feedback_judged (h : start.Opening) (hhome : start.scope.home ≠ start.scope.on)
    (hfeedback : Feedback members start turns) {n : ℕ} (hsettled : (start.after turns n).Settled)
    (hrun : ∃ invocation, members invocation ∧ 0 < start.starts turns invocation n) :
    ∃ invocation, members invocation ∧
      ((start.after turns n).engine.isBroken (start.after turns n).scope.home invocation.producer).isSome := by
  obtain ⟨invocation, hmember, hpos⟩ := hrun
  obtain ⟨-, hwave, hwaiting, hrunning⟩ := hsettled
  rcases h.hot hhome hfeedback hmember hpos with ⟨entry, hin, -⟩ | ⟨run, hin, -⟩ | ⟨layer, hin, -⟩ | hb
  · rw [hwaiting] at hin
    cases hin
  · rw [hrunning] at hin
    cases hin
  · rw [hwave] at hin
    cases hin
  · exact hb

theorem begin_scope {engine : DerivationEngine} {branch : BranchId} {span : Span} (hlog : engine.log.Sound)
    (hbranch : (engine.log.branches.lookup branch).isSome) (h : begin engine branch span = .ok s) :
    s.scope.home = branch ∧ s.scope.home ≠ s.scope.on := by
  obtain ⟨found, hfound⟩ := Option.isSome_iff_exists.1 hbranch
  have hlt := (hlog.branch_id hfound).2.1
  unfold begin at h
  cases hl : engine.log.layer span.forkAt with
  | none => rw [hl] at h; cases h
  | some layer =>
    rw [hl] at h
    have hb : engine.log.branchOf span.forkAt = some layer.branch := by
      unfold Log.branchOf
      rw [hl]
      rfl
    dsimp only at h
    rw [Log.fork_run hlog hb] at h
    dsimp only at h
    split at h
    · cases h
    · cases h
      exact ⟨rfl, Nat.ne_of_lt hlt⟩

/-- **What is judged a cycle**: where what a round's runs read and write reaches no invocation at more
distances than it may run, scheduling poisons nobody; and where what some invocations commit always dirties
one of them again, one of their producers is poisoned before the round settles. -/
theorem cycles_judged {engine : DerivationEngine} {branch : BranchId} {span : Span} (hlog : engine.log.Sound)
    (hbranch : (engine.log.branches.lookup branch).isSome) (hbegin : begin engine branch span = .ok s)
    (turns : ℕ → Turn) :
    (∀ footprint : Footprint, footprint.Covers s turns → Shallow footprint s →
      ∀ n walk, turns n = .schedule walk →
        (s.after turns (n + 1)).engine.poison = (s.after turns n).engine.poison) ∧
    ∀ members : Invocation → Prop, Feedback members s turns → ∀ n, (s.after turns n).Settled →
      (∃ invocation, members invocation ∧ 0 < s.starts turns invocation n) →
      ∃ invocation, members invocation ∧
        ((s.after turns n).engine.isBroken branch invocation.producer).isSome := by
  have hopening := begin_opening hlog hbegin
  obtain ⟨rfl, hhome⟩ := begin_scope hlog hbranch hbegin
  refine ⟨fun footprint hcovers hshallow n walk hturn => hopening.judges_nobody hhome hcovers hshallow hturn,
    fun members hfeedback n hsettled hrun => ?_⟩
  have hjudged := hopening.feedback_judged hhome hfeedback hsettled hrun
  rw [after_scope hopening.sound] at hjudged
  exact hjudged

/-! ### A chain of pipelines -/

namespace Pipelines

/-- A test holds in every state of a round run one run at a time. -/
def throughout (test : Settling → Bool) : ℕ → Settling → Bool
  | 0, s => test s
  | n + 1, s => test s && throughout test n (s.next s.inTurn)

theorem driven_of_throughout {test : Settling → Bool} {n : ℕ} {s : Settling}
    (h : throughout test n s = true) {k : ℕ} (hk : k ≤ n) : test (driven k s) = true := by
  induction k generalizing n s with
  | zero => cases n with
    | zero => exact h
    | succ n => exact (Bool.and_eq_true_iff.1 h).1
  | succ k ih => cases n with
    | zero => exact absurd hk (Nat.not_succ_le_zero k)
    | succ n => exact ih (Bool.and_eq_true_iff.1 h).2 (Nat.le_of_succ_le_succ hk)

/-- Each pipeline reads what the one before writes. -/
def chained : Footprint where
  reads invocation cell := cell.cell = output (invocation.producer - 1)
  writes invocation cell := cell.cell = output invocation.producer

def isChained (s : Settling) : Bool :=
  s.running.all fun run =>
    run.readSet.all (fun cell => cell.cell = output (run.definition.id - 1)) &&
    run.writeSet.all fun cell => cell.cell = output run.definition.id

theorem chained_covers {count m : ℕ} {s : Settling}
    (hbegin : begin (engine count relay) 1 landed = .ok s) (hover : (driven m s).isOver = true)
    (hchained : throughout isChained m s = true) : chained.Covers s s.drivenTurns := by
  have hlog := engine_sound count relay
  refine ⟨fun invocation cell hin => ?_, fun n run hrun => ?_⟩
  · rw [(begin_fresh hbegin).1] at hin
    cases hin
  · have hn : isChained (s.after s.drivenTurns n) = true := by
      rcases Nat.le_total n m with hle | hle
      · rw [after_driven]
        exact driven_of_throughout hchained hle
      · rw [after_stuck (begin_sound hlog hbegin) (by rw [after_driven]; exact stuck_of_isOver hover) hle,
          after_driven]
        exact driven_of_throughout hchained (Nat.le_refl m)
    have hall := List.all_eq_true.1 hn run hrun
    simp only [Bool.and_eq_true, List.all_eq_true, decide_eq_true_eq] at hall
    exact hall

def isRegistered (count : ℕ) (s : Settling) : Bool :=
  s.engine.producers.values.all fun definition =>
    decide (1 ≤ definition.id ∧ definition.id ≤ count ∧ definition.source = .object "Company")

theorem output_inj {writer reader : ProducerId} (hreader : reader < 9) (h : output writer = output reader) :
    writer = reader := by
  have hsmall : ∀ reader < 9, ∀ writer < 10, output writer = output reader → writer = reader := by decide +kernel
  have hz : ∀ reader < 9, CellRef.prop "Company" "z" acme ≠ output reader := by decide +kernel
  by_cases hlt : writer < 10
  · exact hsmall reader hreader writer hlt h
  · have hbeyond : output writer = CellRef.prop "Company" "z" acme := by
      unfold output
      rw [List.getD_eq_getElem?_getD, List.getElem?_eq_none (Nat.not_lt.1 hlt)]
      rfl
    exact absurd (hbeyond.symm.trans h) (hz reader hreader)

/-- A chain has no cycle: a pipeline feeds the next one only. -/
theorem chained_feeds {count : ℕ} {s : Settling} (hcount : count ≤ 9) (hregistered : isRegistered count s = true)
    {writer reader : Invocation} (h : Feeds chained s writer reader) :
    writer.producer < reader.producer ∧ reader.producer ≤ count := by
  obtain ⟨definition, hdefinition, hproducer, -, cell, hwrites, hreads | ⟨-, hbuffer, -⟩⟩ := h
  · obtain ⟨hpos, hle, -⟩ := of_decide_eq_true (List.all_eq_true.1 hregistered definition hdefinition)
    have hwrites : cell.cell = output writer.producer := hwrites
    have hreads : cell.cell = output (reader.producer - 1) := hreads
    rw [← hproducer] at hpos hle
    have hlt : reader.producer - 1 < reader.producer := Nat.sub_lt hpos Nat.one_pos
    rw [output_inj (Nat.lt_of_lt_of_le hlt (Nat.le_trans hle hcount)) (hwrites.symm.trans hreads)]
    exact ⟨hlt, hle⟩
  · obtain ⟨-, -, hsource⟩ := of_decide_eq_true (List.all_eq_true.1 hregistered definition hdefinition)
    have hwrites : cell.cell = output writer.producer := hwrites
    rw [hwrites, hsource] at hbuffer
    cases hbuffer

/-- Nine pipelines in a row: the last is judged to be cycling, though nothing depends on what it writes. -/
theorem long_chain_judged : ∃ s, begin (engine 9 relay) 1 landed = .ok s ∧ (engine 9 relay).log.Sound ∧
    chained.Covers s s.drivenTurns ∧
    (∀ writer reader, Feeds chained s writer reader → writer.producer < reader.producer) ∧
    ∃ n record, (s.after s.drivenTurns n).engine.poison.lookup (1, 9) = some record ∧
      record.error = .producerCycle 9 9 := by
  obtain ⟨s, hbegin, htest⟩ := begin_tested (engine 9 relay)
    (fun s => isRegistered 9 s && (driven 185 s).isOver && throughout isChained 185 s &&
      ((driven 185 s).engine.poison.lookup (1, 9)).any fun record => record.error == .producerCycle 9 9)
    (by decide +kernel)
  simp only [Bool.and_eq_true, Option.any_eq_true_iff_get] at htest
  obtain ⟨⟨⟨hregistered, hover⟩, hchained⟩, hsome, herror⟩ := htest
  refine ⟨s, hbegin, engine_sound 9 relay, chained_covers hbegin hover hchained,
    fun writer reader h => (chained_feeds (Nat.le_refl 9) hregistered h).1, 185, _, ?_, beq_iff_eq.1 herror⟩
  rw [after_driven]
  exact (Option.some_get hsome).symm

/-- A pipeline that reads what it writes. -/
def selfish (producer : ProducerId) : Code :=
  .get (output producer) fun _ => .set (output producer) (.int 1) fun _ => .done

/-- Whether a run that is about to commit dirties itself. -/
def isFedBack (s : Settling) : Bool :=
  match s.running with
  | [] => true
  | run :: _ =>
    match run.code with
    | .done =>
      let next := s.next s.inTurn
      next.engine.producers.values.any fun definition =>
        !next.engine.passesOver next.scope run.session.layer definition &&
          (next.engine.cellsOf run.session.layer).toOption.any fun cells =>
            decide (run.invocation ∈ next.engine.invalidatedBy next.scope cells definition)
    | _ => true

theorem fedBack {s : Settling} {run : Running} (h : isFedBack s = true) (hrun : s.running[0]? = some run)
    (hdone : run.code = .done) : (s.next s.inTurn).DirtiedBy run.session.layer run.invocation := by
  obtain ⟨rest, hrest⟩ : ∃ rest, s.running = run :: rest := by
    cases hs : s.running with
    | nil => rw [hs] at hrun; cases hrun
    | cons head rest => rw [hs] at hrun; cases hrun; exact ⟨rest, rfl⟩
  unfold isFedBack at h
  rw [hrest] at h
  dsimp only at h
  rw [hdone] at h
  obtain ⟨definition, hdefinition, hand⟩ := List.any_eq_true.1 h
  obtain ⟨hpass, hany⟩ := Bool.and_eq_true_iff.1 hand
  rw [Bool.not_eq_true'] at hpass
  refine ⟨definition, hdefinition, hpass, ?_⟩
  cases hcells : (s.next s.inTurn).engine.cellsOf run.session.layer with
  | error err => rw [hcells] at hany; cases hany
  | ok cells =>
    rw [hcells] at hany
    exact ⟨cells, rfl, of_decide_eq_true hany⟩

theorem starts_mono {s : Settling} {turns : ℕ → Turn} {invocation : Invocation} {n m : ℕ} (hle : n ≤ m) :
    s.starts turns invocation n ≤ s.starts turns invocation m := by
  induction m, hle using Nat.le_induction with
  | base => exact Nat.le_refl _
  | succ m _ ih => exact Nat.le_trans ih (Nat.le_add_right _ _)

/-- Two pipelines in a row are never judged, and one that reads what it writes is. -/
theorem short_chain_spared :
    (∃ s, begin (engine 2 relay) 1 landed = .ok s ∧ ∀ n walk, s.drivenTurns n = .schedule walk →
      (s.after s.drivenTurns (n + 1)).engine.poison = (s.after s.drivenTurns n).engine.poison) ∧
    ∃ s, begin (engine 1 selfish) 1 landed = .ok s ∧
      ((s.after s.drivenTurns 60).engine.isBroken 1 1).isSome := by
  constructor
  · obtain ⟨s, hbegin, htest⟩ := begin_tested (engine 2 relay)
      (fun s => isRegistered 2 s && (driven 20 s).isOver && throughout isChained 20 s &&
        s.engine.producers.values.all fun definition =>
          s.wave.any fun layer => !s.engine.passesOver s.scope layer definition)
      (by decide +kernel)
    simp only [Bool.and_eq_true] at htest
    obtain ⟨⟨⟨hregistered, hover⟩, hchained⟩, hpunctual⟩ := htest
    refine ⟨s, hbegin, (cycles_judged (engine_sound 2 relay) (by decide +kernel) hbegin s.drivenTurns).1 chained
      (chained_covers hbegin hover hchained) (shallow_of_rank (fun invocation => min invocation.producer 7)
        (fun invocation => ?_) (fun writer reader h => ?_) fun invocation h => ?_)⟩
    · exact Nat.lt_of_le_of_lt (Nat.min_le_right _ _) (by decide)
    · obtain ⟨hlt, hle⟩ := chained_feeds (by decide) hregistered h
      show min (writer.producer : ℕ) 7 < min (reader.producer : ℕ) 7
      rw [Nat.min_eq_left (Nat.le_trans hle (by decide))]
      exact Nat.lt_of_le_of_lt (Nat.min_le_left _ _) hlt
    · obtain ⟨definition, hdefinition, -, hpass⟩ := h
      obtain ⟨layer, hlayer, hnot⟩ := List.any_eq_true.1 (List.all_eq_true.1 hpunctual definition hdefinition)
      rw [hpass layer hlayer] at hnot
      cases hnot
  · obtain ⟨s, hbegin, htest⟩ := begin_tested (engine 1 selfish)
      (fun s => (driven 60 s).isOver && (driven 60 s).failed.isNone && throughout isFedBack 60 s &&
        decide ((driven 1 s).startOf (driven 1 s).inTurn = some ⟨1, acme⟩))
      (by decide +kernel)
    simp only [Bool.and_eq_true, decide_eq_true_eq, Option.isNone_iff_eq_none] at htest
    obtain ⟨⟨⟨hover, hfailed⟩, hfed⟩, hstart⟩ := htest
    have hlog := engine_sound 1 selfish
    have hstuck := stuck_of_isOver hover
    rw [← after_driven] at hstuck hfailed
    have hfeedback : Feedback (· = ⟨1, acme⟩) s s.drivenTurns := by
      intro n index run hturn enabled hfound hown hdone
      have hlt : n < 60 := by
        by_contra hge
        rw [after_stuck (begin_sound hlog hbegin) hstuck (Nat.not_lt.1 hge)] at enabled
        exact hstuck _ enabled
      have hhead : (driven n s).running[0]? = some run := by
        rw [after_driven] at hfound
        have hindex : (driven n s).inTurn = .advance index := hturn
        unfold inTurn at hindex
        split at hindex
        · cases hindex
          exact hfound
        · split at hindex
          · cases hindex
          · cases hindex
      have hdirtied := fedBack (driven_of_throughout hfed (Nat.le_of_lt hlt)) hhead hdone
      rw [← driven_succ, ← after_driven] at hdirtied
      exact ⟨run.invocation, hown, hdirtied⟩
    have hstarts : 0 < s.starts s.drivenTurns ⟨1, acme⟩ 60 := by
      refine Nat.lt_of_lt_of_le ?_ (starts_mono (show 2 ≤ 60 by decide))
      show 0 < s.starts s.drivenTurns ⟨1, acme⟩ 1 + if _ then 1 else 0
      rw [after_driven, show s.drivenTurns 1 = (driven 1 s).inTurn from rfl, if_pos hstart]
      exact Nat.succ_pos _
    have hsettled : (s.after s.drivenTurns 60).Settled :=
      (settled_of_stuck hstuck).resolve_right fun hne => hne hfailed
    obtain ⟨invocation, rfl, hbroken⟩ := (cycles_judged hlog (by decide +kernel) hbegin s.drivenTurns).2
      (· = ⟨1, acme⟩) hfeedback 60 hsettled ⟨⟨1, acme⟩, rfl, hstarts⟩
    exact ⟨s, hbegin, hbroken⟩

end Pipelines

end Settling

end BorgCore
