import Mathlib.Data.List.Dedup
import BorgCore.Engine.Derive

/-!
# What scheduling counts

A wave is scheduled one layer after another, and each layer is offered to one producer after another.
`Schedules` says once what any stretch of that does: which work it adds, what it counts, and that it judges
a producer only where a count has passed the limit.
-/

namespace BorgCore

namespace DerivationEngine

variable {engine : DerivationEngine} {branch branch' : BranchId} {producer producer' : ProducerId}
  {since : LayerId} {err : BorgError}

/-- A judgement stands at once, and speaks about its own producer only. -/
theorem isBroken_recordPoisoning :
    ((engine.recordPoisoning branch producer since err).isBroken branch' producer').isSome =
      if (branch', producer') = (branch, producer) then true
      else (engine.isBroken branch' producer').isSome := by
  have hstands : (engine.recordPoisoning branch producer since err).stands
      ⟨producer, (engine.versionOf producer).getD 0, err, since⟩ = true := by
    have hsame : (engine.recordPoisoning branch producer since err).versionOf producer =
      engine.versionOf producer := rfl
    cases hversion : engine.versionOf producer with
    | none => simp [stands, hsame, hversion]
    | some version => simp [stands, hsame, hversion, Poisoning.appliesTo]
  unfold isBroken
  show (Option.filter _ ((engine.poison.insert (branch, producer) _).lookup (branch', producer'))).isSome = _
  rw [AssocMap.lookup_insert_eq]
  split
  · rw [Option.filter_some, if_pos hstands]
    rfl
  · rfl

/-- What a layer of a wave dirties, where these producers have been seeded already. -/
def Dirties (engine : DerivationEngine) (scope : RunAt) (seeded : List ProducerId) (layer : LayerId)
    (definition : ProducerDef) (invocation : Invocation) : Prop :=
  (engine.isBroken scope.home definition.id).isSome = false ∧
  engine.passesOver scope layer definition = false ∧ ∃ cells, engine.cellsOf layer = .ok cells ∧
    (invocation ∈ engine.invalidatedBy scope cells definition ∨
      definition.id ∉ seeded ∧ ∃ seeds, engine.backfill scope definition = .ok seeds ∧ invocation ∈ seeds)

theorem producer_of_invalidatedBy {scope : RunAt} {cells : List (CellAt × Option ProducerId)}
    {definition : ProducerDef} {invocation : Invocation}
    (h : invocation ∈ engine.invalidatedBy scope cells definition) : invocation.producer = definition.id := by
  unfold invalidatedBy at h
  rcases List.mem_append.1 (List.mem_dedup.1 h) with h | h
  · exact of_decide_eq_true (List.mem_filter.1 h).2
  · obtain ⟨entry, _, rfl⟩ := List.mem_map.1 h
    rfl

theorem producer_of_backfill {scope : RunAt} {definition : ProducerDef} {seeds : List Invocation}
    (h : engine.backfill scope definition = .ok seeds) {invocation : Invocation} (hin : invocation ∈ seeds) :
    invocation.producer = definition.id := by
  unfold backfill at h
  dsimp only at h
  split at h
  · cases h
    cases hin
  · obtain ⟨rows, _, h⟩ := Calls.except_bind_eq_ok h
    obtain ⟨usable, _, h⟩ := Calls.except_bind_eq_ok h
    cases h
    obtain ⟨cell, _, rfl⟩ := List.mem_map.1 hin
    rfl

theorem Dirties.producer_eq {scope : RunAt} {seeded : List ProducerId} {layer : LayerId}
    {definition : ProducerDef} {invocation : Invocation}
    (h : engine.Dirties scope seeded layer definition invocation) : invocation.producer = definition.id := by
  obtain ⟨_, _, cells, _, h | ⟨_, seeds, hs, h⟩⟩ := h
  · exact producer_of_invalidatedBy h
  · exact producer_of_backfill hs h

end DerivationEngine

namespace Scheduling

variable {scope : RunAt} {offered : ProducerDef → Invocation → Prop} {s mid out : Scheduling}

/-- From one point of scheduling a wave to a later one. -/
structure Schedules (scope : RunAt) (offered : ProducerDef → Invocation → Prop) (s out : Scheduling) :
    Prop where
  engine : ∃ poison, out.engine = { s.engine with poison := poison }
  broken : ∀ branch producer, (s.engine.isBroken branch producer).isSome →
    (out.engine.isBroken branch producer).isSome
  work : ∃ new, out.work = s.work ++ new ∧ (new.map Prod.snd).Nodup ∧ ∀ definition invocation,
    (definition, invocation) ∈ new → offered definition invocation ∧ invocation ∉ s.scheduled ∧
      invocation ∈ out.scheduled ∧ out.runs invocation ≤ cycleRerunLimit
  kept : ∀ invocation ∈ s.scheduled, invocation ∈ out.scheduled ∧ out.runs invocation = s.runs invocation
  counted : ∀ invocation ∈ out.scheduled, invocation ∉ s.scheduled →
    out.runs invocation = s.runs invocation + 1 ∧
      ∃ definition, offered definition invocation ∧ definition.id ∈ out.seeded
  other : ∀ invocation, invocation ∉ out.scheduled → out.runs invocation = s.runs invocation
  placed : ∀ invocation ∈ out.scheduled, invocation ∉ s.scheduled →
    (∃ definition, (definition, invocation) ∈ out.work) ∨
      (out.engine.isBroken scope.home invocation.producer).isSome
  judged : (∀ invocation, out.runs invocation ≤ cycleRerunLimit) → out.engine = s.engine
  seeded : ∀ producer ∈ s.seeded, producer ∈ out.seeded

namespace Schedules

theorem refl (s : Scheduling) : Schedules scope offered s s where
  engine := ⟨s.engine.poison, rfl⟩
  broken _ _ h := h
  work := ⟨[], (List.append_nil _).symm, List.nodup_nil, fun _ _ h => absurd h List.not_mem_nil⟩
  kept _ h := ⟨h, rfl⟩
  counted _ h hn := absurd h hn
  other _ _ := rfl
  placed _ h hn := absurd h hn
  judged _ := rfl
  seeded _ h := h

theorem runs_le (h : Schedules scope offered s out) (invocation : Invocation) :
    s.runs invocation ≤ out.runs invocation := by
  by_cases hout : invocation ∈ out.scheduled
  · by_cases hs : invocation ∈ s.scheduled
    · exact (h.kept invocation hs).2.ge
    · rw [(h.counted invocation hout hs).1]
      exact Nat.le_succ _
  · exact (h.other invocation hout).ge

theorem trans (h : Schedules scope offered s mid) (h' : Schedules scope offered mid out) :
    Schedules scope offered s out where
  engine := by
    obtain ⟨poison, he⟩ := h.engine
    obtain ⟨poison', he'⟩ := h'.engine
    exact ⟨poison', by rw [he', he]⟩
  broken branch producer hb := h'.broken branch producer (h.broken branch producer hb)
  work := by
    obtain ⟨new, hw, hn, hnew⟩ := h.work
    obtain ⟨new', hw', hn', hnew'⟩ := h'.work
    refine ⟨new ++ new', by rw [hw', hw, List.append_assoc], ?_, ?_⟩
    · rw [List.map_append]
      refine hn.append hn' fun invocation hin hin' => ?_
      obtain ⟨⟨definition, _⟩, hmem, rfl⟩ := List.mem_map.1 hin
      obtain ⟨⟨definition', _⟩, hmem', heq⟩ := List.mem_map.1 hin'
      obtain rfl : _ = _ := heq
      exact (hnew' _ _ hmem').2.1 (hnew _ _ hmem).2.2.1
    · intro definition invocation hmem
      rcases List.mem_append.1 hmem with hmem | hmem
      · obtain ⟨ho, hs, hm, hle⟩ := hnew definition invocation hmem
        obtain ⟨hin, hruns⟩ := h'.kept invocation hm
        exact ⟨ho, hs, hin, by rw [hruns]; exact hle⟩
      · obtain ⟨ho, hm, hin, hle⟩ := hnew' definition invocation hmem
        exact ⟨ho, fun hs => hm (h.kept invocation hs).1, hin, hle⟩
  kept invocation hs := by
    obtain ⟨hm, hruns⟩ := h.kept invocation hs
    obtain ⟨hin, hruns'⟩ := h'.kept invocation hm
    exact ⟨hin, hruns'.trans hruns⟩
  counted invocation hout hs := by
    by_cases hm : invocation ∈ mid.scheduled
    · obtain ⟨hruns, definition, hoffered, hseeded⟩ := h.counted invocation hm hs
      exact ⟨(h'.kept invocation hm).2.trans hruns, definition, hoffered, h'.seeded _ hseeded⟩
    · rw [(h'.counted invocation hout hm).1, h.other invocation hm]
      exact ⟨rfl, (h'.counted invocation hout hm).2⟩
  other invocation hout := by
    have hm : invocation ∉ mid.scheduled := fun hm => hout (h'.kept invocation hm).1
    rw [h'.other invocation hout, h.other invocation hm]
  placed invocation hout hs := by
    by_cases hm : invocation ∈ mid.scheduled
    · refine (h.placed invocation hm hs).imp (fun ⟨definition, hw⟩ => ?_) (h'.broken _ _)
      obtain ⟨new, hnew, -⟩ := h'.work
      exact ⟨definition, by rw [hnew]; exact List.mem_append_left _ hw⟩
    · exact h'.placed invocation hout hm
  judged hle := by
    rw [h'.judged hle]
    exact h.judged fun invocation => (h'.runs_le invocation).trans (hle invocation)
  seeded producer hs := h'.seeded producer (h.seeded producer hs)

end Schedules

/-! ### One producer's candidates -/

theorem runs_count (s : Scheduling) (invocation other : Invocation) :
    (s.count invocation).runs other = if other = invocation then s.runs invocation + 1 else s.runs other :=
  AssocMap.getD_insert ..

theorem count_schedules {definition : ProducerDef} {invocation : Invocation}
    (hoffered : offered definition invocation) (hseeded : definition.id ∈ s.seeded)
    (hnot : invocation ∉ s.scheduled) {engine : DerivationEngine}
    {new work : List (ProducerDef × Invocation)} (hwork : work = s.work ++ new)
    (hplaced : new = [(definition, invocation)] ∧ (s.count invocation).runs invocation ≤ cycleRerunLimit ∧
        engine = s.engine ∨
      new = [] ∧ cycleRerunLimit < (s.count invocation).runs invocation ∧
        ∃ err, engine = s.engine.recordPoisoning scope.home invocation.producer scope.reflects err) :
    Schedules scope offered s { s.count invocation with engine := engine, work := work } where
  engine := by
    rcases hplaced with ⟨-, -, rfl⟩ | ⟨-, -, err, rfl⟩
    · exact ⟨s.engine.poison, rfl⟩
    · exact ⟨_, rfl⟩
  broken branch producer hb := by
    show (engine.isBroken branch producer).isSome
    rcases hplaced with ⟨-, -, rfl⟩ | ⟨-, -, err, rfl⟩
    · exact hb
    · rw [DerivationEngine.isBroken_recordPoisoning]
      split
      · rfl
      · exact hb
  work := by
    refine ⟨new, hwork, ?_, ?_⟩
    · rcases hplaced with ⟨rfl, -⟩ | ⟨rfl, -⟩
      · exact List.nodup_singleton _
      · exact List.nodup_nil
    · intro found other hin
      rcases hplaced with ⟨rfl, hle, -⟩ | ⟨rfl, -⟩
      · cases List.mem_singleton.1 hin
        exact ⟨hoffered, hnot, List.mem_cons_self .., hle⟩
      · exact absurd hin List.not_mem_nil
  kept other hin := by
    have hne : other ≠ invocation := fun he => hnot (he ▸ hin)
    exact ⟨List.mem_cons_of_mem _ hin, (runs_count s invocation other).trans (if_neg hne)⟩
  counted other hin hs := by
    rcases List.mem_cons.1 hin with rfl | hin
    · exact ⟨(runs_count s other other).trans (if_pos rfl), definition, hoffered, hseeded⟩
    · exact absurd hin hs
  other other hin := by
    have hne : other ≠ invocation := fun he => hin (he ▸ List.mem_cons_self ..)
    exact (runs_count s invocation other).trans (if_neg hne)
  placed other hin hs := by
    rcases List.mem_cons.1 hin with rfl | hin
    · rcases hplaced with ⟨rfl, -⟩ | ⟨-, -, err, rfl⟩
      · exact .inl ⟨definition, by rw [hwork]; exact List.mem_append_right _ (List.mem_singleton_self _)⟩
      · refine .inr ?_
        rw [DerivationEngine.isBroken_recordPoisoning, if_pos rfl]
    · exact absurd hin hs
  judged hle := by
    show engine = s.engine
    rcases hplaced with ⟨-, -, rfl⟩ | ⟨-, hlimit, -⟩
    · rfl
    · exact absurd (hle invocation) (Nat.not_le.2 hlimit)
  seeded _ h := h

theorem take_schedules {definition : ProducerDef} {candidates : List Invocation} {s : Scheduling}
    (hoffered : ∀ invocation ∈ candidates, offered definition invocation ∧ invocation.producer = definition.id)
    (hseeded : definition.id ∈ s.seeded) : Schedules scope offered s (take scope definition candidates s) := by
  induction candidates generalizing s with
  | nil => exact .refl s
  | cons invocation rest ih =>
    obtain ⟨hself, hproducer⟩ := hoffered invocation (List.mem_cons_self ..)
    have hrest : ∀ other ∈ rest, offered definition other ∧ other.producer = definition.id :=
      fun other hin => hoffered other (List.mem_cons_of_mem _ hin)
    rw [take]
    split
    · exact ih hrest hseeded
    rename_i hnot
    dsimp only
    split
    · rename_i hlimit
      exact count_schedules hself hseeded hnot (List.append_nil _).symm
        (.inr ⟨rfl, hlimit, _, by rw [hproducer]; rfl⟩)
    · rename_i hlimit
      exact (count_schedules hself hseeded hnot rfl (.inl ⟨rfl, Nat.not_lt.1 hlimit, rfl⟩)).trans
        (ih hrest hseeded)

/-- Every candidate is scheduled in this wave, or its producer is judged. -/
theorem take_covers {definition : ProducerDef} {candidates : List Invocation} {s : Scheduling}
    (hproducer : ∀ invocation ∈ candidates, invocation.producer = definition.id)
    (hseeded : definition.id ∈ s.seeded) {invocation : Invocation} (hin : invocation ∈ candidates) :
    invocation ∈ (take scope definition candidates s).scheduled ∨
      ((take scope definition candidates s).engine.isBroken scope.home definition.id).isSome := by
  induction candidates generalizing s with
  | nil => cases hin
  | cons head rest ih =>
    have hrest : ∀ other ∈ rest, other.producer = definition.id :=
      fun other hin => hproducer other (List.mem_cons_of_mem _ hin)
    have hstep {s : Scheduling} (hseeded : definition.id ∈ s.seeded) :
        Schedules scope (fun _ _ => True) s (take scope definition rest s) :=
      take_schedules (fun other hin => ⟨trivial, hrest other hin⟩) hseeded
    rw [take]
    rcases List.mem_cons.1 hin with rfl | hin
    · split
      · rename_i hs
        exact .inl ((hstep hseeded).kept invocation hs).1
      dsimp only
      split
      · exact .inl (List.mem_cons_self ..)
      · have hrest := hstep (s := { s.count invocation with work := s.work ++ [(definition, invocation)] }) hseeded
        exact .inl (hrest.kept invocation (List.mem_cons_self ..)).1
    · split
      · exact ih hrest hseeded hin
      dsimp only
      split
      · refine .inr ?_
        rw [DerivationEngine.isBroken_recordPoisoning, if_pos rfl]
      · exact ih hrest hseeded hin

/-! ### One layer after another -/

/-- A later point of a wave offers no more than its start does. -/
theorem Schedules.dirties (h : Schedules scope offered s mid) {layer : LayerId} {definition : ProducerDef}
    {invocation : Invocation} (hd : mid.engine.Dirties scope mid.seeded layer definition invocation) :
    s.engine.Dirties scope s.seeded layer definition invocation := by
  obtain ⟨hbroken, hpass, cells, hcells, hin⟩ := hd
  obtain ⟨poison, he⟩ := h.engine
  have hb : (s.engine.isBroken scope.home definition.id).isSome = false := by
    cases hs : (s.engine.isBroken scope.home definition.id).isSome with
    | false => rfl
    | true => rw [h.broken _ _ hs] at hbroken; cases hbroken
  rw [he] at hpass hcells hin
  exact ⟨hb, hpass, cells, hcells, hin.imp_right fun ⟨hn, hseeds⟩ => ⟨fun hs => hn (h.seeded _ hs), hseeds⟩⟩

theorem Schedules.cells (h : Schedules scope offered s mid) {layer : LayerId}
    {cells : List (CellAt × Option ProducerId)} (hcells : s.engine.cellsOf layer = .ok cells) :
    mid.engine.cellsOf layer = .ok cells := by
  obtain ⟨poison, he⟩ := h.engine
  rw [he]
  exact hcells

theorem seeded_schedules (s : Scheduling) (producer : ProducerId) :
    Schedules scope offered s { s with seeded := producer :: s.seeded } where
  engine := ⟨s.engine.poison, rfl⟩
  broken _ _ h := h
  work := ⟨[], (List.append_nil _).symm, List.nodup_nil, fun _ _ h => absurd h List.not_mem_nil⟩
  kept _ h := ⟨h, rfl⟩
  counted _ h hn := absurd h hn
  other _ _ := rfl
  placed _ h hn := absurd h hn
  judged _ := rfl
  seeded _ h := List.mem_cons_of_mem _ h

theorem offer_schedules {walk : Walk} {layer : LayerId} {cells : List (CellAt × Option ProducerId)}
    {definition : ProducerDef} (hcells : s.engine.cellsOf layer = .ok cells)
    (hoffered : ∀ invocation, s.engine.Dirties scope s.seeded layer definition invocation →
      offered definition invocation) :
    Calls.Ends (offer scope walk layer cells definition) s fun _ out => Schedules scope offered s out := by
  rw [Calls.ends_iff]
  unfold offer
  split
  · exact .refl s
  rename_i hbroken
  split
  · exact .refl s
  rename_i hpass
  have hdirties : ∀ invocation, (invocation ∈ s.engine.invalidatedBy scope cells definition ∨
      definition.id ∉ s.seeded ∧ ∃ seeds, s.engine.backfill scope definition = .ok seeds ∧ invocation ∈ seeds) →
      offered definition invocation ∧ invocation.producer = definition.id := by
    intro invocation hin
    have hd : s.engine.Dirties scope s.seeded layer definition invocation :=
      ⟨Bool.eq_false_iff.2 hbroken, Bool.eq_false_iff.2 hpass, cells, hcells, hin⟩
    exact ⟨hoffered invocation hd, hd.producer_eq⟩
  dsimp only
  split
  · rename_i hseeded
    exact take_schedules (fun invocation hin => hdirties invocation (.inl ((walk.perm _).mem_iff.1 hin))) hseeded
  rename_i hunseeded
  split
  · exact seeded_schedules s definition.id
  · rename_i seeds hseeds
    refine (seeded_schedules s definition.id).trans (take_schedules (fun invocation hin => ?_) (List.mem_cons_self ..))
    rcases List.mem_append.1 (List.mem_dedup.1 ((walk.perm _).mem_iff.1 hin)) with hin | hin
    · exact hdirties invocation (.inl hin)
    · exact hdirties invocation (.inr ⟨hunseeded, seeds, hseeds, hin⟩)

theorem offerAll_schedules {walk : ProducerId → Walk} {layer : LayerId}
    {cells : List (CellAt × Option ProducerId)} {definitions : List ProducerDef}
    (hcells : s.engine.cellsOf layer = .ok cells)
    (hoffered : ∀ definition ∈ definitions, ∀ invocation,
      s.engine.Dirties scope s.seeded layer definition invocation → offered definition invocation) :
    Calls.Ends (offerAll scope walk layer cells definitions) s fun _ out => Schedules scope offered s out := by
  induction definitions generalizing s with
  | nil => exact .pure (.refl s)
  | cons definition rest ih =>
    refine .bind ((offer_schedules hcells (hoffered definition (List.mem_cons_self ..))).mono fun answer mid hmid => ?_)
    cases answer with
    | error err => exact hmid
    | ok _ =>
      exact (ih (hmid.cells hcells) fun other hin invocation hd =>
        hoffered other (List.mem_cons_of_mem _ hin) invocation (hmid.dirties hd)).mono fun _ _ => hmid.trans

/-- **What scheduling a wave comes to**, however it ends: it offers what the layers of the wave dirty. -/
theorem schedule_schedules {walk : LayerId → ProducerId → Walk} {wave : List LayerId}
    (hoffered : ∀ layer ∈ wave, ∀ definition ∈ s.engine.producers.values, ∀ invocation,
      s.engine.Dirties scope s.seeded layer definition invocation → offered definition invocation) :
    Calls.Ends (schedule scope walk wave) s fun _ out => Schedules scope offered s out := by
  induction wave generalizing s with
  | nil => exact .pure (.refl s)
  | cons layer rest ih =>
    refine .step Calls.get_run ?_
    split
    · exact .throw (.refl s)
    rename_i cells hcells
    refine .bind ((offerAll_schedules hcells (hoffered layer (List.mem_cons_self ..))).mono fun answer mid hmid => ?_)
    cases answer with
    | error err => exact hmid
    | ok _ =>
      refine (ih fun other hin definition hdef invocation hd => ?_).mono fun _ _ => hmid.trans
      obtain ⟨poison, he⟩ := hmid.engine
      rw [he] at hdef
      exact hoffered other (List.mem_cons_of_mem _ hin) definition hdef invocation (hmid.dirties hd)

/-! ### Nothing is passed over unsaid -/

/-- What a layer dirties of a producer that is not passed over is scheduled, and the producer is seeded, or
it is judged. -/
def Covered (scope : RunAt) (definition : ProducerDef) (candidates : List Invocation) (out : Scheduling) : Prop :=
  (out.engine.isBroken scope.home definition.id).isSome ∨
    definition.id ∈ out.seeded ∧ ∀ invocation ∈ candidates, invocation ∈ out.scheduled

theorem Covered.later {definition : ProducerDef} {candidates : List Invocation}
    (hc : Covered scope definition candidates mid) (h : Schedules scope offered mid out) :
    Covered scope definition candidates out :=
  hc.imp (h.broken _ _) fun ⟨hs, hin⟩ => ⟨h.seeded _ hs, fun invocation hi => (h.kept _ (hin invocation hi)).1⟩

theorem take_covered {definition : ProducerDef} {candidates offer : List Invocation}
    (hproducer : ∀ invocation ∈ offer, invocation.producer = definition.id) (hseeded : definition.id ∈ s.seeded)
    (hsub : ∀ invocation ∈ candidates, invocation ∈ offer) :
    Covered scope definition candidates (take scope definition offer s) := by
  have htake : Schedules scope (fun _ _ => True) s (take scope definition offer s) :=
    take_schedules (fun invocation hin => ⟨trivial, hproducer invocation hin⟩) hseeded
  by_cases hb : ((take scope definition offer s).engine.isBroken scope.home definition.id).isSome
  · exact .inl hb
  · refine .inr ⟨htake.seeded _ hseeded, fun invocation hin => ?_⟩
    exact (take_covers hproducer hseeded (hsub invocation hin)).resolve_right hb

theorem offer_covers {walk : Walk} {layer : LayerId} {cells : List (CellAt × Option ProducerId)}
    {definition : ProducerDef} (hpass : s.engine.passesOver scope layer definition = false)
    (h : offer scope walk layer cells definition s = .ok () out) :
    Covered scope definition (s.engine.invalidatedBy scope cells definition) out := by
  have hproducer : ∀ invocation ∈ walk.order (s.engine.invalidatedBy scope cells definition),
      invocation.producer = definition.id := fun invocation hin =>
    DerivationEngine.producer_of_invalidatedBy ((walk.perm _).mem_iff.1 hin)
  unfold offer at h
  split at h
  · rename_i hbroken
    cases h
    exact .inl hbroken
  rw [if_neg (Bool.eq_false_iff.1 hpass)] at h
  dsimp only at h
  split at h
  · rename_i hseeded
    cases h
    exact take_covered hproducer hseeded fun invocation hin => (walk.perm _).mem_iff.2 hin
  · split at h
    · cases h
    · rename_i seeds hseeds
      cases h
      refine take_covered (fun invocation hin => ?_) (List.mem_cons_self ..) fun invocation hin => ?_
      · rcases List.mem_append.1 (List.mem_dedup.1 ((walk.perm _).mem_iff.1 hin)) with hin | hin
        · exact DerivationEngine.producer_of_invalidatedBy hin
        · exact DerivationEngine.producer_of_backfill hseeds hin
      · exact (walk.perm _).mem_iff.2 (List.mem_dedup.2 (List.mem_append_left _ hin))

theorem offerAll_covers {walk : ProducerId → Walk} {layer : LayerId}
    {cells : List (CellAt × Option ProducerId)} {definitions : List ProducerDef} {definition : ProducerDef}
    (hcells : s.engine.cellsOf layer = .ok cells) (hdef : definition ∈ definitions)
    (hpass : s.engine.passesOver scope layer definition = false)
    (h : offerAll scope walk layer cells definitions s = .ok () out) :
    Covered scope definition (s.engine.invalidatedBy scope cells definition) out := by
  induction definitions generalizing s with
  | nil => cases hdef
  | cons head rest ih =>
    obtain ⟨_, mid, hoffer, hrest⟩ := Calls.bind_eq_ok_iff.1 h
    have hmid : Schedules scope (fun _ _ => True) s mid :=
      (offer_schedules hcells fun _ _ => trivial).ok hoffer
    rcases List.mem_cons.1 hdef with rfl | hdef
    · have hout : Schedules scope (fun _ _ => True) mid out :=
        (offerAll_schedules (hmid.cells hcells) fun _ _ _ _ => trivial).ok hrest
      exact (offer_covers hpass hoffer).later hout
    · obtain ⟨poison, he⟩ := hmid.engine
      have hsame : s.engine.invalidatedBy scope cells definition = mid.engine.invalidatedBy scope cells definition := by
        rw [he]
        rfl
      rw [hsame]
      exact ih (hmid.cells hcells) hdef (by rw [he]; exact hpass) hrest

/-- **Scheduling a wave misses nothing**: what a layer of the wave dirties of a producer that has not
incorporated it is scheduled, unless the producer is poisoned. -/
theorem schedule_covers {walk : LayerId → ProducerId → Walk} {wave : List LayerId} {layer : LayerId}
    {definition : ProducerDef} {cells : List (CellAt × Option ProducerId)} (hlayer : layer ∈ wave)
    (hdef : definition ∈ s.engine.producers.values)
    (hpass : s.engine.passesOver scope layer definition = false) (hcells : s.engine.cellsOf layer = .ok cells)
    (h : schedule scope walk wave s = .ok () out) :
    Covered scope definition (s.engine.invalidatedBy scope cells definition) out := by
  induction wave generalizing s with
  | nil => cases hlayer
  | cons head rest ih =>
    obtain ⟨_, _, hget, h⟩ := Calls.bind_eq_ok_iff.1 h
    cases hget
    obtain ⟨found, hfound⟩ : ∃ found, s.engine.cellsOf head = .ok found := by
      cases hf : s.engine.cellsOf head with
      | ok found => exact ⟨found, rfl⟩
      | error err => rw [hf] at h; cases h
    rw [hfound] at h
    obtain ⟨_, mid, hoffer, hrest⟩ := Calls.bind_eq_ok_iff.1 h
    have hmid : Schedules scope (fun _ _ => True) s mid :=
      (offerAll_schedules hfound fun _ _ _ _ => trivial).ok hoffer
    rcases List.mem_cons.1 hlayer with rfl | hlayer
    · rw [hfound] at hcells
      cases hcells
      have hout : Schedules scope (fun _ _ => True) mid out :=
        (schedule_schedules fun _ _ _ _ _ _ => trivial).ok hrest
      exact (offerAll_covers hfound hdef hpass hoffer).later hout
    · obtain ⟨poison, he⟩ := hmid.engine
      have hsame : s.engine.invalidatedBy scope cells definition = mid.engine.invalidatedBy scope cells definition := by
        rw [he]
        rfl
      rw [hsame]
      exact ih hlayer (by rw [he]; exact hdef) (by rw [he]; exact hpass) (hmid.cells hcells) hrest

end Scheduling

end BorgCore
