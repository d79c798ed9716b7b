import BorgCore.Lib.Links
import BorgCore.Engine.Lineage

/-!
# Migration paths

A field's recorded steps outlive its declaration: a field that is deleted and declared again goes on with
the chain it had, and nothing bridges the two lives.  `DefView.path` takes the steps that lie between the
two versions asked for, so it answers with a path where these steps are one, and otherwise with whatever
lies between.
-/

namespace BorgCore

/-- The hop along a step, in one direction; `none` where there is no migration that way. -/
def VersionStep.hop (direction : MigrationDirection) (step : VersionStep) : Option MigrationHop :=
  match direction with
  | .up => some ⟨step.up, .up, step.source, step.target⟩
  | .down => step.down.map fun down => ⟨down, .down, step.target, step.source⟩

/-- A migration path: its hops lead from one version to the other, each from where the one before ended
and to another version. -/
structure Connects (hops : List MigrationHop) (source target : DefVersion) : Prop where
  nonempty : hops ≠ []
  walk : Links.Walk MigrationHop.source MigrationHop.target source hops target

/-- Steps laid down one after another in the order of their versions. -/
abbrev Rising (chain : List VersionStep) : Prop :=
  Links.Rising VersionStep.source VersionStep.target chain

abbrev between (source target : DefVersion) (chain : List VersionStep) : List VersionStep :=
  Links.within VersionStep.source VersionStep.target (min source target) (max source target) chain

/-- Those of some steps that change the version. -/
abbrev changing (steps : List VersionStep) : List VersionStep :=
  Links.moving VersionStep.source VersionStep.target steps

/-- The steps lead from the lower of two versions to the higher. -/
abbrev Spans (source target : DefVersion) (steps : List VersionStep) : Prop :=
  Links.Walk VersionStep.source VersionStep.target (min source target) steps (max source target)

namespace DefView

variable {view view' : DefView} {structName : ObjectTypeName} {field : FieldName} {key : FieldKey}
  {layer top : LayerId} {event : DefEvent} {source target : DefVersion}

/-- A view folded from def events that were accepted one after another.  Several may be in one layer, and
none is in an older layer than the one before it. -/
def Folded (view : DefView) : Prop :=
  ∃ stream : List (LayerId × DefEvent), (stream.map Prod.fst).Pairwise (· ≤ ·) ∧
    foldEvents stream .empty = .ok view

/-- The recorded steps of a field hold a path between two versions, all the way up or all the way
down. -/
def Reaches (view : DefView) (structName : ObjectTypeName) (field : FieldName)
    (source target : DefVersion) : Prop :=
  ∃ hops direction, Connects hops source target ∧
    ∀ hop ∈ hops, ∃ step ∈ view.chainOf structName field, step.hop direction = some hop

/-- Where a path is what the steps between two versions make it.  There are no steps at all; or those
between lead from the one to the other, without one from a version to itself; or there is none down one of
them, and those that change the version do not lead there or not down. -/
def Straight (view : DefView) (structName : ObjectTypeName) (field : FieldName)
    (source target : DefVersion) : Prop :=
  let steps := between source target (view.chainOf structName field)
  view.chains.lookup (structName, field) = none ∨ Spans source target steps ∨
    (target < source ∧ (∃ step ∈ steps, step.down = none) ∧
      ¬ (Spans source target (changing steps) ∧ ∀ step ∈ changing steps, step.down ≠ none))

/-! ### The chain of a field -/

/-- An accepted event leaves a field's chain alone, or is a mutation of it. -/
theorem chainOf_apply (ha : view.apply event layer = .ok view') (key : FieldKey) :
    view'.chainOf key.1 key.2 = view.chainOf key.1 key.2 ∨
      ∃ existing moved up down, view.declared key = some existing ∧
        view'.declared key = some moved ∧ moved.version = layer ∧
        view'.chainOf key.1 key.2 =
          view.chainOf key.1 key.2 ++ [⟨existing.version, layer, up, down⟩] := by
  cases event with
  | declareField structName field ty repo ownership =>
    simp only [apply] at ha
    split at ha
    · split at ha
      · cases ha
        exact Or.inl rfl
      · cases ha
    · cases ha
      exact Or.inl rfl
  | mutateField structName field ty repo up down =>
    cases ho : view.objects.lookup structName with
    | none => simp only [apply, ho, reduceCtorEq] at ha
    | some object =>
      simp only [apply, ho, lookup_fields ho] at ha
      cases hd : view.declared (structName, field) with
      | none => simp only [hd, reduceCtorEq] at ha
      | some existing =>
        simp only [hd] at ha
        split at ha
        · cases ha
        · split at ha
          · cases ha
          · cases ha
            by_cases hk : key = (structName, field)
            · subst hk
              refine Or.inr ⟨existing, { existing with ty := ty, version := layer }, up, down, hd, ?_,
                rfl, ?_⟩
              · change (view.setField structName object field (some _)).declared _ = _
                rw [declared_setField _ (lookup_fields ho), if_pos rfl]
              · exact (AssocMap.getD_insert ..).trans (if_pos rfl)
            · exact Or.inl ((AssocMap.getD_insert ..).trans (if_neg hk))
  | deleteField structName field repo =>
    simp only [apply] at ha
    split at ha
    · cases ha
      exact Or.inl rfl
    · split at ha
      · split at ha
        · cases ha
        · cases ha
          exact Or.inl rfl
      · cases ha
        exact Or.inl rfl
  | pushProducer definition =>
    cases ha
    exact Or.inl rfl

/-- A field's chain rises, up to the version in force and to the newest layer folded in. -/
structure Charted (view : DefView) (top : LayerId) (key : FieldKey) : Prop where
  rising : Rising (view.chainOf key.1 key.2)
  ends : ∀ step ∈ view.chainOf key.1 key.2, step.target ≤ top
  declared : ∀ existing, view.declared key = some existing →
    existing.version ≤ top ∧ ∀ step ∈ view.chainOf key.1 key.2, step.target ≤ existing.version

theorem Charted.empty : (DefView.empty).Charted 0 key where
  rising := Links.Rising.nil
  ends := by simp [chainOf, DefView.empty]
  declared := by simp [DefView.declared, fieldOf, DefView.empty]

theorem Charted.apply (h : view.Charted top key) (hle : top ≤ layer)
    (ha : view.apply event layer = .ok view') : view'.Charted layer key := by
  rcases chainOf_apply ha key with hchain | ⟨existing, moved, up, down, hold, hnew, hversion, hchain⟩
  · refine ⟨by rw [hchain]; exact h.rising, fun step hs => ?_, fun existing hd => ?_⟩
    · rw [hchain] at hs
      exact (h.ends step hs).trans hle
    · rw [hchain]
      have hcases : existing.version = layer ∨
          ∃ old, view.declared key = some old ∧ existing.version = old.version := by
        by_cases ht : event.touches = some key
        · have hmoved := apply_moved ha ht
          rw [hd] at hmoved
          exact DefEvent.step_version hmoved
        · rw [apply_kept ha ht] at hd
          exact Or.inr ⟨existing, hd, rfl⟩
      rcases hcases with he | ⟨old, hold, he⟩
      · rw [he]
        exact ⟨le_rfl, fun step hs => (h.ends step hs).trans hle⟩
      · rw [he]
        exact ⟨(h.declared old hold).1.trans hle, (h.declared old hold).2⟩
  · obtain ⟨htop, hends⟩ := h.declared existing hold
    have hall : ∀ step ∈ view'.chainOf key.1 key.2, step.target ≤ layer := by
      intro step hs
      rw [hchain] at hs
      rcases List.mem_append.1 hs with hs | hs
      · exact (h.ends step hs).trans hle
      · rw [List.mem_singleton.1 hs]
    refine ⟨?_, hall, fun now hd => ?_⟩
    · rw [hchain]
      exact h.rising.concat (htop.trans hle) hends
    · rw [hnew] at hd
      cases hd
      rw [hversion]
      exact ⟨le_rfl, hall⟩

theorem Charted.foldEvents {stream : List (LayerId × DefEvent)} (h : view.Charted top key)
    (hsorted : (stream.map Prod.fst).Pairwise (· ≤ ·)) (htop : ∀ entry ∈ stream, top ≤ entry.1)
    (ha : foldEvents stream view = .ok view') : ∃ top', view'.Charted top' key := by
  induction stream generalizing view top with
  | nil =>
    cases ha
    exact ⟨top, h⟩
  | cons entry rest ih =>
    obtain ⟨next, hn, hrest⟩ := foldEvents_cons_ok.1 ha
    obtain ⟨hfirst, hsorted⟩ := List.pairwise_cons.1 hsorted
    refine ih (h.apply (htop entry List.mem_cons_self) hn) hsorted (fun later hl => ?_) hrest
    exact hfirst later.1 (List.mem_map_of_mem hl)

/-- **A recorded chain rises.** -/
theorem Folded.rising (h : view.Folded) (structName : ObjectTypeName) (field : FieldName) :
    Rising (view.chainOf structName field) := by
  obtain ⟨stream, hsorted, ha⟩ := h
  have hempty : DefView.empty.Charted 0 (structName, field) := Charted.empty
  obtain ⟨top, hcharted⟩ := hempty.foldEvents hsorted (fun _ _ => Nat.zero_le _) ha
  exact hcharted.rising

/-! ### What the steps between two versions make of a path -/

def heading (source target : DefVersion) : MigrationDirection :=
  if source < target then .up else .down

def taken (direction : MigrationDirection) (steps : List VersionStep) : List VersionStep :=
  match direction with
  | .up => steps
  | .down => steps.reverse

variable {steps chain : List VersionStep} {hops : List MigrationHop} {direction : MigrationDirection}
  {hop : MigrationHop}

theorem mem_taken {step : VersionStep} : step ∈ taken direction steps ↔ step ∈ steps := by
  cases direction with
  | up => rfl
  | down => exact List.mem_reverse

theorem taken_taken : taken direction (taken direction steps) = steps := by
  cases direction with
  | up => rfl
  | down => exact List.reverse_reverse steps

/-- Hops along some steps lead up from the lower version as the steps do, or down from the higher. -/
theorem walk_hops (h : steps.map (VersionStep.hop direction) = hops.map some) :
    Links.Walk MigrationHop.source MigrationHop.target source hops target ↔
      match direction with
      | .up => Links.Walk VersionStep.source VersionStep.target source (taken direction steps) target
      | .down => Links.Walk VersionStep.source VersionStep.target target (taken direction steps) source := by
  cases direction with
  | up =>
    refine Links.walk_answers (fun step hop hs => ?_) h
    cases hs
    exact ⟨rfl, rfl⟩
  | down =>
    refine (Links.walk_answers (fun step hop hs => ?_) h).trans Links.walk_reverse.symm
    obtain ⟨down, -, rfl⟩ := Option.map_eq_some_iff.1 hs
    exact ⟨rfl, rfl⟩

theorem path_eq (hne : source ≠ target) (hchain : view.chains.lookup (structName, field) = some chain) :
    view.path (.objectProp structName field) source target =
      (taken (heading source target) (between source target chain)).mapM
        (VersionStep.hop (heading source target)) := by
  rw [path, if_neg hne, hchain, Option.bind_some]
  by_cases hlt : source < target
  · have hheading : heading source target = .up := if_pos hlt
    rw [if_pos hlt, hheading, eq_comm, Links.mapM_eq_some, between, min_eq_left hlt.le,
      max_eq_right hlt.le, List.map_map]
    rfl
  · have hheading : heading source target = .down := if_neg hlt
    have hle : target ≤ source := not_lt.1 hlt
    rw [if_neg hlt, hheading, between, min_eq_right hle, max_eq_left hle, taken, Links.within,
      ← List.filter_reverse]
    simp only [and_comm]
    rfl

/-- Hops along recorded steps go the way their versions do, and lead there exactly where the steps do. -/
theorem walk_hops_iff (hrising : Rising chain) (hne : source ≠ target)
    (hsub : ∀ step ∈ steps, step ∈ chain) (h : steps.map (VersionStep.hop direction) = hops.map some) :
    Connects hops source target ↔
      heading source target = direction ∧ Spans source target (taken direction steps) := by
  have hup : ∀ step ∈ taken direction steps, step.source ≤ step.target :=
    fun step hs => hrising.up step (hsub step (mem_taken.1 hs))
  have hiff : Connects hops source target ↔
      Links.Walk MigrationHop.source MigrationHop.target source hops target :=
    ⟨Connects.walk, fun hwalk => ⟨hwalk.ne_nil hne, hwalk⟩⟩
  rw [hiff, walk_hops h]
  unfold heading Spans
  cases direction with
  | up =>
    by_cases hlt : source < target
    · simp [hlt, hlt.le]
    · simp only [hlt, if_false, reduceCtorEq, false_and, iff_false]
      exact fun hwalk => hlt (lt_of_le_of_ne (hwalk.rising hup).1 hne)
  | down =>
    by_cases hlt : source < target
    · simp only [hlt, if_true, reduceCtorEq, false_and, iff_false]
      exact fun hwalk => not_le_of_gt hlt (hwalk.rising hup).1
    · simp [hlt, not_lt.1 hlt]

/-- A path is recorded exactly where the steps that change the version lead there, and all of them the
way that is asked for. -/
theorem reaches_iff (hrising : Rising (view.chainOf structName field)) (hne : source ≠ target) :
    view.Reaches structName field source target ↔
      Spans source target (changing (between source target (view.chainOf structName field))) ∧
        ∀ step ∈ changing (between source target (view.chainOf structName field)),
          step.hop (heading source target) ≠ none := by
  have hsub : ∀ step ∈ changing (between source target (view.chainOf structName field)),
      step ∈ view.chainOf structName field :=
    fun step hs => (Links.mem_within.1 (Links.mem_moving.1 hs).1).1
  constructor
  · rintro ⟨hops, direction, hconnects, hoffered⟩
    obtain ⟨steps, hsteps, hmap⟩ := Links.exists_map_eq hoffered
    obtain ⟨rfl, hspans⟩ := (walk_hops_iff hrising hne hsteps hmap).1 hconnects
    have heq := hspans.eq_moving hrising fun step hs => hsteps step (mem_taken.1 hs)
    rw [heq] at hspans
    refine ⟨hspans, fun step hs hnone => ?_⟩
    have hmem : step ∈ steps := mem_taken.1 (by rw [heq]; exact hs)
    have himage : step.hop (heading source target) ∈ hops.map some := hmap ▸ List.mem_map_of_mem hmem
    rw [hnone] at himage
    simp at himage
  · rintro ⟨hspans, hall⟩
    cases hm : (taken (heading source target)
        (changing (between source target (view.chainOf structName field)))).mapM
          (VersionStep.hop (heading source target)) with
    | none =>
      obtain ⟨step, hs, hnone⟩ := Links.mapM_eq_none.1 hm
      exact absurd hnone (hall step (mem_taken.1 hs))
    | some hops =>
      have hmap := Links.mapM_eq_some.1 hm
      refine ⟨hops, heading source target, ?_, fun hop hh => ?_⟩
      · refine (walk_hops_iff hrising hne (fun step hs => hsub step (mem_taken.1 hs)) hmap).2 ⟨rfl, ?_⟩
        rwa [taken_taken]
      · obtain ⟨step, hs, he⟩ := List.mem_map.1 (hmap ▸ List.mem_map_of_mem hh : some hop ∈ _)
        exact ⟨step, hsub step (mem_taken.1 hs), he⟩

theorem hop_eq_none {step : VersionStep} :
    step.hop direction = none ↔ direction = .down ∧ step.down = none := by
  cases direction with
  | up => simp [VersionStep.hop]
  | down => simp [VersionStep.hop]

/-- Where one of the steps between has no migration, nothing is answered.  That is right where the steps
that change the version do not lead there either, or not all of them down. -/
theorem absent_iff (hne : source ≠ target) {step : VersionStep}
    (hstep : step ∈ between source target chain) (hnone : step.hop (heading source target) = none) :
    (¬ (Spans source target (changing (between source target chain)) ∧
        ∀ step ∈ changing (between source target chain), step.hop (heading source target) ≠ none)) ↔
      Spans source target (between source target chain) ∨
        (target < source ∧ (∃ step ∈ between source target chain, step.down = none) ∧
          ¬ (Spans source target (changing (between source target chain)) ∧
            ∀ step ∈ changing (between source target chain), step.down ≠ none)) := by
  obtain ⟨hdown, hgone⟩ := hop_eq_none.1 hnone
  have hlt : target < source := by
    refine lt_of_le_of_ne (not_lt.1 fun hup => ?_) hne.symm
    rw [heading, if_pos hup] at hdown
    cases hdown
  simp only [hop_eq_none, hdown, true_and, ne_eq]
  constructor
  · exact fun hnot => Or.inr ⟨hlt, ⟨step, hstep, hgone⟩, hnot⟩
  · rintro (hspans | ⟨-, -, hnot⟩)
    · rintro ⟨-, hall⟩
      rw [changing, hspans.moving_eq] at hall
      exact hall step hstep hgone
    · exact hnot

theorem present_iff (hall : ∀ step ∈ between source target chain, step.hop (heading source target) ≠ none) :
    (Spans source target (between source target chain) ∧
        Spans source target (changing (between source target chain)) ∧
          ∀ step ∈ changing (between source target chain), step.hop (heading source target) ≠ none) ↔
      Spans source target (between source target chain) ∨
        (target < source ∧ (∃ step ∈ between source target chain, step.down = none) ∧
          ¬ (Spans source target (changing (between source target chain)) ∧
            ∀ step ∈ changing (between source target chain), step.down ≠ none)) := by
  constructor
  · exact fun hboth => Or.inl hboth.1
  · rintro (hspans | ⟨hlt, ⟨step, hs, hgone⟩, -⟩)
    · refine ⟨hspans, ?_⟩
      rw [changing, hspans.moving_eq]
      exact ⟨hspans, hall⟩
    · have hdown : heading source target = .down := if_neg (not_lt.2 hlt.le)
      exact absurd (hop_eq_none.2 ⟨hdown, hgone⟩) (hall step hs)

/-- **A path connects its ends where the steps between them do.**  For two different versions of a field
of a folded view, `path` answers with hops that lead from the one to the other, and with nothing exactly
where no path is recorded, if and only if the recorded steps between them are straight. -/
theorem path_connects_iff (h : view.Folded) (hne : source ≠ target) :
    ((∀ hops, view.path (.objectProp structName field) source target = some hops →
        Connects hops source target) ∧
      (view.path (.objectProp structName field) source target = none ↔
        ¬ view.Reaches structName field source target)) ↔
      view.Straight structName field source target := by
  have hrising := h.rising structName field
  rw [reaches_iff hrising hne]
  unfold Straight
  cases hchain : view.chains.lookup (structName, field) with
  | none =>
    have hempty : view.chainOf structName field = [] := by simp [chainOf, AssocMap.getD, hchain]
    have hpath : view.path (.objectProp structName field) source target = none := by
      rw [path, if_neg hne, hchain, Option.bind_none]
    have hspans : ¬ Spans source target [] := fun he => hne (inf_eq_sup.1 he)
    simp [hempty, hpath, Links.within, Links.moving, hspans]
  | some chain =>
    have hchainOf : view.chainOf structName field = chain := by simp [chainOf, AssocMap.getD, hchain]
    rw [path_eq hne hchain, hchainOf]
    rw [hchainOf] at hrising
    cases hm : (taken (heading source target) (between source target chain)).mapM
        (VersionStep.hop (heading source target)) with
    | none =>
      obtain ⟨step, hs, hnone⟩ := Links.mapM_eq_none.1 hm
      simpa only [reduceCtorEq, false_implies, implies_true, true_and, true_iff, false_or] using
        absent_iff hne (mem_taken.1 hs) hnone
    | some hops =>
      have hall : ∀ step ∈ between source target chain, step.hop (heading source target) ≠ none := by
        intro step hs hnone
        rw [Links.mapM_eq_none.2 ⟨step, mem_taken.2 hs, hnone⟩] at hm
        cases hm
      have hsub : ∀ step ∈ taken (heading source target) (between source target chain),
          step ∈ chain := fun step hs => (Links.mem_within.1 (mem_taken.1 hs)).1
      have hconnects := walk_hops_iff hrising hne hsub (Links.mapM_eq_some.1 hm)
      rw [taken_taken] at hconnects
      simpa only [Option.some.injEq, forall_eq', reduceCtorEq, false_iff, not_not, false_or, hconnects,
        true_and] using present_iff hall

/-- A field declared at layer 1 and moved at layer 2, deleted, declared again at layer 5 and moved at
layer 7. -/
def redeclared : List (LayerId × DefEvent) :=
  [(1, .declareField "Company" "revenue" .int 1 .source),
    (2, .mutateField "Company" "revenue" .double 1 10 (some 11)),
    (3, .deleteField "Company" "revenue" 1),
    (5, .declareField "Company" "revenue" .int 1 .source),
    (7, .mutateField "Company" "revenue" .string 1 12 none)]

def redeclaredChain : List VersionStep := [⟨1, 2, 10, some 11⟩, ⟨5, 7, 12, none⟩]

theorem foldEvents_redeclared :
    ∃ view, foldEvents redeclared .empty = .ok view ∧ view.Folded ∧
      view.chains.lookup ("Company", "revenue") = some redeclaredChain := by
  have hchain : (match foldEvents redeclared .empty with
      | .ok view => view.chains.lookup ("Company", "revenue")
      | .error _ => none) = some redeclaredChain := by decide +kernel
  cases hview : foldEvents redeclared .empty with
  | error err =>
    rw [hview] at hchain
    cases hchain
  | ok view =>
    rw [hview] at hchain
    exact ⟨view, rfl, ⟨redeclared, by decide, hview⟩, hchain⟩

theorem path_connects_redeclared :
    ∃ view : DefView, view.Folded ∧ view.Straight "Company" "revenue" 2 1 ∧
      ((∀ hops, view.path (.objectProp "Company" "revenue") 2 1 = some hops → Connects hops 2 1) ∧
        (view.path (.objectProp "Company" "revenue") 2 1 = none ↔
          ¬ view.Reaches "Company" "revenue" 2 1)) := by
  obtain ⟨view, -, hfolded, hchain⟩ := foldEvents_redeclared
  have hstraight : view.Straight "Company" "revenue" 2 1 := by
    have hchainOf : view.chainOf "Company" "revenue" = redeclaredChain := by
      simp [chainOf, AssocMap.getD, hchain]
    unfold Straight
    rw [hchainOf]
    exact Or.inr (Or.inl (by decide))
  exact ⟨view, hfolded, hstraight, (path_connects_iff hfolded (by decide)).2 hstraight⟩

/-- The field deleted and declared again: asked to lead from 1 to 7, `path` answers with the hop to 2 and
the hop from 5. -/
theorem path_crosses_lives :
    ¬ ∀ (view : DefView) (structName : ObjectTypeName) (field : FieldName)
        (source target : DefVersion), view.Folded → source ≠ target →
      (∀ hops, view.path (.objectProp structName field) source target = some hops →
          Connects hops source target) ∧
        (view.path (.objectProp structName field) source target = none ↔
          ¬ view.Reaches structName field source target) := by
  intro hclaim
  obtain ⟨view, -, hfolded, hchain⟩ := foldEvents_redeclared
  obtain ⟨hconnects, -⟩ := hclaim view "Company" "revenue" 1 7 hfolded (by decide)
  have hpath : view.path (.objectProp "Company" "revenue") 1 7 =
      some [⟨10, .up, 1, 2⟩, ⟨12, .up, 5, 7⟩] := by
    rw [path_eq (by decide) hchain]
    decide
  have hwalk := (hconnects _ hpath).walk
  revert hwalk
  decide

end DefView

namespace Log

variable {log : Log}

theorem eventsOf_sorted {layers : List LayerId} (h : layers.Pairwise (· ≤ ·)) :
    ((log.eventsOf layers).map Prod.fst).Pairwise (· ≤ ·) := by
  rw [List.pairwise_map, eventsOf, List.pairwise_flatMap]
  refine ⟨fun layer _ => ?_, h.imp fun hle entry he later hl => ?_⟩
  · exact List.pairwise_map.2 (List.pairwise_of_forall fun _ _ => le_rfl)
  · obtain ⟨_, -, rfl⟩ := List.mem_map.1 he
    obtain ⟨_, -, rfl⟩ := List.mem_map.1 hl
    exact hle

theorem defLayersAlong_pairwise (log : Log) (path : ReadPath) :
    (log.defLayersAlong path).Pairwise (· ≤ ·) := List.pairwise_insertionSort _ _

/-- **The views of a log are folded**, the one of an older client too. -/
theorem folded_views (log : Log) (path : ReadPath) :
    (∀ view, log.view path = .ok view → view.Folded) ∧
      ∀ ceiling view, log.viewAt path ceiling = .ok view → view.Folded := by
  refine ⟨fun view h => ?_, fun ceiling view h => ?_⟩
  · rw [Log.view, foldDefs_eq] at h
    exact ⟨_, eventsOf_sorted (log.defLayersAlong_pairwise path), h⟩
  · rw [viewAt, foldDefs_eq] at h
    exact ⟨_, eventsOf_sorted ((log.defLayersAlong_pairwise path).sublist (List.takeWhile_sublist _)), h⟩

end Log

end BorgCore
