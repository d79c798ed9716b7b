import BorgCore.Lib.Calls
import BorgCore.Ops.Wishes

/-!
# The diff is what the wishes emit

A step of the diff adds the events of what it is about and remembers where that is implemented; what else it
needs is that the names it comes across can be resolved, which no view has a say in.
-/

namespace BorgCore

namespace Repo

variable {files : Files} {repo : RepoId} {scripts : List Script} {view : DefView} {draft draft' : Draft}
  {structName : ObjectTypeName} {field : FieldSpec}

/-- A step of a diff adds these events, and remembers these implementations. -/
structure Extends (events : List DefEvent) (impls : List Implementation) (draft draft' : Draft) : Prop where
  events_eq : draft'.events = draft.events ++ events
  impls_eq : draft'.impls = impls.foldl remember draft.impls

theorem Extends.refl (draft : Draft) : Extends [] [] draft draft := ⟨(List.append_nil _).symm, rfl⟩

theorem Extends.trans {events events' : List DefEvent} {impls impls' : List Implementation}
    {middle : Draft} (h : Extends events impls draft middle) (h' : Extends events' impls' middle draft') :
    Extends (events ++ events') (impls ++ impls') draft draft' where
  events_eq := by rw [h'.events_eq, h.events_eq, List.append_assoc]
  impls_eq := by rw [h'.impls_eq, h.impls_eq, List.foldl_append]

theorem filterMap_one {α β : Type} (f : α → Option β) (a : α) : [a].filterMap f = (f a).toList := by
  rw [List.filterMap_eq_flatMap_toList, List.flatMap_singleton]

/-! ### One producer -/

/-- Landing a producer adds its event, and remembering it its implementation. -/
theorem land_extends (next : ProducerDef) (name : String) (impl : Implementation) (draft : Draft) :
    Extends ((Wish.producer next).event repo view).toList [impl] draft
      ((land (producerChange (view.producers.lookup next.id) next) next name draft).remember impl) := by
  simp only [Wish.event]
  cases hchange : producerChange (view.producers.lookup next.id) next with
  | unchanged => exact ⟨(List.append_nil _).symm, rfl⟩
  | new => exact ⟨rfl, rfl⟩
  | definition => exact ⟨rfl, rfl⟩
  | implementation first =>
    cases first with
    | false => exact ⟨rfl, rfl⟩
    | true => exact ⟨rfl, rfl⟩

theorem pushMigration_ok {direction : MigrationDirection} {fieldName : FieldName} {name : Option String}
    {id : Option ProducerId}
    (h : pushMigration files repo scripts view structName fieldName direction draft name = .ok (id, draft')) :
    Implements scripts name ∧ id = name.map producerId ∧
      Extends (((migrationDefs files repo scripts structName fieldName direction name).map
          Wish.producer).filterMap (Wish.event repo view))
        (migrationImpls files scripts structName name) draft draft' := by
  cases name with
  | none =>
    cases h
    exact ⟨nofun, rfl, .refl _⟩
  | some name =>
    obtain ⟨found, hresolve, h⟩ := Calls.except_bind_eq_ok h
    unfold resolve at hresolve
    split at hresolve
    · rename_i hknown
      cases hresolve
      cases hfind : findMigration scripts name with
      | none =>
        rw [hfind] at h
        cases h
      | some described =>
        obtain ⟨script, spec⟩ := described
        rw [hfind] at h
        cases h
        refine ⟨fun owner howner => ?_, rfl, ?_⟩
        · cases howner
          exact ⟨hknown, by rw [hfind]; rfl⟩
        · simp only [migrationDefs, migrationImpls, Option.bind_some, hfind, Option.map_some,
            Option.toList_some, List.map_cons, List.map_nil, filterMap_one]
          exact land_extends _ _ _ _
    · cases hresolve

variable (files repo view structName) in
theorem pushMigration_total {name : Option String} (h : Implements scripts name)
    (direction : MigrationDirection) (fieldName : FieldName) (draft : Draft) :
    ∃ draft', pushMigration files repo scripts view structName fieldName direction draft name =
      .ok (name.map producerId, draft') := by
  cases name with
  | none => exact ⟨draft, rfl⟩
  | some name =>
    obtain ⟨hknown, hfind⟩ := h name rfl
    obtain ⟨⟨script, spec⟩, hfind⟩ := Option.isSome_iff_exists.1 hfind
    have hresolve : resolve scripts name s!"{structName}.{fieldName}" = .ok (producerId name) := if_pos hknown
    simp only [pushMigration, Calls.except_bind_ok hresolve, hfind]
    exact ⟨_, rfl⟩

/-! ### One field -/

/-- The type of a field is not moved by its description. -/
def Unmoved (view : DefView) (structName : ObjectTypeName) (field : FieldSpec) : Prop :=
  ∀ existing, view.declared (structName, field.name) = some existing → existing.ty = valueType field.ty

/-- What a field asks for itself. -/
def fieldWish (structName : ObjectTypeName) (field : FieldSpec) : Wish :=
  .field (structName, field.name) (valueType field.ty) (field.derivedBy.map producerId)
    (field.up.map producerId) (field.down.map producerId)

theorem resolveOwner_eq_ok {owner : Option ProducerId} {name : Option String} {what : String} :
    resolveOwner scripts what name = .ok owner ↔ Resolves scripts name ∧ owner = name.map producerId := by
  cases name with
  | none => exact ⟨fun h => ⟨nofun, by cases h; rfl⟩, fun h => by rw [h.2]; rfl⟩
  | some name =>
    by_cases hknown : name ∈ known scripts
    · simp only [resolveOwner, resolve, if_pos hknown]
      constructor
      · intro h
        cases h
        exact ⟨fun owner howner => by cases howner; exact hknown, rfl⟩
      · rintro ⟨-, rfl⟩
        rfl
    · simp only [resolveOwner, resolve, if_neg hknown]
      exact ⟨nofun, fun h => absurd (h.1 name rfl) hknown⟩

variable (repo) in
theorem declareField_eq (hresolves : Resolves scripts field.derivedBy) (hunmoved : Unmoved view structName field)
    (draft : Draft) : ∃ draft', declareField repo scripts view structName field draft = .ok draft' ∧
      Extends ((fieldWish structName field).event repo view).toList [] draft draft' := by
  unfold declareField
  rw [Calls.except_bind_ok (resolveOwner_eq_ok.2 ⟨hresolves, rfl⟩)]
  change ∃ draft', (if (view.declared (structName, field.name)).any _ then _ else _) = _ ∧ _
  simp only [fieldWish, Wish.event]
  cases hdeclared : view.declared (structName, field.name) with
  | none => exact ⟨_, rfl, rfl, rfl⟩
  | some existing =>
    simp only [hunmoved existing hdeclared, Option.any_some, ne_eq, not_true_eq_false, if_false, true_and,
      decide_eq_true_eq]
    by_cases hsame : existing.declaringRepo = repo ∧
        existing.ownership = ownership (field.derivedBy.map producerId)
    · rw [if_pos hsame, if_pos hsame]
      exact ⟨_, rfl, (List.append_nil _).symm, rfl⟩
    · rw [if_neg hsame, if_neg hsame]
      exact ⟨_, rfl, rfl, rfl⟩

theorem declareField_resolves (h : declareField repo scripts view structName field draft = .ok draft') :
    Resolves scripts field.derivedBy := by
  obtain ⟨owner, howner, -⟩ := Calls.except_bind_eq_ok h
  exact (resolveOwner_eq_ok.1 howner).1

/-- The names a field comes with can be resolved, as far as the diff looks them up. -/
structure Fits (scripts : List Script) (view : DefView) (structName : ObjectTypeName) (field : FieldSpec) :
    Prop where
  up : Implements scripts field.up
  down : Implements scripts field.down
  owner : Unmoved view structName field → Resolves scripts field.derivedBy
  /-- A type does not move without a migration. -/
  carried : ¬ Unmoved view structName field → field.up.isSome

/-- What a field that goes through has done, once its migrations are pushed. -/
structure Declared (repo : RepoId) (scripts : List Script) (view : DefView) (structName : ObjectTypeName)
    (field : FieldSpec) (draft draft' : Draft) : Prop where
  owner : Unmoved view structName field → Resolves scripts field.derivedBy
  carried : ¬ Unmoved view structName field → field.up.isSome
  pushed : Extends ((fieldWish structName field).event repo view).toList [] draft draft'

theorem declareField_ok (hunmoved : Unmoved view structName field)
    (h : declareField repo scripts view structName field draft = .ok draft') :
    Declared repo scripts view structName field draft draft' := by
  have hresolves := declareField_resolves h
  obtain ⟨found, hfound, hextends⟩ := declareField_eq repo hresolves hunmoved draft
  rw [h] at hfound
  cases hfound
  exact ⟨fun _ => hresolves, fun hmoved => absurd hunmoved hmoved, hextends⟩

theorem pushField_ok (h : pushField files repo scripts view draft structName field = .ok draft') :
    Fits scripts view structName field ∧
      Extends ((fieldWishes files repo scripts structName field).filterMap (Wish.event repo view))
        (migrationImpls files scripts structName field.up ++ migrationImpls files scripts structName field.down)
        draft draft' := by
  obtain ⟨⟨up, first⟩, hup, h⟩ := Calls.except_bind_eq_ok h
  obtain ⟨⟨down, second⟩, hdown, h⟩ := Calls.except_bind_eq_ok h
  obtain ⟨himplements, rfl, hfirst⟩ := pushMigration_ok hup
  obtain ⟨himplements', rfl, hsecond⟩ := pushMigration_ok hdown
  have hdone : Declared repo scripts view structName field second draft' := by
    cases hfound : view.fieldOf structName field.name with
    | none =>
      have hdeclared : view.declared (structName, field.name) = none := hfound
      rw [hfound] at h
      exact declareField_ok (fun existing hexisting => by rw [hdeclared] at hexisting; cases hexisting) h
    | some existing =>
      have hdeclared : view.declared (structName, field.name) = some existing := hfound
      rw [hfound] at h
      by_cases hty : existing.ty = valueType field.ty
      · simp only [hty, ne_eq, not_true_eq_false, if_false] at h
        refine declareField_ok (fun other hother => ?_) h
        rw [hdeclared] at hother
        cases hother
        exact hty
      · have hmoved : ¬ Unmoved view structName field := fun hunmoved => hty (hunmoved existing hdeclared)
        simp only [ne_eq, hty, not_false_eq_true, if_true] at h
        cases hown : existing.ownership with
        | derived owner =>
          rw [hown] at h
          cases h
        | source =>
          rw [hown] at h
          cases hname : field.up with
          | none =>
            rw [hname] at h
            cases h
          | some name =>
            rw [hname] at h
            cases h
            refine ⟨fun hunmoved => absurd hunmoved hmoved, fun _ => by rw [hname]; rfl, ?_⟩
            simp only [fieldWish, Wish.event, hdeclared, ne_eq, hty, not_false_eq_true, if_true, hname]
            exact ⟨rfl, rfl⟩
  refine ⟨⟨himplements, himplements', hdone.owner, hdone.carried⟩, ?_⟩
  have hall := (hfirst.trans hsecond).trans hdone.pushed
  rw [List.append_nil] at hall
  rw [fieldWishes, List.filterMap_append, List.filterMap_append]
  change Extends (_ ++ [fieldWish structName field].filterMap _) _ _ _
  rwa [filterMap_one]

theorem pushField_total (hup : Implements scripts field.up) (hdown : Implements scripts field.down)
    (howner : Resolves scripts field.derivedBy) (hunmoved : Unmoved view structName field) (draft : Draft) :
    ∃ draft', pushField files repo scripts view draft structName field = .ok draft' := by
  obtain ⟨first, hfirst⟩ := pushMigration_total files repo view structName hup .up field.name draft
  obtain ⟨second, hsecond⟩ := pushMigration_total files repo view structName hdown .down field.name first
  obtain ⟨draft', hdraft, -⟩ := declareField_eq repo howner hunmoved second
  refine ⟨draft', ?_⟩
  unfold pushField
  rw [Calls.except_bind_ok hfirst]
  dsimp only
  rw [Calls.except_bind_ok hsecond]
  cases hfound : view.fieldOf structName field.name with
  | none => exact hdraft
  | some existing =>
    simp only [hunmoved existing hfound, ne_eq, not_true_eq_false, if_false]
    exact hdraft

/-! ### The whole description -/

theorem Extends.foldl {α : Type} {step : Draft → α → Draft} {events : α → List DefEvent}
    {impls : α → List Implementation} (h : ∀ draft a, Extends (events a) (impls a) draft (step draft a))
    (as : List α) (draft : Draft) : Extends (as.flatMap events) (as.flatMap impls) draft (as.foldl step draft) := by
  induction as generalizing draft with
  | nil => exact .refl draft
  | cons a rest ih => exact (h draft a).trans (ih _)

theorem Extends.foldlM {α : Type} {step : Draft → α → Except Failure Draft} {fits : α → Prop}
    {events : α → List DefEvent} {impls : α → List Implementation}
    (h : ∀ {draft draft' a}, step draft a = .ok draft' → fits a ∧ Extends (events a) (impls a) draft draft')
    {as : List α} {draft draft' : Draft} (hfold : as.foldlM step draft = .ok draft') :
    (∀ a ∈ as, fits a) ∧ Extends (as.flatMap events) (as.flatMap impls) draft draft' := by
  induction as generalizing draft with
  | nil =>
    cases hfold
    exact ⟨nofun, .refl _⟩
  | cons a rest ih =>
    obtain ⟨middle, hstep, hrest⟩ := Calls.except_bind_eq_ok hfold
    obtain ⟨hfits, hextends⟩ := h hstep
    obtain ⟨hall, hmore⟩ := ih hrest
    exact ⟨List.forall_mem_cons.2 ⟨hfits, hall⟩, hextends.trans hmore⟩

theorem foldlM_total {α : Type} {step : Draft → α → Except Failure Draft} {as : List α}
    (h : ∀ a ∈ as, ∀ draft, ∃ draft', step draft a = .ok draft') (draft : Draft) :
    ∃ draft', as.foldlM step draft = .ok draft' := by
  induction as generalizing draft with
  | nil => exact ⟨draft, rfl⟩
  | cons a rest ih =>
    obtain ⟨middle, hstep⟩ := h a List.mem_cons_self draft
    obtain ⟨draft', hrest⟩ := ih (fun b hb => h b (List.mem_cons_of_mem _ hb)) middle
    exact ⟨draft', (Calls.except_bind_ok hstep).trans hrest⟩

/-- Every migration that is implemented is remembered under its name. -/
def AllNamed (scripts : List Script) (impls : List Implementation) : Prop :=
  ∀ spec ∈ scripts.flatMap fun script => script.2.migrations, ∃ impl ∈ impls, impl.name = spec.name

theorem find_unnamed_eq_none {impls : List Implementation} :
    ((scripts.flatMap fun script => script.2.migrations).find? fun spec =>
      !impls.any fun impl => impl.name = spec.name) = none ↔ AllNamed scripts impls := by
  rw [List.find?_eq_none]
  refine forall₂_congr fun spec _ => ?_
  simp

/-- What a diff that goes through has done. -/
structure Diffed (files : Files) (repo : RepoId) (scripts : List Script) (view : DefView)
    (impls : List Implementation) (draft : Draft) : Prop where
  events : draft.events = (wishes files repo scripts).filterMap (Wish.event repo view)
  impls : draft.impls = (implementations files scripts).foldl remember impls
  fits : ∀ entry ∈ fields scripts, Fits scripts view entry.1 entry.2
  named : AllNamed scripts draft.impls

theorem pushPipelines_extends (draft : Draft) :
    Extends (((pipelines scripts).map fun (script, spec) =>
        Wish.producer (pipelineDef files repo script spec)).filterMap (Wish.event repo view))
      ((pipelines scripts).map fun (script, spec) => ⟨producerId spec.name, spec.name, spec.source,
        files.canonicalize script.1, script.2.transport⟩) draft
      ((pipelines scripts).foldl (fun draft (script, spec) => pushPipeline files repo view draft script spec)
        draft) := by
  rw [List.filterMap_map, List.filterMap_eq_flatMap_toList, List.map_eq_flatMap]
  refine Extends.foldl (fun draft entry => ?_) _ draft
  exact land_extends _ _ _ draft

theorem pushFields_ok (h : (fields scripts).foldlM (fun draft (structName, field) =>
      pushField files repo scripts view draft structName field) draft = .ok draft') :
    (∀ entry ∈ fields scripts, Fits scripts view entry.1 entry.2) ∧
      Extends ((fields scripts).flatMap fun entry =>
          (fieldWishes files repo scripts entry.1 entry.2).filterMap (Wish.event repo view))
        ((fields scripts).flatMap fun entry => migrationImpls files scripts entry.1 entry.2.up ++
          migrationImpls files scripts entry.1 entry.2.down) draft draft' :=
  Extends.foldlM (fun hstep => pushField_ok hstep) h

theorem diff_ok {impls : List Implementation} (h : diff files repo scripts view impls = .ok draft) :
    Diffed files repo scripts view impls draft := by
  obtain ⟨pushed, hfold, h⟩ := Calls.except_bind_eq_ok h
  obtain ⟨hfits, hfields⟩ := pushFields_ok hfold
  cases hunnamed : (scripts.flatMap fun script => script.2.migrations).find? fun spec =>
      !pushed.impls.any fun impl => impl.name = spec.name with
  | some spec =>
    rw [hunnamed] at h
    cases h
  | none =>
    rw [hunnamed] at h
    cases h
    have hall := (pushPipelines_extends ⟨impls, [], [], ⟨0, 0, 0⟩⟩).trans hfields
    refine ⟨?_, ?_, hfits, find_unnamed_eq_none.1 hunnamed⟩
    · rw [hall.events_eq, wishes, List.filterMap_append, List.filterMap_flatMap]
      rfl
    · exact hall.impls_eq

/-! ### A diff with nothing to say -/

/-- What is remembered stays remembered when the same is remembered again. -/
theorem mem_foldl_remember {impls impls' : List Implementation} {impl : Implementation}
    (hmem : impl ∈ impls.foldl remember impls') {start : List Implementation} (hstart : impl ∈ start) :
    impl ∈ impls.foldl remember start := by
  induction impls using List.reverseRecOn with
  | nil => exact hstart
  | append_singleton init last ih =>
    rw [List.foldl_append] at hmem ⊢
    rcases List.mem_append.1 hmem with hold | hlast
    · obtain ⟨hold, hid⟩ := List.mem_filter.1 hold
      exact List.mem_append_left _ (List.mem_filter.2 ⟨ih hold, hid⟩)
    · exact List.mem_append_right _ hlast

theorem diff_met {impls : List Implementation}
    (hfits : ∀ entry ∈ fields scripts, Implements scripts entry.2.up ∧ Implements scripts entry.2.down ∧
      Resolves scripts entry.2.derivedBy)
    (hmet : ∀ wish ∈ wishes files repo scripts, wish.Met repo view)
    (hnamed : AllNamed scripts ((implementations files scripts).foldl remember impls)) :
    ∃ draft, diff files repo scripts view ((implementations files scripts).foldl remember impls) = .ok draft ∧
      draft.events = [] := by
  have hunmoved : ∀ entry ∈ fields scripts, Unmoved view entry.1 entry.2 := by
    intro entry hentry existing hexisting
    have hwish : fieldWish entry.1 entry.2 ∈ wishes files repo scripts :=
      List.mem_append_right _ (List.mem_flatMap.2 ⟨entry, hentry, List.mem_append_right _ (List.mem_singleton_self _)⟩)
    obtain ⟨declared, hdeclared, hty, -⟩ := hmet _ hwish
    rw [hexisting] at hdeclared
    cases hdeclared
    exact hty
  obtain ⟨pushed, hfold⟩ : ∃ pushed, (fields scripts).foldlM (fun draft (structName, field) =>
      pushField files repo scripts view draft structName field) ((pipelines scripts).foldl (fun draft (script, spec) =>
        pushPipeline files repo view draft script spec)
        ⟨(implementations files scripts).foldl remember impls, [], [], ⟨0, 0, 0⟩⟩) = .ok pushed :=
    foldlM_total (fun entry hentry draft => pushField_total (hfits entry hentry).1 (hfits entry hentry).2.1
      (hfits entry hentry).2.2 (hunmoved entry hentry) draft) _
  have hextends := (pushPipelines_extends ⟨(implementations files scripts).foldl remember impls, [], [],
    ⟨0, 0, 0⟩⟩).trans (pushFields_ok hfold).2
  have hpushed : AllNamed scripts pushed.impls := by
    intro spec hspec
    obtain ⟨impl, himpl, hname⟩ := hnamed spec hspec
    refine ⟨impl, ?_, hname⟩
    rw [hextends.impls_eq]
    exact mem_foldl_remember himpl himpl
  have hdiff : diff files repo scripts view ((implementations files scripts).foldl remember impls) = .ok pushed := by
    rw [diff, Calls.except_bind_ok hfold, find_unnamed_eq_none.2 hpushed]
    rfl
  refine ⟨pushed, hdiff, ?_⟩
  rw [(diff_ok hdiff).events, List.filterMap_eq_nil_iff]
  exact fun wish hwish => event_of_met (hmet wish hwish)

end Repo

end BorgCore
