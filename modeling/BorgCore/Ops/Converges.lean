import BorgCore.Engine.Host
import BorgCore.Ops.Drafts
import BorgCore.Ops.Once

/-!
# A push converges

After a push that is accepted the view gives what the repo asks for, and pushing the same again emits nothing;
or neither.  A diff is taken against the view the push started from, and the fold takes its events one after
another: producers that are described twice under one id are each compared with what stood before either.
-/

namespace BorgCore

namespace DefView

variable {view view' : DefView} {layer : LayerId}

/-- The definition an event pushes, if it pushes one. -/
def pushes : DefEvent → Option ProducerDef
  | .pushProducer definition => some definition
  | _ => none

def stamp (layer : LayerId) (definition : ProducerDef) : ProducerDef := { definition with version := layer }

theorem apply_producers {event : DefEvent} (ha : view.apply event layer = .ok view') :
    view'.producers.lookup = Reconcile.placed ProducerDef.id (stamp layer) view.producers.lookup
      (pushes event).toList := by
  cases event with
  | pushProducer definition =>
    cases ha
    exact funext fun id => AssocMap.lookup_insert_eq _ _ _ _
  | declareField structName field ty repo ownership =>
    simp only [apply] at ha
    split at ha
    · split at ha
      · cases ha
        rfl
      · cases ha
    · cases ha
      rfl
  | mutateField structName field ty repo up down =>
    simp only [apply] at ha
    split at ha
    · cases ha
    · split at ha
      · cases ha
      · split at ha
        · cases ha
        · split at ha
          · cases ha
          · cases ha
            rfl
  | deleteField structName field repo =>
    simp only [apply] at ha
    split at ha
    · cases ha
      rfl
    · split at ha
      · split at ha
        · cases ha
        · cases ha
          rfl
      · cases ha
        rfl

theorem applyAll_producers {events : List DefEvent} (ha : view.applyAll layer events = .ok view') :
    view'.producers.lookup = Reconcile.placed ProducerDef.id (stamp layer) view.producers.lookup
      (events.filterMap pushes) := by
  induction events generalizing view with
  | nil =>
    cases ha
    rfl
  | cons event rest ih =>
    obtain ⟨next, hnext, hrest⟩ := Calls.except_bind_eq_ok ha
    rw [ih hrest, apply_producers hnext, List.filterMap_cons]
    cases pushes event <;> rfl

/-- A field that one event of a layer is about is where that event takes it. -/
theorem applyAll_declared {before after : List DefEvent} {event : Option DefEvent} {key : FieldKey}
    (ha : view.applyAll layer (before ++ event.toList ++ after) = .ok view')
    (hbefore : ∀ other ∈ before, other.touches ≠ some key) (hafter : ∀ other ∈ after, other.touches ≠ some key) :
    (event = none → view'.declared key = view.declared key) ∧
      ∀ moving, event = some moving → moving.touches = some key →
        moving.step (view.declared key) layer = .ok (view'.declared key) := by
  rw [applyAll_eq, List.map_append, List.map_append, List.append_assoc] at ha
  obtain ⟨first, hfirst, ha⟩ := foldEvents_append_ok.1 ha
  obtain ⟨second, hsecond, hlast⟩ := foldEvents_append_ok.1 ha
  have hkept (events : List DefEvent) (h : ∀ other ∈ events, other.touches ≠ some key) :
      ∀ entry ∈ events.map fun event => (layer, event), entry.2.touches ≠ some key := by
    intro entry hentry
    obtain ⟨other, hother, rfl⟩ := List.mem_map.1 hentry
    exact h other hother
  rw [foldEvents_kept hlast (hkept after hafter), ← foldEvents_kept hfirst (hkept before hbefore)]
  constructor
  · rintro rfl
    cases hsecond
    rfl
  · rintro moving rfl htouches
    obtain ⟨next, hnext, hnil⟩ := foldEvents_cons_ok.1 hsecond
    cases hnil
    exact apply_moved hnext htouches

end DefView

namespace Repo

variable {files : Files} {repo : RepoId} {scripts : List Script} {view view' : DefView} {layer : LayerId}

/-! ### When a view comes to give what is asked for -/

/-- Whether a producer that stands is as it is described. -/
def settled (standing : Option ProducerDef) (next : ProducerDef) : Bool :=
  producerChange standing next = .unchanged

/-- No field whose type moves is given to a producer; and of the definitions that are described under one id,
the last that is not in force agrees with each of them. -/
structure Settles (files : Files) (repo : RepoId) (scripts : List Script) (view : DefView) : Prop where
  owners : ∀ entry ∈ fields scripts, ¬ Unmoved view entry.1 entry.2 → entry.2.derivedBy = none
  roles : ∀ next ∈ definitions files repo scripts, ∀ last,
    Reconcile.lastUnmet ProducerDef.id settled view.producers.lookup (definitions files repo scripts) next.id =
        some last →
      settled (some last) next = true

/-- The producers a push emits are those that are not met. -/
theorem pushes_events (wishes : List Wish) :
    (wishes.filterMap (Wish.event repo view)).filterMap DefView.pushes =
      Reconcile.unmet ProducerDef.id settled view.producers.lookup (wishes.filterMap Wish.next) := by
  induction wishes with
  | nil => rfl
  | cons wish rest ih =>
    cases wish with
    | producer next =>
      simp only [List.filterMap_cons, Wish.next, Wish.event, Reconcile.unmet, List.filter_cons, settled] at ih ⊢
      by_cases hsame : producerChange (view.producers.lookup next.id) next = .unchanged
      · simpa [hsame] using ih
      · simpa [hsame, DefView.pushes] using ih
    | field key ty owner up down =>
      have hnone : ((Wish.field key ty owner up down).event repo view).bind DefView.pushes = none := by
        simp only [Wish.event]
        split
        · split
          · cases up <;> rfl
          · split <;> rfl
        · rfl
      simp only [List.filterMap_cons, Wish.next]
      cases hevent : (Wish.field key ty owner up down).event repo view with
      | none => exact ih
      | some event =>
        rw [hevent, Option.bind_some] at hnone
        change (event :: rest.filterMap (Wish.event repo view)).filterMap DefView.pushes = _
        rw [List.filterMap_cons_none hnone]
        exact ih

theorem producers_met_iff
    (ha : view.applyAll layer ((wishes files repo scripts).filterMap (Wish.event repo view)) = .ok view') :
    (∀ next ∈ definitions files repo scripts, (Wish.producer next).Met repo view') ↔
      ∀ next ∈ definitions files repo scripts, ∀ last,
        Reconcile.lastUnmet ProducerDef.id settled view.producers.lookup (definitions files repo scripts) next.id =
            some last →
          settled (some last) next = true := by
  have hlookup := DefView.applyAll_producers ha
  rw [pushes_events] at hlookup
  have hall := @Reconcile.all_met_iff _ _ _ _ ProducerDef.id (DefView.stamp layer) settled view.producers.lookup
    (definitions files repo scripts)
  refine Iff.trans (forall₂_congr fun next _ => ?_) hall
  rw [met_producer, congrFun hlookup next.id]
  exact decide_eq_true_iff.symm

/-- The field a wish is about, if it is about one. -/
def Wish.key : Wish → Option FieldKey
  | .producer _ => none
  | .field key .. => some key

theorem touches_event {wish : Wish} {event : DefEvent} (h : wish.event repo view = some event) :
    event.touches = wish.key := by
  cases wish with
  | producer next =>
    simp only [Wish.event] at h
    split at h
    · cases h
    · cases h
      rfl
  | field key ty owner up down =>
    simp only [Wish.event] at h
    split at h
    · split at h
      · obtain ⟨up, -, rfl⟩ := Option.map_eq_some_iff.1 h
        rfl
      · split at h
        · cases h
        · cases h
          rfl
    · cases h
      rfl

variable (files repo) in
theorem keys_wishes :
    (wishes files repo scripts).filterMap Wish.key = (fields scripts).map fun entry => (entry.1, entry.2.name) := by
  have hproducers {α : Type} {wish : α → Wish} (h : ∀ a, (wish a).key = none) (as : List α) :
      (as.map wish).filterMap Wish.key = [] := by
    rw [List.filterMap_map, List.filterMap_eq_nil_iff]
    exact fun a _ => h a
  rw [wishes, List.filterMap_append, hproducers fun _ => rfl, List.nil_append, List.filterMap_flatMap,
    ← List.flatMap_singleton' (List.map _ _), List.flatMap_map]
  refine List.flatMap_congr fun entry _ => ?_
  obtain ⟨structName, field⟩ := entry
  simp only [fieldWishes, List.filterMap_append]
  rw [hproducers fun _ => rfl, hproducers fun _ => rfl]
  rfl

variable (files repo) in
theorem mem_wishes_field {entry : ObjectTypeName × FieldSpec} (h : entry ∈ fields scripts) :
    fieldWish entry.1 entry.2 ∈ wishes files repo scripts :=
  List.mem_append_right _
    (List.mem_flatMap.2 ⟨entry, h, List.mem_append_right _ (List.mem_singleton_self _)⟩)

variable (files repo) in
/-- Described once, a field is what one wish is about. -/
theorem wishes_split (hnodup : ((fields scripts).map fun entry => (entry.1, entry.2.name)).Nodup)
    {entry : ObjectTypeName × FieldSpec} (h : entry ∈ fields scripts) :
    ∃ before after, wishes files repo scripts = before ++ fieldWish entry.1 entry.2 :: after ∧
      (∀ other ∈ before, other.key ≠ some (entry.1, entry.2.name)) ∧
      ∀ other ∈ after, other.key ≠ some (entry.1, entry.2.name) := by
  obtain ⟨before, after, hsplit⟩ := List.append_of_mem (mem_wishes_field files repo h)
  refine ⟨before, after, hsplit, ?_⟩
  rw [← keys_wishes files repo, hsplit, List.filterMap_append] at hnodup
  have hkey : (fieldWish entry.1 entry.2).key = some (entry.1, entry.2.name) := rfl
  rw [List.filterMap_cons_some hkey, List.nodup_middle, List.nodup_cons, List.mem_append] at hnodup
  refine ⟨fun other hother hsame => hnodup.1 (Or.inl ?_), fun other hother hsame => hnodup.1 (Or.inr ?_)⟩
  · exact List.mem_filterMap.2 ⟨other, hother, hsame⟩
  · exact List.mem_filterMap.2 ⟨other, hother, hsame⟩

theorem ownership_eq_source {owner : Option ProducerId} : ownership owner = .source ↔ owner = none := by
  cases owner with
  | none => exact ⟨fun _ => rfl, fun _ => rfl⟩
  | some owner => exact ⟨nofun, nofun⟩

/-- A field that is described comes to be as described, unless its type moves and its ownership with it. -/
theorem field_met_iff (hnodup : ((fields scripts).map fun entry => (entry.1, entry.2.name)).Nodup)
    {entry : ObjectTypeName × FieldSpec} (h : entry ∈ fields scripts) (hfits : Fits scripts view entry.1 entry.2)
    (ha : view.applyAll layer ((wishes files repo scripts).filterMap (Wish.event repo view)) = .ok view') :
    (fieldWish entry.1 entry.2).Met repo view' ↔
      (¬ Unmoved view entry.1 entry.2 → entry.2.derivedBy = none) := by
  obtain ⟨structName, field⟩ := entry
  obtain ⟨before, after, hsplit, hbefore, hafter⟩ := wishes_split files repo hnodup h
  have hapart {others : List Wish} (hothers : ∀ other ∈ others, other.key ≠ some (structName, field.name)) :
      ∀ event ∈ others.filterMap (Wish.event repo view), event.touches ≠ some (structName, field.name) := by
    intro event hevent
    obtain ⟨other, hother, hemit⟩ := List.mem_filterMap.1 hevent
    rw [touches_event hemit]
    exact hothers other hother
  rw [hsplit, List.filterMap_append, ← List.singleton_append, List.filterMap_append, filterMap_one,
    ← List.append_assoc] at ha
  obtain ⟨hkept, hstep⟩ := DefView.applyAll_declared ha (hapart hbefore) (hapart hafter)
  simp only [fieldWish, Wish.event] at hkept hstep
  simp only [fieldWish, Wish.Met]
  cases hdeclared : view.declared (structName, field.name) with
  | none =>
    simp only [hdeclared] at hkept hstep
    have hunmoved : Unmoved view structName field := fun existing hexisting => by
      rw [hdeclared] at hexisting
      cases hexisting
    have hnew := Except.ok.inj (hstep _ rfl rfl)
    exact ⟨fun _ hmoved => absurd hunmoved hmoved, fun _ => ⟨_, hnew.symm, rfl, rfl, rfl⟩⟩
  | some existing =>
    simp only [hdeclared] at hkept hstep
    by_cases hty : existing.ty = valueType field.ty
    · have hunmoved : Unmoved view structName field := fun other hother => by
        rw [hdeclared] at hother
        cases hother
        exact hty
      refine ⟨fun _ hmoved => absurd hunmoved hmoved, fun _ => ?_⟩
      simp only [hty, ne_eq, not_true_eq_false, if_false] at hkept hstep
      by_cases hsame : existing.declaringRepo = repo ∧
          existing.ownership = ownership (field.derivedBy.map producerId)
      · exact ⟨existing, hkept (if_pos hsame), hty, hsame.2, hsame.1⟩
      · have hrefused := hstep _ (if_neg hsame) rfl
        simp only [DefEvent.step, hty, true_and, if_neg hsame] at hrefused
        cases hrefused
    · have hmoved : ¬ Unmoved view structName field := fun hunmoved => hty (hunmoved existing hdeclared)
      obtain ⟨name, hname⟩ : ∃ name, field.up = some name :=
        Option.isSome_iff_exists.1 (hfits.carried hmoved)
      simp only [hname, Option.map_some, ne_eq, hty, not_false_eq_true, if_true] at hstep
      have hmutated := hstep _ rfl rfl
      simp only [DefEvent.step] at hmutated
      split at hmutated
      · cases hmutated
      · rename_i hrepo
        cases hown : existing.ownership with
        | derived owner =>
          rw [hown] at hmutated
          cases hmutated
        | source =>
          rw [hown] at hmutated
          have hmutated := Except.ok.inj hmutated
          constructor
          · rintro ⟨declared, hfound, -, howner, -⟩ -
            rw [← hmutated] at hfound
            cases hfound
            exact Option.map_eq_none_iff.1 (ownership_eq_source.1 (howner.symm.trans rfl))
          · intro hnone
            refine ⟨_, hmutated.symm, rfl, ?_, not_not.1 hrepo⟩
            rw [hnone hmoved]
            rfl

/-- **A view comes to give what is asked for** exactly where the push settles. -/
theorem all_met_iff (hnodup : ((fields scripts).map fun entry => (entry.1, entry.2.name)).Nodup)
    (hfits : ∀ entry ∈ fields scripts, Fits scripts view entry.1 entry.2)
    (ha : view.applyAll layer ((wishes files repo scripts).filterMap (Wish.event repo view)) = .ok view') :
    (∀ wish ∈ wishes files repo scripts, wish.Met repo view') ↔ Settles files repo scripts view := by
  constructor
  · intro hmet
    refine ⟨fun entry hentry => ?_, (producers_met_iff ha).1 fun next hnext => ?_⟩
    · exact (field_met_iff hnodup hentry (hfits entry hentry) ha).1 (hmet _ (mem_wishes_field files repo hentry))
    · obtain ⟨wish, hwish, hsame⟩ := List.mem_filterMap.1 hnext
      cases wish with
      | producer found =>
        cases hsame
        exact hmet _ hwish
      | field => cases hsame
  · intro hsettles wish hwish
    cases wish with
    | producer next =>
      exact (producers_met_iff ha).2 hsettles.roles next (List.mem_filterMap.2 ⟨_, hwish, rfl⟩)
    | field key ty owner up down =>
      obtain ⟨entry, hentry, hsame⟩ : ∃ entry ∈ fields scripts,
          fieldWish entry.1 entry.2 = .field key ty owner up down := by
        rcases List.mem_append.1 hwish with hpipeline | hfield
        · obtain ⟨_, _, hsame⟩ := List.mem_map.1 hpipeline
          cases hsame
        · obtain ⟨entry, hentry, hmem⟩ := List.mem_flatMap.1 hfield
          refine ⟨entry, hentry, ?_⟩
          rcases List.mem_append.1 hmem with hmigration | hself
          · rcases List.mem_append.1 hmigration with hmigration | hmigration
            · obtain ⟨_, _, hsame⟩ := List.mem_map.1 hmigration
              cases hsame
            · obtain ⟨_, _, hsame⟩ := List.mem_map.1 hmigration
              cases hsame
          · exact (List.mem_singleton.1 hself).symm
      rw [← hsame]
      exact (field_met_iff hnodup hentry (hfits entry hentry) ha).2 (hsettles.owners entry hentry)

/-! ### A push, and the same push again -/

variable {dir : String} {branchName : Option String} {store store' : Store} {push : Push} {branch : BranchId}

/-- What a push that is accepted has done. -/
structure Accepted (files : Files) (dir : String) (repo : RepoId) (scripts : List Script)
    (branchName : Option String) (store : Store) (branch : BranchId) (view : DefView) (push : Push)
    (store' : Store) : Prop where
  named : store.log.branchNamed branchName = .ok branch
  claims : checkClaims dir repo scripts = .ok ()
  viewed : store.log.view (store.log.readPath branch none) = .ok view
  diffed : ∃ draft, diff files repo scripts view store.impls = .ok draft ∧ store'.impls = draft.impls ∧
    (draft.events = [] ∧ push.layer = none ∧ store'.log = store.log ∨
      ∃ layer, Log.push branch draft.events store.log = .ok layer store'.log ∧ push.layer = some layer)

theorem onLog_ok {α : Type} {call : LogM α} {a : α} (h : onLog call store = .ok a store') :
    call store.log = .ok a store'.log ∧ store'.impls = store.impls := by
  unfold onLog at h
  split at h
  · cases h
    exact ⟨by assumption, rfl⟩
  · cases h

theorem answered_ok {α : Type} {answer : Except Failure α} {a : α} (h : answered answer store = .ok a store') :
    answer = .ok a ∧ store' = store := by
  cases answer with
  | error err => cases h
  | ok b =>
    cases h
    exact ⟨rfl, rfl⟩

theorem ask_onLog_ok {α : Type} {question : Log → Except BorgError α} {a : α}
    (h : onLog (Log.ask question) store = .ok a store') : question store.log = .ok a ∧ store' = store := by
  obtain ⟨hask, himpls⟩ := onLog_ok h
  obtain ⟨hlog, hanswer⟩ := Log.ask_ok hask
  refine ⟨hanswer, ?_⟩
  cases store
  cases store'
  cases hlog
  cases himpls
  rfl

theorem onLog_ask {α : Type} {question : Log → Except BorgError α} {a : α} (h : question store.log = .ok a) :
    onLog (Log.ask question) store = .ok a store := by
  simp only [onLog, Log.ask, h]

theorem pushEvents_ok {events : List DefEvent} {layer : Option LayerId}
    (h : pushEvents branch events store = .ok layer store') :
    events = [] ∧ layer = none ∧ store'.log = store.log ∨
      ∃ id, Log.push branch events store.log = .ok id store'.log ∧ layer = some id := by
  unfold pushEvents at h
  split at h
  · rename_i hempty
    obtain ⟨rfl, rfl⟩ := EStateM.Result.ok.inj h
    exact Or.inl ⟨List.isEmpty_iff.1 hempty, rfl, rfl⟩
  · obtain ⟨id, pushed, hpushed, hreturn⟩ := Calls.bind_eq_ok_iff.1 h
    obtain ⟨rfl, rfl⟩ := EStateM.Result.ok.inj hreturn
    exact Or.inr ⟨id, (onLog_ok hpushed).1, rfl⟩

theorem repoPush_ok (h : repoPush files dir repo scripts branchName store = .ok push store') :
    ∃ branch view, Accepted files dir repo scripts branchName store branch view push store' := by
  obtain ⟨branch, found, hbranch, hrest⟩ := Calls.bind_eq_ok_iff.1 h
  obtain ⟨hnamed, rfl⟩ := ask_onLog_ok hbranch
  obtain ⟨_, found', hclaims, hrest'⟩ := Calls.bind_eq_ok_iff.1 hrest
  obtain ⟨hclaimed, rfl⟩ := answered_ok hclaims
  obtain ⟨view, found, hview, hpush⟩ := Calls.bind_eq_ok_iff.1 hrest'
  obtain ⟨hviewed, rfl⟩ := ask_onLog_ok hview
  rw [Calls.bind_ok Calls.get_run] at hpush
  obtain ⟨draft, found', hdiff, hland⟩ := Calls.bind_eq_ok_iff.1 hpush
  obtain ⟨hdiffed, rfl⟩ := answered_ok hdiff
  obtain ⟨layer, pushed, hlayer, hend⟩ := Calls.bind_eq_ok_iff.1 hland
  cases hend
  have hlanded := pushEvents_ok hlayer
  exact ⟨branch, view, hnamed, hclaimed, hviewed, draft, hdiffed, rfl, hlanded⟩

theorem repoPush_nothing {draft : Draft} (hbranch : store.log.branchNamed branchName = .ok branch)
    (hclaims : checkClaims dir repo scripts = .ok ())
    (hview : store.log.view (store.log.readPath branch none) = .ok view)
    (hdiff : diff files repo scripts view store.impls = .ok draft) (hnothing : draft.events = []) :
    repoPush files dir repo scripts branchName store =
      .ok ⟨none, draft.lines⟩ { store with impls := draft.impls } := by
  have hlayer : pushEvents branch draft.events store = .ok none store := by
    rw [hnothing]
    rfl
  have hanswered {α : Type} {answer : Except Failure α} {a : α} (h : answer = .ok a) :
      answered answer store = .ok a store := by
    rw [h]
    rfl
  unfold repoPush
  rw [Calls.bind_ok (onLog_ask hbranch), Calls.bind_ok (hanswered hclaims), Calls.bind_ok (onLog_ask hview),
    Calls.bind_ok Calls.get_run, Calls.bind_ok (hanswered hdiff), Calls.bind_ok hlayer]
  rfl

theorem branchNamed_congr {log log' : Log} (h : log'.branches = log.branches) (name : Option String) :
    log'.branchNamed name = log.branchNamed name := by
  simp only [Log.branchNamed, Log.allocationBranch, Log.defaultBranch, h]

theorem Accepted.folded (h : store.log.Sound)
    (ha : Accepted files dir repo scripts branchName store branch view push store') :
    ∃ draft layer view', diff files repo scripts view store.impls = .ok draft ∧ store'.impls = draft.impls ∧
      view.applyAll layer draft.events = .ok view' ∧ store'.log.branchNamed branchName = .ok branch ∧
        store'.log.view (store'.log.readPath branch none) = .ok view' := by
  obtain ⟨draft, hdiff, himpls, hlanded⟩ := ha.diffed
  rcases hlanded with ⟨hnothing, -, hlog⟩ | ⟨layer, hpush, -⟩
  · refine ⟨draft, 0, view, hdiff, himpls, by rw [hnothing]; rfl, ?_⟩
    rw [hlog]
    exact ⟨ha.named, ha.viewed⟩
  · have hregistered := Log.branchNamed_registered h ha.named
    have hrun := Log.push_run h hregistered draft.events ha.viewed
    cases happly : view.applyAll store.log.nextLayer draft.events with
    | error err =>
      rw [happly] at hrun
      obtain ⟨log', hfailed, -⟩ := hrun
      rw [hpush] at hfailed
      cases hfailed
    | ok view' =>
      rw [happly] at hrun
      obtain ⟨log', hok, hlands⟩ := hrun
      rw [hpush] at hok
      cases hok
      exact ⟨draft, store.log.nextLayer, view', hdiff, himpls, happly,
        (branchNamed_congr hlands.branches branchName).trans ha.named,
        hlands.view_pushed h hregistered ha.viewed happly⟩

/-- What it is for a push to have converged: the view gives everything the repo asks for, and the same push
again is accepted and emits nothing. -/
def Converged (files : Files) (dir : String) (repo : RepoId) (scripts : List Script)
    (branchName : Option String) (store : Store) : Prop :=
  (∃ branch view, store.log.branchNamed branchName = .ok branch ∧
    store.log.view (store.log.readPath branch none) = .ok view ∧
      ∀ wish ∈ wishes files repo scripts, wish.Met repo view) ∧
    ∃ again store', repoPush files dir repo scripts branchName store = .ok again store' ∧
      again.layer = none ∧ store'.log = store.log

/-- **When a push converges.**  A push that is accepted converges exactly where no field whose type moves is given
to a producer as well, and of the definitions described under one id the last that is not in force agrees with
the others. -/
theorem converges_iff (h : store.log.Sound)
    (hnodup : ((fields scripts).map fun entry => (entry.1, entry.2.name)).Nodup)
    (haccepted : repoPush files dir repo scripts branchName store = .ok push store') :
    ∃ branch view, store.log.branchNamed branchName = .ok branch ∧
      store.log.view (store.log.readPath branch none) = .ok view ∧
        (Converged files dir repo scripts branchName store' ↔ Settles files repo scripts view) := by
  obtain ⟨branch, view, ha⟩ := repoPush_ok haccepted
  refine ⟨branch, view, ha.named, ha.viewed, ?_⟩
  obtain ⟨draft, layer, view', hdiff, himpls, happly, hnamed, hview⟩ := ha.folded h
  have hdiffed := diff_ok hdiff
  rw [hdiffed.events] at happly
  have hiff := all_met_iff hnodup hdiffed.fits happly
  constructor
  · rintro ⟨⟨found, folded, hfound, hfolded, hmet⟩, -⟩
    rw [hnamed] at hfound
    cases hfound
    rw [hview] at hfolded
    cases hfolded
    exact hiff.1 hmet
  · intro hsettles
    have hmet := hiff.2 hsettles
    refine ⟨⟨branch, view', hnamed, hview, hmet⟩, ?_⟩
    have hfits : ∀ entry ∈ fields scripts, Implements scripts entry.2.up ∧ Implements scripts entry.2.down ∧
        Resolves scripts entry.2.derivedBy := by
      intro entry hentry
      have hfits := hdiffed.fits entry hentry
      refine ⟨hfits.up, hfits.down, ?_⟩
      by_cases hunmoved : Unmoved view entry.1 entry.2
      · exact hfits.owner hunmoved
      · rw [Resolves, hsettles.owners entry hentry hunmoved]
        exact nofun
    have hnames := hdiffed.named
    rw [hdiffed.impls] at hnames
    obtain ⟨again, hagain, hnothing⟩ := diff_met hfits hmet hnames
    rw [← hdiffed.impls, ← himpls] at hagain
    exact ⟨_, _, repoPush_nothing hnamed ha.claims hview hagain hnothing, rfl, rfl⟩

namespace Sample

def disk : Files := ⟨fun _ => some "sha256:00", id⟩

def fresh : Store := ⟨after (Log.createRoot (some "main") Log.new), []⟩

theorem fresh_sound : fresh.log.Sound := (Host.Call.good Host.good_new (.createRoot (some "main"))).sound

/-- A repo with a pipeline, and the field it owns. -/
def scored : List Script :=
  [("pipelines/score", ⟨[⟨"Company", [⟨"score", "Int", some "score", none, none⟩]⟩], [⟨"score", "Company", none⟩],
    .stdio, none, []⟩)]

theorem converges_iff_scored :
    ∃ push store', repoPush disk "repo" 1 scored none fresh = .ok push store' ∧
      ∃ branch view, fresh.log.branchNamed none = .ok branch ∧
        fresh.log.view (fresh.log.readPath branch none) = .ok view ∧
          (Converged disk "repo" 1 scored none store' ↔ Settles disk 1 scored view) := by
  have haccepted : Calls.outcome (repoPush disk "repo" 1 scored none fresh) =
      .ok ⟨some 1, ["score -> P13911166232573650165", "Company.score Int"]⟩ := by decide +kernel
  have hpushed := Calls.eq_ok_of_outcome haccepted
  exact ⟨_, _, hpushed, converges_iff fresh_sound (by decide +kernel) hpushed⟩

/-- A repo that names one migration as both halves of a field's step. -/
def bothWays : List Script :=
  [("pipelines/founded", ⟨[⟨"Company", [⟨"founded", "Int", none, some "founded", some "founded"⟩]⟩], [], .stdio,
    none, [⟨"founded", none⟩]⟩)]

/-- **A push may never be done.**  The two halves are one producer, each push puts one of them in place of the
other, and the same repo lands a def layer every time. -/
theorem push_diverges :
    ¬ ∀ (files : Files) (dir : String) (repo : RepoId) (scripts : List Script) (branchName : Option String)
        (store store' : Store) (push : Push), store.log.Sound →
      ((pipelines scripts).map fun entry => entry.2.name).Nodup →
      ((fields scripts).map fun entry => (entry.1, entry.2.name)).Nodup →
      repoPush files dir repo scripts branchName store = .ok push store' →
      Converged files dir repo scripts branchName store' := by
  intro h
  have hfirst : Calls.outcome (repoPush disk "repo" 1 bothWays none fresh) =
      .ok ⟨some 1, ["founded -> P9710409033063281726", "founded -> P9710409033063281726", "Company.founded Int"]⟩ := by
    decide +kernel
  have hpushed := Calls.eq_ok_of_outcome hfirst
  obtain ⟨-, again, store', hagain, hnothing, -⟩ := h disk "repo" 1 bothWays none fresh _ _ fresh_sound
    (by decide +kernel) (by decide +kernel) hpushed
  have hsecond : (Calls.outcome (repoPush disk "repo" 1 bothWays none
      (Calls.left (repoPush disk "repo" 1 bothWays none fresh)))).map Push.layer = .ok (some 2) := by
    decide +kernel
  rw [hagain] at hsecond
  have hlayer : again.layer = some 2 := Except.ok.inj hsecond
  rw [hnothing] at hlayer
  cases hlayer

end Sample

end Repo

end BorgCore
