import BorgCore.Engine.Defs

/-!
# The fold, one field at a time

A def event is about one field, or about a producer.  `DefEvent.step` is the life of one field: what
an event makes of its declaration, or why the event is refused, from the declaration alone.  A view is
a product of such lives: `DefView.apply` steps the field its event is about and leaves the others.

So two views that agree on a field, up to the names of def-versions, accept the same events about it
and go on agreeing.
-/

namespace BorgCore

abbrev FieldKey := ObjectTypeName × FieldName

/-- What an event makes of the declaration of the field it is about. -/
def DefEvent.step (event : DefEvent) (existing : Option FieldDef) (layer : LayerId) :
    Except BorgError (Option FieldDef) :=
  match event, existing with
  | .declareField structName field ty repo ownership, some existing =>
    if existing.declaringRepo = repo ∧ existing.ty = ty ∧ existing.ownership = ownership then
      .ok (some existing)
    else .error (.fieldCollision structName field existing.declaringRepo)
  | .declareField _ field ty repo ownership, none => .ok (some ⟨field, ty, repo, ownership, layer⟩)
  | .mutateField structName field .., none => .error (.missingMigration structName field)
  | .mutateField structName field ty repo .., some existing =>
    if existing.declaringRepo ≠ repo then
      .error (.notDeclaringRepo repo existing.declaringRepo structName field)
    else
      match existing.ownership with
      | .derived owner => .error (.migrationOnDerivedField structName field owner)
      | .source => .ok (some { existing with ty := ty, version := layer })
  | .deleteField structName field repo, some existing =>
    if existing.declaringRepo ≠ repo then
      .error (.notDeclaringRepo repo existing.declaringRepo structName field)
    else .ok none
  | .deleteField .., none => .ok none
  | .pushProducer _, existing => .ok existing

/-- A declaration under other names for the def-versions. -/
def FieldDef.rename (names : LayerId → LayerId) (declared : FieldDef) : FieldDef :=
  { declared with version := names declared.version }

/-- The life of a field does not depend on the names of def-versions. -/
theorem DefEvent.step_rename (names : LayerId → LayerId) (event : DefEvent)
    (existing : Option FieldDef) (layer : LayerId) :
    event.step (existing.map (FieldDef.rename names)) (names layer) =
      (event.step existing layer).map (Option.map (FieldDef.rename names)) := by
  cases event with
  | declareField structName field ty repo ownership =>
    cases existing with
    | none => rfl
    | some existing =>
      simp only [DefEvent.step, Option.map_some, FieldDef.rename]
      split <;> rfl
  | mutateField structName field ty repo up down =>
    cases existing with
    | none => rfl
    | some existing =>
      obtain ⟨name, type, declaring, ownership, version⟩ := existing
      simp only [DefEvent.step, Option.map_some, FieldDef.rename]
      split
      · rfl
      · cases ownership <;> rfl
  | deleteField structName field repo =>
    cases existing with
    | none => rfl
    | some existing =>
      simp only [DefEvent.step, Option.map_some, FieldDef.rename]
      split <;> rfl
  | pushProducer definition => rfl

theorem DefEvent.step_version {event : DefEvent} {existing : Option FieldDef} {layer : LayerId}
    {moved : FieldDef} (h : event.step existing layer = .ok (some moved)) :
    moved.version = layer ∨ ∃ declared, existing = some declared ∧ moved.version = declared.version := by
  cases event with
  | declareField structName field ty repo ownership =>
    cases existing with
    | none =>
      cases h
      exact Or.inl rfl
    | some existing =>
      simp only [DefEvent.step] at h
      split at h
      · cases h
        exact Or.inr ⟨_, rfl, rfl⟩
      · cases h
  | mutateField structName field ty repo up down =>
    cases existing with
    | none => cases h
    | some existing =>
      simp only [DefEvent.step] at h
      split at h
      · cases h
      · split at h
        · cases h
        · cases h
          exact Or.inl rfl
  | deleteField structName field repo =>
    cases existing with
    | none => cases h
    | some existing =>
      simp only [DefEvent.step] at h
      split at h <;> cases h
  | pushProducer definition =>
    cases h
    exact Or.inr ⟨_, rfl, rfl⟩

namespace DefView

variable {view view' : DefView} {structName : ObjectTypeName} {field : FieldName} {layer : LayerId}
  {event : DefEvent}

def declared (view : DefView) (key : FieldKey) : Option FieldDef := view.fieldOf key.1 key.2

theorem declared_setField {object : ObjectDef} (moved : Option FieldDef)
    (ho : ∀ other, object.fields.lookup other = view.declared (structName, other)) (key : FieldKey) :
    (view.setField structName object field moved).declared key =
      if key = (structName, field) then moved else view.declared key := by
  obtain ⟨structName', field'⟩ := key
  unfold declared fieldOf setField
  by_cases hs : structName' = structName
  · subst hs
    simp only [AList.lookup_insert, Option.bind_some, Prod.mk.injEq, true_and]
    cases moved with
    | none =>
      simp only [AssocMap.lookup_erase_eq, ho]
      rfl
    | some moved =>
      simp only [AssocMap.lookup_insert_eq, ho]
      rfl
  · simp [hs]

theorem lookup_fields {object : ObjectDef} (ho : view.objects.lookup structName = some object)
    (other : FieldName) : object.fields.lookup other = view.declared (structName, other) := by
  simp [declared, fieldOf, ho]

theorem lookup_fields_getD (other : FieldName) :
    ((view.objects.lookup structName).getD ⟨structName, ∅⟩).fields.lookup other =
      view.declared (structName, other) := by
  cases ho : view.objects.lookup structName with
  | none => simp [declared, fieldOf, ho]
  | some object => exact lookup_fields ho other

theorem declared_of_no_object (ho : view.objects.lookup structName = none) :
    view.declared (structName, field) = none := by
  simp [declared, fieldOf, ho]

/-- What the fold does to one field and to the others. -/
structure Steps (view : DefView) (key : FieldKey) (event : DefEvent) (layer : LayerId)
    (view' : DefView) : Prop where
  moved : event.step (view.declared key) layer = .ok (view'.declared key)
  kept : ∀ other, other ≠ key → view'.declared other = view.declared other

/-- **A view is a product of fields.**  An event about a field is refused as its life refuses it, and
where it is accepted it moves that field and no other. -/
theorem apply_step {key : FieldKey} (ht : event.touches = some key) :
    (∃ err, view.apply event layer = .error err ∧
        event.step (view.declared key) layer = .error err) ∨
      ∃ view', view.apply event layer = .ok view' ∧ view.Steps key event layer view' := by
  cases event with
  | declareField structName field ty repo ownership =>
    cases ht
    simp only [apply, lookup_fields_getD]
    cases hd : view.declared (structName, field) with
    | some existing =>
      by_cases hsame : existing.declaringRepo = repo ∧ existing.ty = ty ∧
          existing.ownership = ownership
      · exact Or.inr ⟨view, if_pos hsame, by rw [hd]; exact if_pos hsame, fun _ _ => rfl⟩
      · exact Or.inl ⟨_, if_neg hsame, if_neg hsame⟩
    | none =>
      refine Or.inr ⟨_, rfl, ?_, fun other hne => ?_⟩
      · rw [hd, declared_setField _ lookup_fields_getD, if_pos rfl]
        rfl
      · rw [declared_setField _ lookup_fields_getD, if_neg hne]
  | mutateField structName field ty repo up down =>
    cases ht
    cases ho : view.objects.lookup structName with
    | none =>
      refine Or.inl ⟨.missingMigration structName field, by simp only [apply, ho], ?_⟩
      rw [declared_of_no_object ho]
      rfl
    | some object =>
      simp only [apply, ho, lookup_fields ho]
      cases hd : view.declared (structName, field) with
      | none => exact Or.inl ⟨_, rfl, rfl⟩
      | some existing =>
        by_cases hr : existing.declaringRepo ≠ repo
        · exact Or.inl ⟨_, if_pos hr, if_pos hr⟩
        · simp only [if_neg hr]
          cases hown : existing.ownership with
          | derived owner =>
            refine Or.inl ⟨_, rfl, ?_⟩
            simp only [DefEvent.step, if_neg hr, hown]
          | source =>
            refine Or.inr ⟨_, rfl, ?_, fun other hne => ?_⟩
            · rw [hd]
              simp only [DefEvent.step, if_neg hr, hown]
              change _ = Except.ok ((view.setField structName object field (some _)).declared _)
              rw [declared_setField _ (lookup_fields ho), if_pos rfl]
            · change (view.setField structName object field (some _)).declared other = _
              rw [declared_setField _ (lookup_fields ho), if_neg hne]
  | deleteField structName field repo =>
    cases ht
    cases ho : view.objects.lookup structName with
    | none =>
      refine Or.inr ⟨view, by simp only [apply, ho], ?_, fun _ _ => rfl⟩
      rw [declared_of_no_object ho]
      rfl
    | some object =>
      simp only [apply, ho, lookup_fields ho]
      cases hd : view.declared (structName, field) with
      | none =>
        refine Or.inr ⟨_, rfl, ?_, fun other hne => ?_⟩
        · rw [hd, declared_setField _ (lookup_fields ho), if_pos rfl]
          rfl
        · rw [declared_setField _ (lookup_fields ho), if_neg hne]
      | some existing =>
        by_cases hr : existing.declaringRepo ≠ repo
        · exact Or.inl ⟨_, if_pos hr, if_pos hr⟩
        · refine Or.inr ⟨_, if_neg hr, ?_, fun other hne => ?_⟩
          · rw [hd, declared_setField _ (lookup_fields ho), if_pos rfl]
            exact if_neg hr
          · rw [declared_setField _ (lookup_fields ho), if_neg hne]
  | pushProducer definition => cases ht

/-- An event about no field is accepted, and moves none. -/
theorem apply_none (ht : event.touches = none) :
    ∃ view', view.apply event layer = .ok view' ∧ ∀ key, view'.declared key = view.declared key := by
  cases event with
  | pushProducer definition => exact ⟨_, rfl, fun _ => rfl⟩
  | declareField => cases ht
  | mutateField => cases ht
  | deleteField => cases ht

theorem apply_kept (ha : view.apply event layer = .ok view') {key : FieldKey}
    (hk : event.touches ≠ some key) : view'.declared key = view.declared key := by
  cases ht : event.touches with
  | none =>
    obtain ⟨next, hn, hkept⟩ := apply_none ht
    rw [ha] at hn
    cases hn
    exact hkept key
  | some touched =>
    obtain ⟨err, he, _⟩ | ⟨next, hn, hsteps⟩ := apply_step ht
    · rw [ha] at he
      cases he
    · rw [ha] at hn
      cases hn
      exact hsteps.kept key fun he => hk (by rw [ht, he])

theorem apply_moved (ha : view.apply event layer = .ok view') {key : FieldKey}
    (hk : event.touches = some key) :
    event.step (view.declared key) layer = .ok (view'.declared key) := by
  obtain ⟨err, he, _⟩ | ⟨next, hn, hsteps⟩ := apply_step hk
  · rw [ha] at he
    cases he
  · rw [ha] at hn
    cases hn
    exact hsteps.moved

/-! ### Folding many events -/

/-- Fold a stream of def events in, each with the layer it is in. -/
def foldEvents : List (LayerId × DefEvent) → DefView → Except BorgError DefView
  | [], view => .ok view
  | (layer, event) :: rest, view => (view.apply event layer).bind (foldEvents rest)

theorem foldEvents_append (xs ys : List (LayerId × DefEvent)) (view : DefView) :
    foldEvents (xs ++ ys) view = (foldEvents xs view).bind (foldEvents ys) := by
  induction xs generalizing view with
  | nil => rfl
  | cons x xs ih =>
    obtain ⟨layer, event⟩ := x
    simp only [List.cons_append, foldEvents]
    cases view.apply event layer with
    | error err => rfl
    | ok view => exact ih view

theorem foldEvents_append_ok {xs ys : List (LayerId × DefEvent)} :
    foldEvents (xs ++ ys) view = .ok view' ↔
      ∃ middle, foldEvents xs view = .ok middle ∧ foldEvents ys middle = .ok view' := by
  rw [foldEvents_append]
  cases foldEvents xs view with
  | error err => simp [Except.bind]
  | ok middle => simp [Except.bind]

theorem foldEvents_cons_ok {rest : List (LayerId × DefEvent)} :
    foldEvents ((layer, event) :: rest) view = .ok view' ↔
      ∃ next, view.apply event layer = .ok next ∧ foldEvents rest next = .ok view' := by
  rw [foldEvents]
  cases view.apply event layer with
  | error err => simp [Except.bind]
  | ok next => simp [Except.bind]

theorem applyAll_eq (events : List DefEvent) :
    view.applyAll layer events = foldEvents (events.map fun event => (layer, event)) view := by
  induction events generalizing view with
  | nil => rfl
  | cons event rest ih =>
    simp only [applyAll, List.map_cons, foldEvents, bind]
    cases view.apply event layer with
    | error err => rfl
    | ok next => exact ih

theorem foldEvents_kept {stream : List (LayerId × DefEvent)} (ha : foldEvents stream view = .ok view')
    {key : FieldKey} (hk : ∀ entry ∈ stream, entry.2.touches ≠ some key) :
    view'.declared key = view.declared key := by
  induction stream generalizing view with
  | nil =>
    cases ha
    rfl
  | cons entry rest ih =>
    obtain ⟨next, hn, hrest⟩ := foldEvents_cons_ok.1 ha
    rw [ih hrest fun e hm => hk e (List.mem_cons_of_mem _ hm),
      apply_kept hn (hk entry List.mem_cons_self)]

/-- Every version a stream leaves in force is a layer of the stream, or was in force before. -/
theorem foldEvents_version {p : LayerId → Prop} {stream : List (LayerId × DefEvent)}
    (ha : foldEvents stream view = .ok view') (hp : ∀ entry ∈ stream, p entry.1)
    (hview : ∀ key declared, view.declared key = some declared → p declared.version) :
    ∀ key declared, view'.declared key = some declared → p declared.version := by
  induction stream generalizing view with
  | nil =>
    cases ha
    exact hview
  | cons entry rest ih =>
    obtain ⟨next, hn, hrest⟩ := foldEvents_cons_ok.1 ha
    refine ih hrest (fun e hm => hp e (List.mem_cons_of_mem _ hm)) fun key declared hd => ?_
    by_cases hk : entry.2.touches = some key
    · have hmoved := apply_moved hn hk
      rw [hd] at hmoved
      rcases DefEvent.step_version hmoved with he | ⟨old, hold, he⟩
      · rw [he]
        exact hp entry List.mem_cons_self
      · rw [he]
        exact hview key old hold
    · rw [apply_kept hn hk] at hd
      exact hview key declared hd

/-! ### Views that agree -/

/-- Two views agree on some fields, up to the names of def-versions. -/
def Agree (names : LayerId → LayerId) (keys : FieldKey → Prop) (view view' : DefView) : Prop :=
  ∀ key, keys key → view'.declared key = (view.declared key).map (FieldDef.rename names)

section Agree

variable {names : LayerId → LayerId} {keys : FieldKey → Prop} {next : DefView}

/-- Agreeing views accept the same event, under its new name, and go on agreeing. -/
theorem Agree.apply (h : Agree names keys view view')
    (hk : ∀ key, event.touches = some key → keys key) (ha : view.apply event layer = .ok next) :
    ∃ next', view'.apply event (names layer) = .ok next' ∧ Agree names keys next next' := by
  cases ht : event.touches with
  | none =>
    obtain ⟨next', hn', hkept'⟩ := @apply_none view' (names layer) event ht
    refine ⟨next', hn', fun key hkey => ?_⟩
    rw [hkept' key, h key hkey, apply_kept ha (by rw [ht]; exact nofun)]
  | some touched =>
    have hmoved := apply_moved ha ht
    have hstep := event.step_rename names (view.declared touched) layer
    rw [← h touched (hk touched ht), hmoved] at hstep
    obtain ⟨err, _, he⟩ | ⟨next', hn', hsteps'⟩ := @apply_step view' (names layer) event touched ht
    · rw [hstep] at he
      cases he
    · refine ⟨next', hn', fun key hkey => ?_⟩
      by_cases hkt : key = touched
      · subst hkt
        exact (Except.ok.inj (hstep.symm.trans hsteps'.moved)).symm
      · have hne : event.touches ≠ some key := fun he => hkt (by rw [ht] at he; exact (Option.some.inj he).symm)
        rw [hsteps'.kept key hkt, h key hkey, apply_kept ha hne]

/-- **Replay.**  A stream one view accepts is accepted, under new names, by every view that agrees on
the fields the stream is about. -/
theorem Agree.foldEvents {stream : List (LayerId × DefEvent)} (h : Agree names keys view view')
    (hk : ∀ entry ∈ stream, ∀ key, entry.2.touches = some key → keys key)
    (ha : foldEvents stream view = .ok next) :
    ∃ next', DefView.foldEvents (stream.map fun entry => (names entry.1, entry.2)) view' = .ok next' ∧
      Agree names keys next next' := by
  induction stream generalizing view view' with
  | nil =>
    cases ha
    exact ⟨view', rfl, h⟩
  | cons entry rest ih =>
    obtain ⟨middle, hm, hrest⟩ := foldEvents_cons_ok.1 ha
    obtain ⟨middle', hm', hagree⟩ := h.apply (hk entry List.mem_cons_self) hm
    obtain ⟨next', hn', hagree'⟩ := ih hagree (fun e hmem => hk e (List.mem_cons_of_mem _ hmem)) hrest
    exact ⟨next', foldEvents_cons_ok.2 ⟨middle', hm', hn'⟩, hagree'⟩

end Agree

end DefView

end BorgCore
