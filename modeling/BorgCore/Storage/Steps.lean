import BorgCore.Storage.Sound

/-!
# What each call of the store does

For every call, what it answers where its layer is open, that `Sound` survives it, and what becomes of
the contents of layers.  Only a commit changes what a reader sees.
-/

namespace BorgCore

namespace MemoryStorage

variable {store : MemoryStorage} {layer : LayerId} {staged : StagedLayer}

/-! ### What the calls answer -/

theorem openLayer_run (branch : BranchId) (hs : store.staged.lookup layer = none)
    (hm : store.members.lookup layer = none) :
    openLayer branch layer store =
      .ok () { store with staged := store.staged.insert layer (.fresh branch) } := by
  simp [openLayer, hs, hm]

theorem restage_run (change : StagedLayer → StagedLayer)
    (hs : store.staged.lookup layer = some staged) (ho : staged.isSealed = false) :
    restage layer change store =
      .ok () { store with staged := store.staged.insert layer (change staged) } := by
  simp [restage, stagedFor, hs, ho]

theorem authorEvent_run (cell : CellRef) (draft : EventDraft)
    (hs : store.staged.lookup layer = some staged) (ho : staged.isSealed = false) :
    authorEvent layer cell draft store =
      .ok (store.nextEvent + 1) { store with
        nextEvent := store.nextEvent + 1
        staged := store.staged.insert layer
          (staged.author (draft.event (store.nextEvent + 1) cell layer)) } := by
  have hr := @restage_run { store with nextEvent := store.nextEvent + 1 } layer staged
    (·.author (draft.event (store.nextEvent + 1) cell layer)) hs ho
  simp only [authorEvent, mint, bind, EStateM.bind, hr, pure, EStateM.pure]

theorem includeEvent_run {event : EventId} (he : (store.events.lookup event).isSome)
    (hs : store.staged.lookup layer = some staged) (ho : staged.isSealed = false) :
    includeEvent layer event store =
      .ok () { store with staged := store.staged.insert layer (staged.name event) } := by
  obtain ⟨found, hf⟩ := Option.isSome_iff_exists.1 he
  simp only [includeEvent, hf]
  exact restage_run _ hs ho

theorem putDef_run (event : DefEvent) (hs : store.staged.lookup layer = some staged)
    (ho : staged.isSealed = false) :
    putDef layer event store =
      .ok () { store with staged := store.staged.insert layer (staged.define event) } :=
  restage_run _ hs ho

theorem sealLayer_run (hs : store.staged.lookup layer = some staged) :
    sealLayer layer store =
      .ok () { store with
        staged := store.staged.insert layer { staged with isSealed := true } } := by
  simp [sealLayer, hs]

/-! ### Layers that stay invisible -/

/-- A staged layer may be written as long as its own events stay new. -/
theorem Sound.insert_staged (h : store.Sound) {next : EventId} (hn : store.nextEvent ≤ next)
    (hm : store.members.lookup layer = none)
    (hauth : ∀ event ∈ staged.authored,
      event.authored = layer ∧ event.id ≤ next ∧ store.events.lookup event.id = none)
    (hinj : ∀ event ∈ staged.authored, ∀ event' ∈ staged.authored,
      event.id = event'.id → event = event')
    (hother : ∀ {layer' staged' event event'}, layer' ≠ layer →
      store.staged.lookup layer' = some staged' → event ∈ staged.authored →
      event' ∈ staged'.authored → event.id ≠ event'.id)
    (hmem : ∀ id ∈ staged.members,
      (∃ event ∈ staged.authored, event.id = id) ∨ (store.events.lookup id).isSome) :
    Sound { store with nextEvent := next, staged := store.staged.insert layer staged } where
  event_id he := ⟨(h.event_id he).1, (h.event_id he).2.trans hn⟩
  authored {l st event} hl he := by
    simp only [AssocMap.lookup_insert_eq] at hl
    split at hl
    · cases hl
      subst l
      exact hauth event he
    · obtain ⟨h₁, h₂, h₃⟩ := h.authored hl he
      exact ⟨h₁, h₂.trans hn, h₃⟩
  authored_inj {l st l' st' event event'} hl hl' he he' heq := by
    simp only [AssocMap.lookup_insert_eq] at hl hl'
    split at hl <;> split at hl'
    · cases hl; cases hl'
      exact hinj _ he _ he' heq
    · cases hl
      exact absurd heq (hother (by assumption) hl' he he')
    · cases hl'
      exact absurd heq.symm (hother (by assumption) hl he' he)
    · exact h.authored_inj hl hl' he he' heq
  staged_members {l st id} hl hid := by
    simp only [AssocMap.lookup_insert_eq] at hl
    split at hl
    · cases hl
      exact hmem id hid
    · exact h.staged_members hl hid
  stored hm' hid := h.stored hm' hid
  apart {l st} hl := by
    simp only [AssocMap.lookup_insert_eq] at hl
    split at hl
    · subst l
      exact hm
    · exact h.apart hl
  indexed := h.indexed

theorem Sound.insert_same (h : store.Sound) {staged' : StagedLayer}
    (hs : store.staged.lookup layer = some staged) (ha : staged'.authored = staged.authored)
    (hmem : ∀ id ∈ staged'.members, id ∈ staged.members ∨ (store.events.lookup id).isSome) :
    Sound { store with staged := store.staged.insert layer staged' } := by
  refine h.insert_staged (le_refl _) (h.apart hs) ?_ ?_ ?_ ?_
  · exact fun event he => h.authored hs (ha ▸ he)
  · exact fun event he event' he' => h.authored_inj hs hs (ha ▸ he) (ha ▸ he')
  · intro layer' staged'' event event' hne hs' he he' heq
    have he := ha ▸ he
    have := h.authored_inj hs hs' he he' heq
    subst this
    exact hne ((h.authored hs' he').1.symm.trans (h.authored hs he).1)
  · intro id hid
    rw [ha]
    rcases hmem id hid with hin | hst
    · exact h.staged_members hs hin
    · exact Or.inr hst

theorem Sound.openLayer (h : store.Sound) (branch : BranchId)
    (hm : store.members.lookup layer = none) :
    Sound { store with staged := store.staged.insert layer (.fresh branch) } :=
  h.insert_staged (le_refl _) hm (by simp [StagedLayer.fresh]) (by simp [StagedLayer.fresh])
    (by simp [StagedLayer.fresh]) (by simp [StagedLayer.fresh])

/-- An event is written into an open layer: its identity is new to the store and to every layer. -/
theorem Sound.adopt (h : store.Sound) {event : Event} {next : EventId}
    (hs : store.staged.lookup layer = some staged) (hauthored : event.authored = layer)
    (hnext : store.nextEvent ≤ next) (hid : event.id ≤ next) (hnew : store.events.lookup event.id = none)
    (hfresh : ∀ {layer' staged' event'}, store.staged.lookup layer' = some staged' →
      event' ∈ staged'.authored → event'.id ≠ event.id) :
    Sound { store with nextEvent := next, staged := store.staged.insert layer (staged.author event) } := by
  refine h.insert_staged hnext (h.apart hs) ?_ ?_ ?_ ?_
  · intro event' he
    rcases List.mem_append.1 he with he | he
    · obtain ⟨h₁, h₂, h₃⟩ := h.authored hs he
      exact ⟨h₁, h₂.trans hnext, h₃⟩
    · obtain rfl := List.mem_singleton.1 he
      exact ⟨hauthored, hid, hnew⟩
  · intro first he second he' heq
    rcases List.mem_append.1 he with he | he <;> rcases List.mem_append.1 he' with he' | he'
    · exact h.authored_inj hs hs he he' heq
    · exact absurd (heq.trans (congrArg Event.id (List.mem_singleton.1 he'))) (hfresh hs he)
    · exact absurd (heq.symm.trans (congrArg Event.id (List.mem_singleton.1 he))) (hfresh hs he')
    · rw [List.mem_singleton.1 he, List.mem_singleton.1 he']
  · intro layer' staged' first second hne hs' he he' heq
    rcases List.mem_append.1 he with he | he
    · have := h.authored_inj hs hs' he he' heq
      subst this
      exact hne ((h.authored hs' he').1.symm.trans (h.authored hs he).1)
    · exact hfresh hs' he' (heq.symm.trans (congrArg Event.id (List.mem_singleton.1 he)))
  · intro id hm
    rcases List.mem_append.1 hm with hm | hm
    · rcases h.staged_members hs hm with ⟨event', he, heq⟩ | hst
      · exact Or.inl ⟨event', List.mem_append_left _ he, heq⟩
      · exact Or.inr hst
    · obtain rfl := List.mem_singleton.1 hm
      exact Or.inl ⟨_, List.mem_append_right _ (List.mem_singleton.2 rfl), rfl⟩

theorem Sound.author (h : store.Sound) (cell : CellRef) (draft : EventDraft)
    (hs : store.staged.lookup layer = some staged) :
    Sound { store with
      nextEvent := store.nextEvent + 1
      staged := store.staged.insert layer
        (staged.author (draft.event (store.nextEvent + 1) cell layer)) } := by
  -- The minted id is above that of every event, stored or in an open layer.
  have hnew : store.events.lookup (store.nextEvent + 1) = none := by
    rcases he : store.events.lookup (store.nextEvent + 1) with _ | event
    · rfl
    · exact absurd (h.event_id he).2 (by lia)
  refine h.adopt hs rfl (by lia) (le_refl _) hnew fun hs' he heq => ?_
  have hle := (h.authored hs' he).2.1
  have heq : _ = store.nextEvent + 1 := heq
  lia

theorem Sound.erase_staged (h : store.Sound) :
    Sound { store with staged := store.staged.erase layer } where
  event_id := h.event_id
  authored {l st event} hl he := by
    simp only [AssocMap.lookup_erase_eq] at hl
    split at hl
    · cases hl
    · exact h.authored hl he
  authored_inj {l st l' st' event event'} hl hl' he he' heq := by
    simp only [AssocMap.lookup_erase_eq] at hl hl'
    split at hl <;> split at hl'
    · cases hl
    · cases hl
    · cases hl'
    · exact h.authored_inj hl hl' he he' heq
  staged_members {l st id} hl hid := by
    simp only [AssocMap.lookup_erase_eq] at hl
    split at hl
    · cases hl
    · exact h.staged_members hl hid
  stored := h.stored
  apart {l st} hl := by
    simp only [AssocMap.lookup_erase_eq] at hl
    split at hl
    · cases hl
    · exact h.apart hl
  indexed := h.indexed

/-! ### What an open layer would hold -/

theorem stagedContents_author (h : store.Sound) (cell : CellRef) (draft : EventDraft)
    (hs : store.staged.lookup layer = some staged) :
    store.stagedContents (staged.author (draft.event (store.nextEvent + 1) cell layer)) =
      store.stagedContents staged ++ [draft.event (store.nextEvent + 1) cell layer] := by
  have hlt : ∀ event ∈ staged.authored, event.id ≠ store.nextEvent + 1 := by
    intro event he heq
    have := (h.authored hs he).2.1
    lia
  generalize hevent : draft.event (store.nextEvent + 1) cell layer = event
  have hid : event.id = store.nextEvent + 1 := by rw [← hevent]; rfl
  unfold stagedContents StagedLayer.author
  rw [List.filterMap_append]
  congr 1
  · refine List.filterMap_congr fun id hin => ?_
    have hne : event.id ≠ id := by
      rintro rfl
      rcases h.staged_members hs hin with ⟨event', he, heq⟩ | hst
      · exact hlt event' he (heq.trans hid)
      · obtain ⟨event', he⟩ := Option.isSome_iff_exists.1 hst
        have := (h.event_id he).2
        lia
    simp [List.find?_append, hne]
  · have hfind : staged.authored.find? (fun event' => event'.id = event.id) = none :=
      List.find?_eq_none.2 fun event' he => by simpa [hid] using hlt event' he
    simp [List.find?_append, hfind]

theorem stagedContents_name (h : store.Sound) {id : EventId} {event : Event}
    (hs : store.staged.lookup layer = some staged) (he : store.events.lookup id = some event) :
    store.stagedContents (staged.name id) = store.stagedContents staged ++ [event] := by
  have hfind : staged.authored.find? (fun event => event.id = id) = none := by
    refine List.find?_eq_none.2 fun event' he' heq => ?_
    have := (h.authored hs he').2.2
    rw [of_decide_eq_true heq, he] at this
    cases this
  unfold stagedContents StagedLayer.name
  rw [List.filterMap_append]
  simp [hfind, he]

/-! ### Commit -/

theorem lookup_storeAll (authored : List Event) (events : AssocMap EventId Event)
    (hinj : ∀ event ∈ authored, ∀ event' ∈ authored, event.id = event'.id → event = event')
    (id : EventId) :
    (storeAll events authored).lookup id =
      (authored.find? fun event => event.id = id).or (events.lookup id) := by
  induction authored generalizing events with
  | nil => rfl
  | cons event rest ih =>
    have hrest := fun e he e' he' => hinj e (List.mem_cons_of_mem _ he) e' (List.mem_cons_of_mem _ he')
    rw [storeAll, List.foldl_cons, ← storeAll, ih _ hrest, AssocMap.lookup_insert_eq]
    by_cases heq : event.id = id
    · cases hf : rest.find? (fun event => event.id = id) with
      | none => simp [heq]
      | some later =>
        have hl : later.id = id := by simpa using List.find?_some hf
        have := hinj event List.mem_cons_self later
          (List.mem_cons_of_mem _ (List.mem_of_find?_eq_some hf)) (heq.trans hl.symm)
        simp [hl, this]
    · simp [heq, Ne.symm heq]

theorem indexMembers_run (branch : BranchId) (layer : LayerId) (ids : List EventId)
    (h : ∀ id ∈ ids, (store.events.lookup id).isSome) :
    indexMembers branch layer ids store =
      .ok () { store with
        reads := (ids.filterMap store.events.lookup).foldl
          (fun reads event => index reads branch layer event) store.reads } := by
  induction ids generalizing store with
  | nil => rfl
  | cons id rest ih =>
    obtain ⟨event, he⟩ := Option.isSome_iff_exists.1 (h id List.mem_cons_self)
    have hrest := @ih { store with reads := index store.reads branch layer event }
      fun i hi => h i (List.mem_cons_of_mem _ hi)
    have hcons : (id :: rest).filterMap store.events.lookup =
        event :: rest.filterMap store.events.lookup := List.filterMap_cons_some he
    simp only [indexMembers, MemoryStorage.event, he]
    rw [hcons, List.foldl_cons]
    exact hrest

/-- The store once a staged layer has become visible. -/
def landed (store : MemoryStorage) (layer : LayerId) (staged : StagedLayer) : MemoryStorage :=
  { store with
    events := storeAll store.events staged.authored
    members := store.members.insert layer ⟨staged.branch, staged.members⟩
    reads := (store.stagedContents staged).foldl
      (fun reads event => index reads staged.branch layer event) store.reads
    staged := store.staged.erase layer
    defContents := store.defContents.insert layer staged.defs }

section Commit

variable (h : store.Sound) (hs : store.staged.lookup layer = some staged)
include h hs

theorem lookup_stored (id : EventId) :
    (storeAll store.events staged.authored).lookup id =
      (staged.authored.find? fun event => event.id = id).or (store.events.lookup id) :=
  lookup_storeAll _ _ (fun _ he _ he' => h.authored_inj hs hs he he') id

theorem lookup_stored_of_some {id : EventId} {event : Event} (he : store.events.lookup id = some event) :
    (storeAll store.events staged.authored).lookup id = some event := by
  have hfind : staged.authored.find? (fun event => event.id = id) = none := by
    refine List.find?_eq_none.2 fun event' he' heq => ?_
    have := (h.authored hs he').2.2
    rw [of_decide_eq_true heq, he] at this
    cases this
  rw [lookup_stored h hs, hfind, Option.none_or, he]

theorem stagedContents_eq :
    store.stagedContents staged =
      staged.members.filterMap (storeAll store.events staged.authored).lookup :=
  List.filterMap_congr fun id _ => (lookup_stored h hs id).symm

theorem members_stored {id : EventId} (hid : id ∈ staged.members) :
    ((storeAll store.events staged.authored).lookup id).isSome := by
  rw [lookup_stored h hs]
  rcases h.staged_members hs hid with ⟨event, he, heq⟩ | hst
  · have : (staged.authored.find? fun event => event.id = id).isSome :=
      List.find?_isSome.2 ⟨event, he, by simpa using heq⟩
    obtain ⟨found, hf⟩ := Option.isSome_iff_exists.1 this
    simp [hf]
  · cases staged.authored.find? fun event => event.id = id <;> simp [hst]

theorem commitLayer_run (hsealed : staged.isSealed = true) :
    commitLayer layer store = .ok () (store.landed layer staged) := by
  have hindex := @indexMembers_run { store with
    staged := store.staged.erase layer
    events := storeAll store.events staged.authored } staged.branch layer staged.members
    fun _ hid => members_stored h hs hid
  simp only [commitLayer, hs, hsealed, Bool.true_eq_false, if_false]
  rw [hindex]
  simp only [landed, stagedContents_eq h hs]

/-- **A commit gives the layer its contents and leaves the others' alone.** -/
theorem contents_landed (layer' : LayerId) :
    (store.landed layer staged).contents layer' =
      if layer' = layer then store.stagedContents staged else store.contents layer' := by
  unfold contents readMembership landed
  simp only [AssocMap.lookup_insert_eq]
  by_cases hl : layer' = layer
  · simp only [hl, if_true]
    exact (stagedContents_eq h hs).symm
  · simp only [hl, if_false]
    rcases hm : store.members.lookup layer' with _ | membership
    · rfl
    · refine List.filterMap_congr fun id hid => ?_
      obtain ⟨event, he⟩ := Option.isSome_iff_exists.1 (h.stored hm hid)
      rw [he]
      exact lookup_stored_of_some h hs he

theorem recordAt_landed (branch : BranchId) (cell : CellRef) (version : DefVersion)
    (layer' : LayerId) :
    (store.landed layer staged).recordAt branch cell version layer' =
      if layer' = layer then
        if staged.branch = branch then lastOf cell version (store.stagedContents staged) else none
      else store.recordAt branch cell version layer' := by
  unfold recordAt
  rw [contents_landed h hs]
  simp only [landed, AssocMap.lookup_insert_eq]
  by_cases hl : layer' = layer <;> simp only [hl, if_true, if_false]

theorem stagedContents_landed {layer' : LayerId} {staged' : StagedLayer}
    (hs' : store.staged.lookup layer' = some staged') :
    (store.landed layer staged).stagedContents staged' = store.stagedContents staged' := by
  refine List.filterMap_congr fun id hid => ?_
  rcases h.staged_members hs' hid with ⟨event, he, heq⟩ | hst
  · have : (staged'.authored.find? fun event => event.id = id).isSome :=
      List.find?_isSome.2 ⟨event, he, by simpa using heq⟩
    obtain ⟨found, hf⟩ := Option.isSome_iff_exists.1 this
    simp [hf]
  · obtain ⟨event, he⟩ := Option.isSome_iff_exists.1 hst
    simp only [landed]
    rw [lookup_stored_of_some h hs he, he]

theorem Sound.landed : (store.landed layer staged).Sound where
  event_id {id event} he := by
    simp only [MemoryStorage.landed] at he ⊢
    rw [lookup_stored h hs] at he
    cases hf : staged.authored.find? (fun event => event.id = id) with
    | none =>
      rw [hf, Option.none_or] at he
      exact h.event_id he
    | some found =>
      rw [hf, Option.some_or] at he
      cases he
      have hid : event.id = id := by simpa using List.find?_some hf
      exact ⟨hid, hid ▸ (h.authored hs (List.mem_of_find?_eq_some hf)).2.1⟩
  authored {l st event} hl he := by
    simp only [MemoryStorage.landed, AssocMap.lookup_erase_eq] at hl ⊢
    split at hl
    · cases hl
    · obtain ⟨h₁, h₂, h₃⟩ := h.authored hl he
      refine ⟨h₁, h₂, ?_⟩
      have hfind : staged.authored.find? (fun event' => event'.id = event.id) = none := by
        refine List.find?_eq_none.2 fun event' he' heq => ?_
        have := h.authored_inj hs hl he' he (by simpa using heq)
        subst this
        exact absurd (h₁.symm.trans (h.authored hs he').1) (by assumption)
      rw [lookup_stored h hs, hfind, Option.none_or, h₃]
  authored_inj {l st l' st' event event'} hl hl' he he' heq := by
    simp only [MemoryStorage.landed, AssocMap.lookup_erase_eq] at hl hl'
    split at hl <;> split at hl'
    · cases hl
    · cases hl
    · cases hl'
    · exact h.authored_inj hl hl' he he' heq
  staged_members {l st id} hl hid := by
    simp only [MemoryStorage.landed, AssocMap.lookup_erase_eq] at hl ⊢
    split at hl
    · cases hl
    · rcases h.staged_members hl hid with hin | hst
      · exact Or.inl hin
      · obtain ⟨event, he⟩ := Option.isSome_iff_exists.1 hst
        exact Or.inr (by rw [lookup_stored_of_some h hs he]; rfl)
  stored {l m id} hm hid := by
    simp only [MemoryStorage.landed, AssocMap.lookup_insert_eq] at hm ⊢
    split at hm
    · cases hm
      exact members_stored h hs hid
    · obtain ⟨event, he⟩ := Option.isSome_iff_exists.1 (h.stored hm hid)
      rw [lookup_stored_of_some h hs he]
      rfl
  apart {l st} hl := by
    simp only [MemoryStorage.landed, AssocMap.lookup_erase_eq, AssocMap.lookup_insert_eq] at hl ⊢
    split at hl
    · cases hl
    · rw [if_neg (by assumption)]
      exact h.apart hl
  indexed branch cell version l id := by
    have hnew : ∀ cell version, ∀ entry ∈ store.reads.getD (staged.branch, cell, version) [],
        entry.1 ≠ layer := by
      rintro cell version ⟨l', id'⟩ he rfl
      have := (h.indexed staged.branch cell version l' id').1 he
      simp [recordAt, h.apart hs] at this
    have hold := h.indexed branch cell version l id
    rw [recordAt_landed h hs]
    simp only [MemoryStorage.landed]
    rw [getD_foldl_index hnew, List.mem_append, hold]
    have hnone : ∀ b, store.recordAt b cell version layer = none := fun b => by
      simp [recordAt, h.apart hs]
    by_cases hl : l = layer
    · subst hl
      by_cases hb : branch = staged.branch
      · subst hb
        simp only [hnone, if_true, Option.map_none, reduceCtorEq, false_or, Option.mem_toList,
          Option.map_eq_some_iff, Prod.mk.injEq, true_and]
      · simp [hnone, hb, Ne.symm hb]
    · by_cases hb : branch = staged.branch
      · simp [hl, hb]
        intro x _ hx
        exact absurd hx.symm hl
      · simp [hl, hb]

end Commit

end MemoryStorage

end BorgCore
