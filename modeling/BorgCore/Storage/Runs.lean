import BorgCore.Storage.Steps

/-!
# What calls make of a store

Whatever is called on a store, in whatever order and whether it succeeds or not, the store stays sound.
The one thing a caller has to see to is that an event it replays is replayed once.
-/

namespace BorgCore

/-- A call that changes the store. -/
inductive StoreCall where
  | openLayer (branch : BranchId) (layer : LayerId)
  | authorEvent (layer : LayerId) (cell : CellRef) (draft : EventDraft)
  | adoptEvent (layer : LayerId) (event : Event)
  | includeEvent (layer : LayerId) (event : EventId)
  | putDef (layer : LayerId) (event : DefEvent)
  | sealLayer (layer : LayerId)
  | abort (layer : LayerId)
  | putLayerMeta (layer : Layer)
  | putBranch (branch : Branch)
  | commitLayer (layer : LayerId)
  | rebuildReadIndex

namespace MemoryStorage

/-- The store a call leaves behind, whether it succeeded or not. -/
def left {α : Type} : EStateM.Result BorgError MemoryStorage α → MemoryStorage
  | .ok _ store => store
  | .error _ store => store

def call (store : MemoryStorage) : StoreCall → MemoryStorage
  | .openLayer branch layer => left (openLayer branch layer store)
  | .authorEvent layer cell draft => left (authorEvent layer cell draft store)
  | .adoptEvent layer event => left (adoptEvent layer event store)
  | .includeEvent layer event => left (includeEvent layer event store)
  | .putDef layer event => left (putDef layer event store)
  | .sealLayer layer => left (sealLayer layer store)
  | .abort layer => left (abort layer store)
  | .putLayerMeta layer => left (putLayerMeta layer store)
  | .putBranch branch => left (putBranch branch store)
  | .commitLayer layer => left (commitLayer layer store)
  | .rebuildReadIndex => left (rebuildReadIndex store)

/-- No event of this identity is stored or waits in an open layer. -/
def Unheard (store : MemoryStorage) (id : EventId) : Prop :=
  store.events.lookup id = none ∧ ∀ layer staged, store.staged.lookup layer = some staged →
    ∀ event ∈ staged.authored, event.id ≠ id

/-- What a call asks of its caller: an event is replayed under an identity nothing has. -/
def Permits (store : MemoryStorage) : StoreCall → Prop
  | .adoptEvent _ event => store.Unheard event.id
  | _ => True

inductive Reachable : MemoryStorage → Prop
  | new : Reachable .new
  | call {store : MemoryStorage} {made : StoreCall} : Reachable store → store.Permits made →
      Reachable (store.call made)

variable {store : MemoryStorage} {layer : LayerId}

/-! ### The rebuild -/

/-- What indexing layers after one another makes of the read index: each record's history grows by the
layers that hold it, in the order they are gone through. -/
theorem indexLayers_run (h : store.Sound) {layers : List LayerId} (hnodup : layers.Nodup) (reads : ReadIndex)
    (hnew : ∀ branch cell version, ∀ entry ∈ reads.getD (branch, cell, version) [], entry.1 ∉ layers) :
    ∃ reads' : ReadIndex,
      indexLayers layers { store with reads := reads } = .ok () { store with reads := reads' } ∧
      ∀ branch cell version, reads'.getD (branch, cell, version) [] =
        reads.getD (branch, cell, version) [] ++ layers.filterMap fun layer =>
          (store.recordAt branch cell version layer).map fun event => (layer, event.id) := by
  induction layers generalizing reads with
  | nil => exact ⟨reads, rfl, by simp⟩
  | cons head rest ih =>
    obtain ⟨hout, hrest⟩ := List.nodup_cons.1 hnodup
    cases hm : store.members.lookup head with
    | none =>
      obtain ⟨reads', hrun, hgetD⟩ := ih hrest reads fun branch cell version entry he hin =>
        hnew branch cell version entry he (List.mem_cons_of_mem _ hin)
      refine ⟨reads', ?_, fun branch cell version => ?_⟩
      · simp only [indexLayers, hm]
        exact hrun
      · have hnone : store.recordAt branch cell version head = none := by simp [recordAt, hm]
        rw [hgetD, List.filterMap_cons_none (by rw [hnone]; rfl)]
    | some membership =>
      have hindex := @indexMembers_run { store with reads := reads } membership.branch head membership.events
        fun id hid => h.stored hm hid
      have hcontents : membership.events.filterMap store.events.lookup = store.contents head := by
        simp only [contents, readMembership, hm]
      have hrecord (branch : BranchId) (cell : CellRef) (version : DefVersion) :
          store.recordAt branch cell version head =
            if branch = membership.branch then lastOf cell version (store.contents head) else none := by
        simp only [recordAt, hm, eq_comm]
      have hadded (branch : BranchId) (cell : CellRef) (version : DefVersion) :
          AssocMap.getD ((store.contents head).foldl
              (fun reads event => index reads membership.branch head event) reads) (branch, cell, version) [] =
            reads.getD (branch, cell, version) [] ++
              ((store.recordAt branch cell version head).map fun event => (head, event.id)).toList := by
        rw [getD_foldl_index (fun cell version entry he hl =>
          hnew membership.branch cell version entry he (hl ▸ List.mem_cons_self ..)), hrecord]
        split <;> rfl
      obtain ⟨reads', hrun, hgetD⟩ := ih hrest
        ((store.contents head).foldl (fun reads event => index reads membership.branch head event) reads)
        fun branch cell version entry he hin => by
          rw [hadded] at he
          rcases List.mem_append.1 he with he | he
          · exact hnew branch cell version entry he (List.mem_cons_of_mem _ hin)
          · obtain ⟨event, -, rfl⟩ := Option.map_eq_some_iff.1 (Option.mem_toList.1 he)
            exact hout hin
      refine ⟨reads', ?_, fun branch cell version => ?_⟩
      · simp only [indexLayers, hm, hindex]
        rw [hcontents]
        exact hrun
      · rw [hgetD, hadded, List.append_assoc, List.filterMap_cons]
        cases store.recordAt branch cell version head <;> rfl

/-- A rebuild succeeds; what it leaves differs in the read index alone, which is again what the layers
hold. -/
theorem Sound.rebuildReadIndex (h : store.Sound) : ∃ reads : ReadIndex,
    rebuildReadIndex store = .ok () { store with reads := reads } ∧ Sound { store with reads := reads } := by
  have hnodup : (store.members.keys.insertionSort (· ≤ ·)).Nodup :=
    (List.perm_insertionSort _ _).nodup_iff.2 store.members.nodupKeys
  obtain ⟨reads, hrun, hgetD⟩ := indexLayers_run h hnodup ∅ (by simp)
  refine ⟨reads, hrun, ⟨h.event_id, h.authored, h.authored_inj, h.staged_members, h.stored, h.apart, ?_⟩⟩
  intro branch cell version layer id
  show (layer, id) ∈ reads.getD (branch, cell, version) [] ↔
    (store.recordAt branch cell version layer).map Event.id = some id
  rw [hgetD, AssocMap.getD_empty, List.nil_append, List.mem_filterMap]
  constructor
  · rintro ⟨found, -, hr⟩
    obtain ⟨event, hevent, he⟩ := Option.map_eq_some_iff.1 hr
    cases he
    rw [hevent]
    rfl
  · intro hr
    obtain ⟨event, hevent, rfl⟩ := Option.map_eq_some_iff.1 hr
    refine ⟨layer, (List.mem_insertionSort _).2 (AssocMap.mem_keys_iff.2 ?_), by rw [hevent]; rfl⟩
    unfold recordAt at hevent
    split at hevent
    · rename_i membership hm
      exact ⟨membership, hm⟩
    · cases hevent

/-! ### Every call keeps it -/

theorem Sound.raise (h : store.Sound) {next : EventId} (hnext : store.nextEvent ≤ next) :
    Sound { store with nextEvent := next } where
  event_id he := ⟨(h.event_id he).1, (h.event_id he).2.trans hnext⟩
  authored hs he := ⟨(h.authored hs he).1, (h.authored hs he).2.1.trans hnext, (h.authored hs he).2.2⟩
  authored_inj := h.authored_inj
  staged_members := h.staged_members
  stored := h.stored
  apart := h.apart
  indexed := h.indexed

theorem Sound.restage {change : StagedLayer → StagedLayer} (h : store.Sound)
    (hchange : ∀ staged, store.staged.lookup layer = some staged →
      Sound { store with staged := store.staged.insert layer (change staged) }) :
    (left (MemoryStorage.restage layer change store)).Sound := by
  unfold MemoryStorage.restage stagedFor
  cases hs : store.staged.lookup layer with
  | none => exact h
  | some staged =>
    dsimp only
    by_cases ho : staged.isSealed = true
    · rw [if_pos ho]
      exact h
    · rw [if_neg ho]
      exact hchange staged hs

/-- An event that is authored has its identity minted first, even where its layer is not open. -/
theorem left_authorEvent (layer : LayerId) (cell : CellRef) (draft : EventDraft) (store : MemoryStorage) :
    left (authorEvent layer cell draft store) =
      left (MemoryStorage.restage layer (·.author (draft.event (store.nextEvent + 1) cell layer))
        { store with nextEvent := store.nextEvent + 1 }) := by
  simp only [authorEvent, mint, bind, EStateM.bind]
  cases MemoryStorage.restage layer (·.author (draft.event (store.nextEvent + 1) cell layer))
    { store with nextEvent := store.nextEvent + 1 } <;> rfl

theorem Sound.call (h : store.Sound) {made : StoreCall} (hp : store.Permits made) : (store.call made).Sound := by
  cases made with
  | openLayer branch layer =>
    show (left (MemoryStorage.openLayer branch layer store)).Sound
    unfold MemoryStorage.openLayer
    split
    · exact h
    · rename_i hfree
      rw [Bool.or_eq_true, not_or, Bool.not_eq_true, Bool.not_eq_true, Option.isSome_eq_false_iff,
        Option.isSome_eq_false_iff] at hfree
      exact h.openLayer branch (Option.isNone_iff_eq_none.1 hfree.2)
  | authorEvent layer cell draft =>
    show (left (MemoryStorage.authorEvent layer cell draft store)).Sound
    rw [left_authorEvent]
    exact (h.raise (Nat.le_succ _)).restage fun staged hs => h.author cell draft hs
  | adoptEvent layer event =>
    obtain ⟨hnew, hfresh⟩ : store.Unheard event.id := hp
    show (left (MemoryStorage.adoptEvent layer event store)).Sound
    unfold MemoryStorage.adoptEvent
    split
    · exact h
    · rename_i ha
      rw [not_not] at ha
      refine (h.raise (le_max_left _ _)).restage fun staged hs => ?_
      exact h.adopt hs ha (le_max_left _ _) (le_max_right _ _) hnew fun hs' he => hfresh _ _ hs' _ he
  | includeEvent layer event =>
    show (left (MemoryStorage.includeEvent layer event store)).Sound
    unfold MemoryStorage.includeEvent
    split
    · exact h
    · rename_i found he
      refine h.restage fun staged hs => h.insert_same hs rfl fun id hid => ?_
      rcases List.mem_append.1 hid with hid | hid
      · exact Or.inl hid
      · rw [List.mem_singleton.1 hid, he]
        exact Or.inr rfl
  | putDef layer event =>
    exact h.restage fun staged hs => h.insert_same hs rfl fun id hid => Or.inl hid
  | sealLayer layer =>
    show (left (MemoryStorage.sealLayer layer store)).Sound
    unfold MemoryStorage.sealLayer
    split
    · exact h
    · rename_i staged hs
      exact h.insert_same hs rfl fun id hid => Or.inl hid
  | abort layer => exact h.erase_staged
  | putLayerMeta layer => exact h.congr rfl rfl rfl rfl rfl
  | putBranch branch => exact h.congr rfl rfl rfl rfl rfl
  | commitLayer layer =>
    show (left (MemoryStorage.commitLayer layer store)).Sound
    cases hs : store.staged.lookup layer with
    | none =>
      simp only [MemoryStorage.commitLayer, hs]
      exact h
    | some staged =>
      cases hsealed : staged.isSealed with
      | true =>
        rw [commitLayer_run h hs hsealed]
        exact h.landed hs
      | false =>
        simp only [MemoryStorage.commitLayer, hs, hsealed, if_true]
        exact h.erase_staged
  | rebuildReadIndex =>
    obtain ⟨reads, hrun, hsound⟩ := h.rebuildReadIndex
    show (left (MemoryStorage.rebuildReadIndex store)).Sound
    rw [hrun]
    exact hsound

theorem Reachable.sound (h : Reachable store) : store.Sound := by
  induction h with
  | new => exact sound_new
  | call _ hp ih => exact ih.call hp

end MemoryStorage

end BorgCore
