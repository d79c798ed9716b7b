import BorgCore.Lib.Timeline
import BorgCore.Storage.Memory

/-!
# What the store keeps true

The read index is a projection of layer membership: `Sound` says that it answers exactly what the
members of the committed layers say, that every member is a stored event, and that the events of an
open layer are new.  Under it a read never meets a corrupt log, and is the latest entry of a timeline.
-/

namespace BorgCore

/-! ### The last record of a layer -/

/-- The last event of a list that is a version of the given record. -/
def lastOf (cell : CellRef) (version : DefVersion) : List Event → Option Event
  | [] => none
  | event :: rest =>
    (lastOf cell version rest).or (if event.at = ⟨cell, version⟩ then some event else none)

theorem lastOf_mem {cell : CellRef} {version : DefVersion} {events : List Event} {event : Event}
    (h : lastOf cell version events = some event) :
    event ∈ events ∧ event.at = ⟨cell, version⟩ := by
  induction events with
  | nil => cases h
  | cons head rest ih =>
    rw [lastOf] at h
    rcases hr : lastOf cell version rest with _ | later
    · rw [hr, Option.none_or] at h
      split at h
      · cases h
        exact ⟨List.mem_cons_self, by assumption⟩
      · cases h
    · rw [hr, Option.some_or] at h
      cases h
      exact ⟨List.mem_cons_of_mem _ (ih hr).1, (ih hr).2⟩

theorem lastOf_isSome {cell : CellRef} {version : DefVersion} {events : List Event} {event : Event}
    (hm : event ∈ events) (hat : event.at = ⟨cell, version⟩) :
    (lastOf cell version events).isSome := by
  induction events with
  | nil => cases hm
  | cons head rest ih =>
    rw [lastOf]
    rcases List.mem_cons.1 hm with rfl | hm
    · rw [if_pos hat]
      cases lastOf cell version rest <;> rfl
    · obtain ⟨later, hl⟩ := Option.isSome_iff_exists.1 (ih hm)
      rw [hl]
      rfl

theorem lastOf_append (cell : CellRef) (version : DefVersion) (xs ys : List Event) :
    lastOf cell version (xs ++ ys) = (lastOf cell version ys).or (lastOf cell version xs) := by
  induction xs with
  | nil => simp [lastOf]
  | cons x xs ih =>
    rw [List.cons_append, lastOf, lastOf, ih]
    cases lastOf cell version ys <;> rfl

/-! ### Histories -/

namespace History

theorem place_of_notMem {history : History} {layer : LayerId} {event : EventId}
    (h : ∀ entry ∈ history, entry.1 ≠ layer) : history.place layer event = history ++ [(layer, event)] := by
  induction history with
  | nil => rfl
  | cons entry rest ih =>
    rw [place, if_neg (h entry List.mem_cons_self), ih fun e he => h e (List.mem_cons_of_mem _ he)]
    rfl

theorem place_last {history : History} {layer : LayerId} {event event' : EventId}
    (h : ∀ entry ∈ history, entry.1 ≠ layer) :
    History.place (history ++ [(layer, event)]) layer event' = history ++ [(layer, event')] := by
  induction history with
  | nil => simp [place]
  | cons entry rest ih =>
    rw [List.cons_append, place, if_neg (h entry List.mem_cons_self),
      ih fun e he => h e (List.mem_cons_of_mem _ he)]
    rfl

end History

/-- Indexing the events of a layer that is not in the index appends one landing for each record the
layer holds, the last one. -/
theorem getD_foldl_index {reads : ReadIndex} {branch : BranchId} {layer : LayerId}
    (hnew : ∀ cell version, ∀ entry ∈ reads.getD (branch, cell, version) [], entry.1 ≠ layer)
    (events : List Event) (key : BranchId × CellRef × DefVersion) :
    AssocMap.getD (events.foldl (fun reads event => index reads branch layer event) reads) key [] =
      reads.getD key [] ++
        if key.1 = branch then
          ((lastOf key.2.1 key.2.2 events).map fun event => (layer, event.id)).toList
        else [] := by
  -- From the right: the last event either replaces the landing the others made, or makes one.
  induction events using List.reverseRecOn with
  | nil => simp [lastOf]
  | append_singleton events event ih =>
    rw [List.foldl_append, List.foldl_cons, List.foldl_nil]
    obtain ⟨b, cell, version⟩ := key
    rw [index, AssocMap.getD_insert, lastOf_append]
    by_cases hkey : (b, cell, version) = (branch, event.cell, event.version)
    · obtain ⟨rfl, rfl, rfl⟩ : b = branch ∧ cell = event.cell ∧ version = event.version := by
        simpa using hkey
      rw [if_pos rfl, ih]
      simp only [if_true, lastOf, Event.at, Option.none_or, Option.some_or, Option.map_some,
        Option.toList_some]
      rcases lastOf event.cell event.version events with _ | earlier
      · simpa using History.place_of_notMem (hnew event.cell event.version)
      · simpa using History.place_last (hnew event.cell event.version)
    · rw [if_neg hkey, ih]
      by_cases hb : b = branch
      · have hne : ¬ event.at = ⟨cell, version⟩ := by
          intro he
          have hc : event.cell = cell := congrArg CellAt.cell he
          have hv : event.version = version := congrArg CellAt.version he
          exact hkey (by rw [hb, hc, hv])
        simp [lastOf, hne, hb]
      · simp [hb]

theorem newestAt_eq_latest {history : History} {entries : LayerId → Option EventId}
    (h : ∀ layer event, (layer, event) ∈ history ↔ entries layer = some event) (bound : LayerId) :
    newestAt history bound = Timeline.latest entries bound := by
  rcases hm : newestAt history bound with _ | ⟨i, e⟩ <;> unfold newestAt at hm
  · have hnil := List.reverse_eq_nil_iff.1 (List.argmax_eq_none.1 hm)
    refine (Timeline.latest_eq_none_iff.2 fun j hj => ?_).symm
    rcases hj' : entries j with _ | event
    · rfl
    · have hmem : (j, event) ∈ history.filter fun entry => entry.1 ≤ bound :=
        List.mem_filter.2 ⟨(h j event).2 hj', by simpa using hj⟩
      rw [hnil] at hmem
      cases hmem
  · have hin := List.mem_filter.1 (List.mem_reverse.1 (List.argmax_mem hm))
    refine (Timeline.latest_eq_some_iff.2 ⟨by simpa using hin.2, (h i e).1 hin.1, ?_⟩).symm
    intro j hij hj
    rcases hj' : entries j with _ | event
    · rfl
    · have hmem : (j, event) ∈ (history.filter fun entry => entry.1 ≤ bound).reverse :=
        List.mem_reverse.2 (List.mem_filter.2 ⟨(h j event).2 hj', by simpa using hj⟩)
      exact absurd (List.le_of_mem_argmax hmem hm) (Nat.not_le.2 hij)

namespace MemoryStorage

/-! ### Contents -/

def contents (store : MemoryStorage) (layer : LayerId) : List Event :=
  (store.readMembership layer).filterMap store.events.lookup

/-- The events a staged layer would hold if it were committed now. -/
def stagedContents (store : MemoryStorage) (staged : StagedLayer) : List Event :=
  staged.members.filterMap fun id =>
    (staged.authored.find? fun event => event.id = id).or (store.events.lookup id)

/-- The record of a cell at a version that a committed layer of a branch holds. -/
def recordAt (store : MemoryStorage) (branch : BranchId) (cell : CellRef) (version : DefVersion)
    (layer : LayerId) : Option Event :=
  match store.members.lookup layer with
  | some membership =>
    if membership.branch = branch then lastOf cell version (store.contents layer) else none
  | none => none

structure Sound (store : MemoryStorage) : Prop where
  event_id : ∀ {id event}, store.events.lookup id = some event →
    event.id = id ∧ id ≤ store.nextEvent
  /-- An open layer's own events are new. -/
  authored : ∀ {layer staged event}, store.staged.lookup layer = some staged →
    event ∈ staged.authored →
    event.authored = layer ∧ event.id ≤ store.nextEvent ∧ store.events.lookup event.id = none
  /-- No two events of open layers share an identity. -/
  authored_inj : ∀ {layer staged layer' staged' event event'},
    store.staged.lookup layer = some staged → store.staged.lookup layer' = some staged' →
    event ∈ staged.authored → event' ∈ staged'.authored → event.id = event'.id → event = event'
  staged_members : ∀ {layer staged id}, store.staged.lookup layer = some staged →
    id ∈ staged.members →
    (∃ event ∈ staged.authored, event.id = id) ∨ (store.events.lookup id).isSome
  stored : ∀ {layer membership id}, store.members.lookup layer = some membership →
    id ∈ membership.events → (store.events.lookup id).isSome
  apart : ∀ {layer staged}, store.staged.lookup layer = some staged →
    store.members.lookup layer = none
  /-- **The read index is a projection of membership.** -/
  indexed : ∀ branch cell version layer id,
    (layer, id) ∈ store.reads.getD (branch, cell, version) [] ↔
      (store.recordAt branch cell version layer).map Event.id = some id

theorem sound_new : new.Sound where
  event_id h := by simp [new] at h
  authored h := by simp [new] at h
  authored_inj h := by simp [new] at h
  staged_members h := by simp [new] at h
  stored h := by simp [new] at h
  apart h := by simp [new] at h
  indexed branch cell version layer id := by simp [new, recordAt]

variable {store : MemoryStorage}

theorem Sound.congr {store' : MemoryStorage} (h : store.Sound) (he : store'.events = store.events)
    (hm : store'.members = store.members) (hr : store'.reads = store.reads)
    (hs : store'.staged = store.staged) (hn : store'.nextEvent = store.nextEvent) : store'.Sound := by
  obtain ⟨events, members, reads, staged, defContents, layerMeta, branches, nextEvent⟩ := store'
  simp only at he hm hr hs hn
  subst he hm hr hs hn
  exact ⟨h.event_id, h.authored, h.authored_inj, h.staged_members, h.stored, h.apart, h.indexed⟩

/-! ### Reading -/

theorem mapM_event {ids : List EventId} (h : ∀ id ∈ ids, (store.events.lookup id).isSome) :
    ids.mapM store.event = .ok (ids.filterMap store.events.lookup) := by
  induction ids with
  | nil => rfl
  | cons id rest ih =>
    obtain ⟨event, he⟩ := Option.isSome_iff_exists.1 (h id List.mem_cons_self)
    rw [List.mapM_cons, ih fun i hi => h i (List.mem_cons_of_mem _ hi)]
    simp [MemoryStorage.event, he, bind, Except.bind, pure, Except.pure]

theorem Sound.readLayer (h : store.Sound) (layer : LayerId) :
    store.readLayer layer = .ok (store.contents layer) := by
  refine mapM_event fun id hid => ?_
  unfold readMembership at hid
  split at hid
  · exact h.stored (by assumption) hid
  · cases hid

theorem Sound.readMembership_eq (h : store.Sound) (layer : LayerId) :
    store.readMembership layer = (store.contents layer).map Event.id := by
  have hids {ids : List EventId} (hall : ∀ id ∈ ids, (store.events.lookup id).isSome) :
      ids = (ids.filterMap store.events.lookup).map Event.id := by
    induction ids with
    | nil => rfl
    | cons id rest ih =>
      obtain ⟨event, he⟩ := Option.isSome_iff_exists.1 (hall id List.mem_cons_self)
      simp only [List.filterMap_cons, he, List.map_cons, (h.event_id he).1]
      rw [← ih fun i hi => hall i (List.mem_cons_of_mem _ hi)]
  refine hids fun id hid => ?_
  unfold readMembership at hid
  split at hid
  · exact h.stored (by assumption) hid
  · cases hid

theorem recordAt_mem {branch : BranchId} {cell : CellRef} {version : DefVersion} {layer : LayerId}
    {event : Event} (h : store.recordAt branch cell version layer = some event) :
    event ∈ store.contents layer ∧ event.at = ⟨cell, version⟩ := by
  unfold recordAt at h
  split at h
  · split at h
    · exact lastOf_mem h
    · cases h
  · cases h

theorem lookup_of_mem_contents (h : store.Sound) {layer : LayerId} {event : Event}
    (hm : event ∈ store.contents layer) : store.events.lookup event.id = some event := by
  obtain ⟨id, _, he⟩ := List.mem_filterMap.1 hm
  rw [(h.event_id he).1, he]

theorem latest_map {α β : Type} (f : α → β) (entries : Nat → Option α) (n : Nat) :
    Timeline.latest (fun i => (entries i).map f) n =
      (Timeline.latest entries n).map fun entry => (entry.1, f entry.2) := by
  induction n with
  | zero => cases h : entries 0 <;> simp [Timeline.latest, h]
  | succ n ih => cases h : entries (n + 1) <;> simp [Timeline.latest, h, ih]

theorem Sound.newestOn (h : store.Sound) (branch : BranchId) (bound : LayerId) (cell : CellRef)
    (version : DefVersion) :
    store.newestOn branch bound cell version =
      (Timeline.latest (store.recordAt branch cell version) bound).map fun entry =>
        (entry.1, entry.2.id) := by
  rw [MemoryStorage.newestOn, newestAt_eq_latest (h.indexed branch cell version), latest_map]

/-- **A read is the latest record of the first segment that holds one**; it never meets a corrupt
log. -/
theorem Sound.getCell (h : store.Sound) (path : ReadPath) (cell : CellRef) (version : DefVersion) :
    store.getCell path cell version =
      .ok ((Timeline.nearest (store.recordAt · cell version) path.segments).map fun entry =>
        ⟨entry.2, entry.1⟩) := by
  unfold MemoryStorage.getCell Timeline.nearest
  induction path.segments with
  | nil => rfl
  | cons segment outer ih =>
    obtain ⟨branch, bound⟩ := segment
    rw [getCellFrom, h.newestOn, Timeline.firstOf, ih]
    rcases hl : Timeline.latest (store.recordAt branch cell version) bound with _ | ⟨i, event⟩
    · rfl
    · have hr := (Timeline.latest_eq_some_iff.1 hl).2.1
      have he := lookup_of_mem_contents h (recordAt_mem hr).1
      simp [MemoryStorage.event, he, bind, Except.bind, pure, Except.pure]

end MemoryStorage

end BorgCore
