import BorgCore.Storage.Sound
import BorgCore.Storage.Sqlite

/-!
# What the tables keep true

Rows of a layer that is open are in the tables like any others, and the index has theirs too.  So the read
index is a projection of the membership of a layer, whatever its state, and what a read does not see is what
it does not join.  Only where an abort was cut short has the index lost the rows of a layer whose others are
still there, and such a layer never commits.

A membership row names an event that is in the table: one its own layer authored, or one of a layer that has
committed.  That is why an abort can take out what its layer authored.
-/

namespace BorgCore

namespace Database

variable {db db' : Database} {branch : BranchId} {layer other : LayerId} {cell : CellRef} {version : DefVersion}
  {record : CellAt} {event : Event} {id : EventId} {ids : List EventId} {row : PendingRow}
  {segment : BranchId × LayerId} {buffer : BufferId} {seen : List CellRef} {path : ReadPath}

/-- The branch of a layer that has a row. -/
def branchOf (db : Database) (layer : LayerId) : Option BranchId := (db.layers.lookup layer).map LayerRow.branch

/-- The index row of a record is the last member of the landing layer that is a version of it. -/
def Projects (db : Database) (layer : LayerId) : Prop :=
  ∀ key id, key.landed = layer → (db.cellIndex.lookup key = some id ↔
    db.branchOf key.landed = some key.branch ∧
      (lastOf key.record.cell key.record.version (db.readLayer key.landed)).map Event.id = some id)

/-- What an abort that was cut short leaves of a layer: no row of the index, and no hope to commit. -/
structure Stripped (db : Database) (layer : LayerId) : Prop where
  uncommitted : ¬ db.isCommitted layer
  unindexed : ∀ key, key.landed = layer → db.cellIndex.lookup key = none

def Indexed (db : Database) : Prop := ∀ layer, db.Projects layer ∨ db.Stripped layer

structure Sound (db : Database) : Prop where
  event_id : ∀ {id event}, db.events.lookup id = some event → event.id = id
  rows : ∀ layer, ∃ ids, db.layerEvents.Holds layer ids
  defRows : ∀ layer, ∃ defs, db.defEvents.Holds layer defs
  /-- A membership row is of a layer that has a row, and names an event of its own or a committed one. -/
  named : ∀ {layer i id}, db.layerEvents.lookup (layer, i) = some id → (db.layers.lookup layer).isSome ∧
    ∃ event, db.events.lookup id = some event ∧ (event.authored = layer ∨ db.isCommitted event.authored)
  defined : ∀ {layer i event}, db.defEvents.lookup (layer, i) = some event → (db.layers.lookup layer).isSome
  indexed : db.Indexed

/-- An event the layer authored is a member of it, once. -/
def Authors (db : Database) (layer : LayerId) : Prop :=
  ∀ ⦃id event⦄, db.events.lookup id = some event → event.authored = layer →
    ∃ i, db.layerEvents.lookup (layer, i) = some id ∧ ∀ j, db.layerEvents.lookup (layer, j) = some id → j = i

/-- What an abort that went further leaves: no members either. -/
structure Emptied (db : Database) (layer : LayerId) : Prop where
  uncommitted : ¬ db.isCommitted layer
  members : db.layerEvents.Holds layer []

def Owned (db : Database) : Prop := ∀ layer, db.Authors layer ∨ db.Emptied layer

theorem sound_empty : empty.Sound where
  event_id h := by simp [empty] at h
  rows layer := ⟨[], by simp [empty]⟩
  defRows layer := ⟨[], by simp [empty]⟩
  named h := by simp [empty] at h
  defined h := by simp [empty] at h
  indexed layer := .inl fun key id _ => by simp [empty, branchOf]

theorem isCommitted_iff : db.isCommitted layer = true ↔
    ∃ row, db.layers.lookup layer = some row ∧ row.state = .committed := by
  unfold isCommitted
  rw [decide_eq_true_iff, Option.map_eq_some_iff]

theorem Sound.projects (h : db.Sound) (hc : db.isCommitted layer) : db.Projects layer :=
  (h.indexed layer).resolve_right fun hs => hs.uncommitted hc

theorem Owned.authors (h : db.Owned) (hc : db.isCommitted layer) : db.Authors layer :=
  (h layer).resolve_right fun hs => hs.uncommitted hc

/-! ### Membership -/

theorem readLayer_eq (h : db.layerEvents.Holds layer ids) : db.readLayer layer = ids.filterMap db.events.lookup := by
  unfold readLayer readMembership
  rw [h.ofGroup]

theorem Sound.mem_events (h : db.Sound) (hrows : db.layerEvents.Holds layer ids) (hid : id ∈ ids) :
    ∃ event, db.events.lookup id = some event := by
  obtain ⟨i, hi⟩ := hrows.mem_iff.1 hid
  obtain ⟨event, he, _⟩ := (h.named hi).2
  exact ⟨event, he⟩

theorem Sound.holds_nil (h : db.Sound) (hl : db.layers.lookup layer = none) : db.layerEvents.Holds layer [] := by
  intro i
  rw [List.getElem?_nil]
  cases hi : db.layerEvents.lookup (layer, i) with
  | none => rfl
  | some id => exact absurd (h.named hi).1 (by simp [hl])

theorem Sound.defRows_nil (h : db.Sound) (hl : db.layers.lookup layer = none) : db.defEvents.Holds layer [] := by
  intro i
  rw [List.getElem?_nil]
  cases hi : db.defEvents.lookup (layer, i) with
  | none => rfl
  | some event => exact absurd (h.defined hi) (by simp [hl])

theorem readLayer_congr (hrows : db.layerEvents.Holds layer ids) (hrows' : db'.layerEvents.Holds layer ids)
    (he : ∀ id ∈ ids, db'.events.lookup id = db.events.lookup id) : db'.readLayer layer = db.readLayer layer := by
  rw [readLayer_eq hrows, readLayer_eq hrows']
  exact List.filterMap_congr he

theorem Projects.congr (h : db.Projects layer)
    (hi : ∀ key, key.landed = layer → db'.cellIndex.lookup key = db.cellIndex.lookup key)
    (hb : db'.branchOf layer = db.branchOf layer) (hr : db'.readLayer layer = db.readLayer layer) :
    db'.Projects layer := by
  intro key id hkey
  rw [hi key hkey, h key id hkey, hkey, hb, hr]

theorem Authors.congr (h : db.Authors layer)
    (he : ∀ {id event}, db'.events.lookup id = some event → event.authored = layer →
      db.events.lookup id = some event)
    (hm : ∀ i, db'.layerEvents.lookup (layer, i) = db.layerEvents.lookup (layer, i)) : db'.Authors layer := by
  intro id event hl howner
  simp only [hm]
  exact h (he hl howner) howner

theorem Stripped.congr (h : db.Stripped layer) (hc : db'.isCommitted layer → db.isCommitted layer)
    (hi : ∀ key, key.landed = layer → db'.cellIndex.lookup key = db.cellIndex.lookup key) : db'.Stripped layer :=
  ⟨fun hcommitted => h.uncommitted (hc hcommitted), fun key hkey => (hi key hkey).trans (h.unindexed key hkey)⟩

theorem Emptied.congr (h : db.Emptied layer) (hc : db'.isCommitted layer → db.isCommitted layer)
    (hm : db'.layerEvents.Holds layer []) : db'.Emptied layer :=
  ⟨fun hcommitted => h.uncommitted (hc hcommitted), hm⟩

theorem Owned.congr (h : db.Owned) (he : db'.events = db.events) (hm : db'.layerEvents = db.layerEvents)
    (hu : ∀ layer, db'.isCommitted layer → db.Authors layer) : db'.Owned := by
  intro layer
  have hkept (ha : db.Authors layer) : db'.Authors layer := ha.congr (fun hl _ => he ▸ hl) fun i => by rw [hm]
  rcases h layer with ha | hs
  · exact .inl (hkept ha)
  · by_cases hc : db'.isCommitted layer = true
    · exact .inl (hkept (hu layer hc))
    · exact .inr ⟨hc, hm ▸ hs.members⟩

theorem Sound.congr (h : db.Sound) (he : db'.events = db.events) (hm : db'.layerEvents = db.layerEvents)
    (hi : db'.cellIndex = db.cellIndex) (hd : db'.defEvents = db.defEvents)
    (hb : ∀ layer, db'.branchOf layer = db.branchOf layer)
    (hc : ∀ layer, db.isCommitted layer → db'.isCommitted layer)
    (hu : ∀ layer, db'.isCommitted layer → db.Projects layer) : db'.Sound := by
  have hlayers (layer : LayerId) : (db'.layers.lookup layer).isSome = (db.layers.lookup layer).isSome := by
    have := congrArg Option.isSome (hb layer)
    simpa [branchOf] using this
  have hread (layer : LayerId) : db'.readLayer layer = db.readLayer layer := by
    unfold readLayer readMembership
    rw [he, hm]
  refine ⟨fun hl => h.event_id (he ▸ hl), fun layer => by rw [hm]; exact h.rows layer,
    fun layer => by rw [hd]; exact h.defRows layer, fun {layer i id} hl => ?_, fun {layer i event} hl => ?_,
    fun layer => ?_⟩
  · rw [hm] at hl
    obtain ⟨hrow, event, hevent, howner⟩ := h.named hl
    rw [hlayers, he]
    exact ⟨hrow, event, hevent, howner.imp_right (hc _)⟩
  · rw [hd] at hl
    rw [hlayers]
    exact h.defined hl
  · have hkept (hp : db.Projects layer) : db'.Projects layer := hp.congr (fun _ _ => by rw [hi])
      (hb layer) (hread layer)
    rcases h.indexed layer with hp | hs
    · exact .inl (hkept hp)
    · by_cases hcommitted : db'.isCommitted layer = true
      · exact .inl (hkept (hu layer hcommitted))
      · exact .inr ⟨hcommitted, fun key hkey => by rw [hi]; exact hs.unindexed key hkey⟩

/-! ### Writing a row -/

/-- What is written when a row is: its event where that is new, the membership and the index row. -/
def withRow (db : Database) (branch : BranchId) (layer : LayerId) (row : PendingRow) (event : Event) : Database :=
  { db with
    events := adding db.events row
    layerEvents := db.layerEvents.insert (layer, row.seq) row.event
    cellIndex := db.cellIndex.insert ⟨branch, event.at, layer⟩ row.event }

/-- The event a row is about: its own, which is new, or one that is in the table. -/
def Bears (db : Database) (row : PendingRow) (event : Event) : Prop :=
  event.id = row.event ∧
    (row.authored = some event ∧ db.events.lookup row.event = none ∨
      row.authored = none ∧ db.events.lookup row.event = some event)

theorem Bears.lookup (h : db.Bears row event) (id : EventId) :
    (adding db.events row).lookup id = if id = row.event then some event else db.events.lookup id := by
  obtain ⟨hid, ⟨hown, -⟩ | ⟨hown, hold⟩⟩ := h
  · rw [adding, hown, ← hid]
    exact AssocMap.lookup_insert_eq ..
  · have hsame : adding db.events row = db.events := by rw [adding, hown]
    rw [hsame]
    by_cases hkey : id = row.event
    · rw [if_pos hkey, hkey, hold]
    · rw [if_neg hkey]

theorem Bears.lookup_of_some (h : db.Bears row event) {found : Event} (hl : db.events.lookup id = some found) :
    (adding db.events row).lookup id = some found := by
  rw [h.lookup]
  split
  · subst id
    obtain ⟨-, ⟨-, hnew⟩ | ⟨-, hold⟩⟩ := h
    · rw [hnew] at hl
      cases hl
    · exact hold.symm.trans hl
  · exact hl

theorem insertRow_run (hrows : db.layerEvents.Holds layer ids) (hseq : row.seq = ids.length)
    (hb : db.Bears row event) :
    insertRow branch layer db row = .ok (db.withRow branch layer row event) := by
  have hfree : (db.layerEvents.lookup (layer, row.seq)).isSome = false := by
    rw [hseq, hrows.lookup_length]
    rfl
  have hnew : (row.authored.any fun event => (db.events.lookup event.id).isSome) = false := by
    obtain ⟨hid, ⟨hown, hnew⟩ | ⟨hown, -⟩⟩ := hb
    · rw [hown, Option.any_some, hid, hnew]
      rfl
    · rw [hown, Option.any_none]
  have hfound : (adding db.events row).lookup row.event = some event := by rw [hb.lookup, if_pos rfl]
  simp only [insertRow, hnew, hfree, hfound, Bool.false_eq_true, if_false]
  rfl

theorem holds_withRow (hrows : db.layerEvents.Holds layer ids) (hseq : row.seq = ids.length) :
    (db.withRow branch layer row event).layerEvents.Holds layer (ids ++ [row.event]) := by
  show Rows.Holds (db.layerEvents.insert (layer, row.seq) row.event) layer _
  rw [hseq]
  exact hrows.insert row.event

/-- A row adds its event to its layer and leaves every other layer as it was. -/
theorem Sound.readLayer_withRow (h : db.Sound) (hrows : db.layerEvents.Holds layer ids)
    (hseq : row.seq = ids.length) (hb : db.Bears row event) (other : LayerId) :
    (db.withRow branch layer row event).readLayer other =
      if other = layer then db.readLayer layer ++ [event] else db.readLayer other := by
  have hkeep {members : List EventId} (hm : db.layerEvents.Holds other members) :
      members.filterMap (adding db.events row).lookup = members.filterMap db.events.lookup := by
    refine List.filterMap_congr fun id hid => ?_
    obtain ⟨found, hfound⟩ := h.mem_events hm hid
    rw [hb.lookup_of_some hfound, hfound]
  by_cases ho : other = layer
  · subst ho
    have hlast : (adding db.events row).lookup row.event = some event := by rw [hb.lookup, if_pos rfl]
    rw [if_pos rfl, readLayer_eq (holds_withRow hrows hseq), readLayer_eq hrows, List.filterMap_append]
    show ids.filterMap (adding db.events row).lookup ++ [row.event].filterMap (adding db.events row).lookup = _
    rw [hkeep hrows]
    simp only [List.filterMap_cons, List.filterMap_nil, hlast]
  · obtain ⟨members, hm⟩ := h.rows other
    have hm' : (db.withRow branch layer row event).layerEvents.Holds other members := hm.insert_other ho _ _
    rw [if_neg ho, readLayer_eq hm', readLayer_eq hm]
    exact hkeep hm

theorem Projects.withRow (hp : db.Projects other) (h : db.Sound) (hl : db.branchOf layer = some branch)
    (hrows : db.layerEvents.Holds layer ids) (hseq : row.seq = ids.length) (hb : db.Bears row event) :
    (db.withRow branch layer row event).Projects other := by
  intro key id hother
  have hkey : (AList.insert ⟨branch, event.at, layer⟩ row.event db.cellIndex).lookup key =
      if key = ⟨branch, event.at, layer⟩ then some row.event else db.cellIndex.lookup key :=
    AssocMap.lookup_insert_eq ..
  have hindexed := hp key id hother
  show AList.lookup key (AList.insert ⟨branch, event.at, layer⟩ row.event db.cellIndex) = some id ↔
    db.branchOf key.landed = some key.branch ∧ _
  rw [hkey, h.readLayer_withRow hrows hseq hb]
  by_cases hlanded : key.landed = layer
  · rw [if_pos hlanded, lastOf_append, lastOf, lastOf, Option.none_or, hlanded, hl]
    rw [hlanded, hl] at hindexed
    by_cases hat : event.at = key.record
    · rw [if_pos hat, Option.some_or, Option.map_some, hb.1]
      by_cases hbranch : branch = key.branch
      · rw [if_pos (by rw [hat, hbranch, ← hlanded]), hbranch]
        simp
      · rw [if_neg fun he => hbranch (by rw [he]), hindexed]
        simp [hbranch]
    · rw [if_neg hat, Option.none_or, if_neg fun he => hat (by rw [he]), hindexed]
  · rw [if_neg hlanded, if_neg fun he => hlanded (by rw [he]), hindexed]

theorem Stripped.withRow (hs : db.Stripped other) (hne : other ≠ layer) (branch : BranchId) (row : PendingRow)
    (event : Event) : (db.withRow branch layer row event).Stripped other := by
  refine hs.congr id fun key hkey => (AssocMap.lookup_insert_eq ..).trans (if_neg ?_)
  rintro rfl
  exact hne hkey.symm

theorem Sound.withRow (h : db.Sound) (hp : db.Projects layer) (hl : db.branchOf layer = some branch)
    (hrows : db.layerEvents.Holds layer ids) (hseq : row.seq = ids.length) (hb : db.Bears row event)
    (howner : event.authored = layer ∨ db.isCommitted event.authored) : (db.withRow branch layer row event).Sound where
  event_id {id found} hf := by
    change AList.lookup id (adding db.events row) = some found at hf
    rw [hb.lookup] at hf
    split at hf
    · cases hf
      subst id
      exact hb.1
    · exact h.event_id hf
  rows other := by
    by_cases ho : other = layer
    · subst ho
      exact ⟨_, holds_withRow hrows hseq⟩
    · obtain ⟨members, hm⟩ := h.rows other
      exact ⟨members, hm.insert_other ho _ _⟩
  defRows := h.defRows
  named {other i id} hm := by
    change AList.lookup (other, i) (AList.insert (layer, row.seq) row.event db.layerEvents) = some id at hm
    rw [AssocMap.lookup_insert_eq] at hm
    split at hm
    · rename_i hkey
      obtain ⟨rfl, rfl⟩ := Prod.mk.inj hkey
      obtain rfl := Option.some.inj hm
      refine ⟨?_, event, ?_, howner⟩
      · exact Option.isSome_iff_exists.2 (Option.map_eq_some_iff.1 hl |>.imp fun _ hr => hr.1)
      · show (adding db.events row).lookup row.event = some event
        rw [hb.lookup, if_pos rfl]
    · obtain ⟨hrow, found, hfound, hown⟩ := h.named hm
      exact ⟨hrow, found, hb.lookup_of_some hfound, hown⟩
  defined := h.defined
  indexed other := by
    by_cases ho : other = layer
    · exact .inl (ho ▸ hp.withRow h hl hrows hseq hb)
    · exact (h.indexed other).imp (·.withRow h hl hrows hseq hb) (·.withRow ho branch row event)

theorem Authors.withRow (h : db.Authors other) (hs : db.Sound) (hrows : db.layerEvents.Holds layer ids)
    (hseq : row.seq = ids.length) (hb : db.Bears row event)
    (hown : row.authored = some event → event.authored = layer)
    (hnamed : row.authored = none → event.authored ≠ layer) :
    (db.withRow branch layer row event).Authors other := by
  intro id found hf hauthor
  change AList.lookup id (adding db.events row) = some found at hf
  have hlookup (key : LayerId × Nat) : (db.withRow branch layer row event).layerEvents.lookup key =
      if key = (layer, row.seq) then some row.event else db.layerEvents.lookup key := AssocMap.lookup_insert_eq ..
  have hfree : db.layerEvents.lookup (layer, row.seq) = none := hseq ▸ hrows.lookup_length
  by_cases hnew : db.events.lookup id = none
  · -- The event the row brings along: nothing names it yet.
    rw [hb.lookup, hnew] at hf
    split at hf
    · obtain rfl := Option.some.inj hf
      subst id
      obtain ⟨-, ⟨hauthored, -⟩ | ⟨-, hold⟩⟩ := hb
      · obtain rfl : layer = other := (hown hauthored).symm.trans hauthor
        refine ⟨row.seq, by rw [hlookup, if_pos rfl], fun j hj => ?_⟩
        rw [hlookup] at hj
        split at hj
        · rename_i heq
          exact congrArg Prod.snd heq
        · obtain ⟨-, other, ho, -⟩ := hs.named hj
          rw [hnew] at ho
          cases ho
      · rw [hnew] at hold
        cases hold
    · cases hf
  · obtain ⟨old, hold⟩ := Option.ne_none_iff_exists'.1 hnew
    obtain rfl := Option.some.inj ((hb.lookup_of_some hold).symm.trans hf)
    obtain ⟨i, hi, hunique⟩ := h hold hauthor
    refine ⟨i, ?_, fun j hj => ?_⟩
    · rw [hlookup, if_neg, hi]
      intro heq
      rw [heq, hfree] at hi
      cases hi
    · rw [hlookup] at hj
      split at hj
      · rename_i heq
        obtain ⟨howner, -⟩ := Prod.mk.inj heq
        obtain rfl := Option.some.inj hj
        obtain ⟨-, ⟨-, hfresh⟩ | ⟨hnone, hsame⟩⟩ := hb
        · exact absurd hfresh hnew
        · obtain rfl := Option.some.inj (hsame.symm.trans hold)
          exact absurd (hauthor.trans howner) (hnamed hnone)
      · exact hunique j hj

/-! ### Writing a batch -/

/-- Rows a layer is ready to write after the members it has: each numbered next, about an event of its own
that nothing else has the id of, or about a committed one. -/
structure Ready (db : Database) (layer : LayerId) (ids : List EventId) (rows : List PendingRow) : Prop where
  seq : ∀ {i row}, rows[i]? = some row → row.seq = ids.length + i
  own : ∀ {row event}, row ∈ rows → row.authored = some event →
    event.id = row.event ∧ event.authored = layer ∧ db.events.lookup row.event = none
  named : ∀ {row}, row ∈ rows → row.authored = none →
    ∃ event, db.events.lookup row.event = some event ∧ db.isCommitted event.authored
  distinct : ((rows.filterMap PendingRow.authored).map Event.id).Nodup

variable {rows : List PendingRow}

theorem ready_nil : db.Ready layer ids [] where
  seq h := by simp at h
  own h := by simp at h
  named h := by simp at h
  distinct := List.nodup_nil

theorem Ready.head (h : db.Ready layer ids (row :: rows)) (hs : db.Sound) :
    ∃ event, db.Bears row event ∧ (event.authored = layer ∨ db.isCommitted event.authored) := by
  cases hown : row.authored with
  | some event =>
    obtain ⟨hid, howner, hnew⟩ := h.own List.mem_cons_self hown
    exact ⟨event, ⟨hid, Or.inl ⟨hown, hnew⟩⟩, Or.inl howner⟩
  | none =>
    obtain ⟨event, hold, hc⟩ := h.named List.mem_cons_self hown
    exact ⟨event, ⟨hs.event_id hold, Or.inr ⟨hown, hold⟩⟩, Or.inr hc⟩

theorem Ready.tail (h : db.Ready layer ids (row :: rows)) (hb : db.Bears row event) :
    (db.withRow branch layer row event).Ready layer (ids ++ [row.event]) rows where
  seq {i next} hi := by
    have := h.seq (i := i + 1) (by simpa using hi)
    rw [List.length_append, List.length_singleton]
    omega
  own {next found} hm hown := by
    obtain ⟨hid, howner, hnew⟩ := h.own (List.mem_cons_of_mem _ hm) hown
    refine ⟨hid, howner, ?_⟩
    show (adding db.events row).lookup next.event = none
    rw [hb.lookup, if_neg, hnew]
    -- Two rows of a batch do not bring along one event.
    rintro hsame
    obtain ⟨hid', ⟨hown', -⟩ | ⟨-, hold⟩⟩ := hb
    · have hdistinct := h.distinct
      rw [List.filterMap_cons_some hown', List.map_cons, List.nodup_cons] at hdistinct
      refine hdistinct.1 (List.mem_map.2 ⟨found, List.mem_filterMap.2 ⟨next, hm, hown⟩, ?_⟩)
      rw [hid, hid', hsame]
    · rw [hsame, hold] at hnew
      cases hnew
  named {next} hm hown := by
    obtain ⟨found, hold, hc⟩ := h.named (List.mem_cons_of_mem _ hm) hown
    exact ⟨found, hb.lookup_of_some hold, hc⟩
  distinct := by
    have hdistinct := h.distinct
    rw [List.filterMap_cons] at hdistinct
    cases hown : row.authored with
    | none => simpa only [hown] using hdistinct
    | some found =>
      simp only [hown, List.map_cons] at hdistinct
      exact (List.nodup_cons.1 hdistinct).2

theorem Ready.lookup_withRow (h : db.Ready layer ids (row :: rows)) (hb : db.Bears row event) (id : EventId) :
    ((rows.filterMap PendingRow.authored).find? fun event => event.id = id).or
        ((db.withRow branch layer row event).events.lookup id) =
      (((row :: rows).filterMap PendingRow.authored).find? fun event => event.id = id).or (db.events.lookup id) := by
  show Option.or _ ((adding db.events row).lookup id) = _
  rw [hb.lookup]
  obtain ⟨hid, ⟨hown, hnew⟩ | ⟨hown, hold⟩⟩ := hb
  · have hdistinct := h.distinct
    rw [List.filterMap_cons_some hown, List.map_cons, List.nodup_cons] at hdistinct
    rw [List.filterMap_cons_some hown, List.find?_cons]
    by_cases hkey : id = row.event
    · -- The event of the first row is none of the others'.
      have hnone : ((rows.filterMap PendingRow.authored).find? fun event => event.id = id) = none := by
        refine List.find?_eq_none.2 fun found hm heq => hdistinct.1 ?_
        rw [hid, ← hkey, ← of_decide_eq_true heq]
        exact List.mem_map_of_mem hm
      rw [if_pos hkey, hnone, hid, hkey]
      simp
    · rw [if_neg hkey, decide_eq_false fun heq => hkey (heq.symm.trans hid)]
  · rw [List.filterMap_cons_none hown]
    split
    · subst id
      rw [hold]
    · rfl

/-- What a batch leaves behind. -/
structure Written (db : Database) (layer : LayerId) (ids : List EventId) (rows : List PendingRow)
    (db' : Database) : Prop where
  sound : db'.Sound
  layers : db'.layers = db.layers
  branches : db'.branches = db.branches
  defEvents : db'.defEvents = db.defEvents
  members : db'.layerEvents.Holds layer (ids ++ rows.map PendingRow.event)
  others : ∀ {other members}, other ≠ layer → db.layerEvents.Holds other members →
    db'.layerEvents.Holds other members
  events : ∀ id, db'.events.lookup id =
    ((rows.filterMap PendingRow.authored).find? fun event => event.id = id).or (db.events.lookup id)
  projects : ∀ {other}, db.Projects other → db'.Projects other
  authors : ¬ db.isCommitted layer → ∀ {other}, db.Authors other → db'.Authors other
  emptied : ∀ {other}, other ≠ layer → db.Emptied other → db'.Emptied other

/-- **A batch that is ready is written whole.** -/
theorem Ready.flush (h : db.Ready layer ids rows) (hs : db.Sound) (hp : db.Projects layer)
    (hl : db.branchOf layer = some branch) (hrows : db.layerEvents.Holds layer ids) :
    ∃ db', rows.foldlM (insertRow branch layer) db = .ok db' ∧ db.Written layer ids rows db' := by
  induction rows generalizing db ids with
  | nil =>
    exact ⟨db, rfl, hs, rfl, rfl, rfl, by simpa using hrows, fun _ hm => hm, fun id => by simp, id, fun _ => id,
      fun _ => id⟩
  | cons row rows ih =>
    obtain ⟨event, hb, howner⟩ := h.head hs
    have hseq : row.seq = ids.length := by simpa using h.seq (i := 0) rfl
    obtain ⟨db', hrun, hw⟩ := ih (h.tail hb) (hs.withRow hp hl hrows hseq hb howner)
      (hp.withRow hs hl hrows hseq hb) hl (holds_withRow hrows hseq)
    refine ⟨db', ?_, hw.sound, hw.layers, hw.branches, hw.defEvents, ?_, fun hne hm => hw.others hne ?_,
      fun id => ?_, fun hother => hw.projects (hother.withRow hs hl hrows hseq hb),
      fun hopen {other} hother => hw.authors hopen (hother.withRow hs hrows hseq hb (fun hown => ?_) fun hnone => ?_),
      fun hne hother => hw.emptied hne (hother.congr id (hother.members.insert_other hne _ _))⟩
    · rw [List.foldlM_cons, insertRow_run hrows hseq hb]
      exact hrun
    · simpa using hw.members
    · exact hm.insert_other hne _ _
    · rw [hw.events id]
      exact h.lookup_withRow hb id
    · exact (h.own List.mem_cons_self hown).2.1
    · obtain ⟨found, hfound, hc⟩ := h.named List.mem_cons_self hnone
      obtain ⟨-, ⟨hown, -⟩ | ⟨-, hold⟩⟩ := hb
      · rw [hnone] at hown
        cases hown
      · obtain rfl := Option.some.inj (hold.symm.trans hfound)
        rintro rfl
        exact hopen hc

theorem Written.owned (h : db.Written layer ids rows db') (ho : db.Owned) (ha : db.Authors layer)
    (hopen : ¬ db.isCommitted layer) : db'.Owned := by
  intro other
  by_cases heq : other = layer
  · exact .inl (heq ▸ h.authors hopen ha)
  · exact (ho other).imp (h.authors hopen) (h.emptied heq)

/-! ### Layers -/

theorem branchOf_insert (db : Database) (layer other : LayerId) (found : LayerRow) :
    branchOf { db with layers := db.layers.insert layer found } other =
      if other = layer then some found.branch else db.branchOf other := by
  unfold branchOf
  rw [AssocMap.lookup_insert_eq]
  split <;> rfl

theorem isCommitted_insert (db : Database) (layer other : LayerId) (found : LayerRow) :
    isCommitted { db with layers := db.layers.insert layer found } other =
      if other = layer then decide (found.state = .committed) else db.isCommitted other := by
  unfold isCommitted
  rw [AssocMap.lookup_insert_eq]
  split <;> simp

/-- A row that is replaced by one of its branch leaves every layer on the branch it was on. -/
theorem branchOf_replaced {row : LayerRow} (hrow : db.layers.lookup layer = some row) (found : LayerRow)
    (hb : found.branch = row.branch) (other : LayerId) :
    branchOf { db with layers := db.layers.insert layer found } other = db.branchOf other := by
  rw [branchOf_insert]
  split
  · subst other
    rw [branchOf, hrow, hb]
    rfl
  · rfl

theorem isCommitted_replaced {row : LayerRow} (hrow : db.layers.lookup layer = some row) (found : LayerRow)
    (hs : found.state = .committed ↔ row.state = .committed) (other : LayerId) :
    isCommitted { db with layers := db.layers.insert layer found } other = db.isCommitted other := by
  rw [isCommitted_insert]
  split
  · subst other
    simp [isCommitted, hrow, hs]
  · rfl

theorem Sound.unindexed (h : db.Sound) (hl : db.layers.lookup layer = none) {key : IndexKey}
    (hkey : key.landed = layer) : db.cellIndex.lookup key = none := by
  rcases h.indexed layer with hp | hs
  · refine Option.eq_none_iff_forall_ne_some.2 fun id hid => ?_
    have hb := ((hp key id hkey).1 hid).1
    rw [hkey, branchOf, hl] at hb
    cases hb
  · exact hs.unindexed key hkey

theorem Sound.projects_of_none (h : db.Sound) (hl : db.layers.lookup layer = none) (branch : BranchId) :
    Projects { db with layers := db.layers.insert layer ⟨branch, .open, none⟩ } layer := by
  intro key id hkey
  show db.cellIndex.lookup key = some id ↔ _ ∧ (lastOf _ _ (db.readLayer key.landed)).map Event.id = some id
  rw [h.unindexed hl hkey, hkey, readLayer_eq (h.holds_nil hl)]
  simp [lastOf]

theorem Sound.opened (h : db.Sound) (hl : db.layers.lookup layer = none) (branch : BranchId) :
    Sound { db with layers := db.layers.insert layer ⟨branch, .open, none⟩ } where
  event_id := h.event_id
  rows := h.rows
  defRows := h.defRows
  named {other i id} hm := by
    obtain ⟨hrow, event, he, howner⟩ := h.named hm
    refine ⟨?_, event, he, howner.imp_right fun hc => ?_⟩
    · simp only [AssocMap.lookup_insert_eq]
      split
      · rfl
      · exact hrow
    · rw [isCommitted_insert, if_neg, hc]
      rintro heq
      obtain ⟨row, hr, -⟩ := isCommitted_iff.1 hc
      rw [heq, hl] at hr
      cases hr
  defined {other i event} hm := by
    simp only [AssocMap.lookup_insert_eq]
    split
    · rfl
    · exact h.defined hm
  indexed other := by
    have hbranch (other : LayerId) (hne : other ≠ layer) :
        branchOf { db with layers := db.layers.insert layer ⟨branch, .open, none⟩ } other = db.branchOf other := by
      rw [branchOf_insert, if_neg hne]
    by_cases ho : other = layer
    · subst ho
      exact .inl (h.projects_of_none hl branch)
    · refine (h.indexed other).imp (·.congr (fun _ _ => rfl) (hbranch other ho) rfl) (·.congr ?_ fun _ _ => rfl)
      rw [isCommitted_insert, if_neg ho]
      exact id

/-- A row that changes its state or its metadata, and is of the same branch. -/
theorem Sound.replaced (h : db.Sound) {found : LayerRow} (hl : db.branchOf layer = some found.branch)
    (hc : db.isCommitted layer → found.state = .committed)
    (hp : found.state = .committed → db.Projects layer) :
    Sound { db with layers := db.layers.insert layer found } := by
  refine h.congr rfl rfl rfl rfl (fun other => ?_) (fun other hother => ?_) fun other hother => ?_
  · rw [branchOf_insert]
    split
    · subst other
      exact hl.symm
    · rfl
  · rw [isCommitted_insert]
    split
    · subst other
      exact decide_eq_true (hc hother)
    · exact hother
  · rw [isCommitted_insert] at hother
    split at hother
    · subst other
      exact hp (of_decide_eq_true hother)
    · exact h.projects hother

theorem Owned.replaced (h : db.Owned) {found : LayerRow} (ha : found.state = .committed → db.Authors layer) :
    Owned { db with layers := db.layers.insert layer found } := by
  refine h.congr rfl rfl fun other hc => ?_
  rw [isCommitted_insert] at hc
  split at hc
  · subst other
    exact ha (of_decide_eq_true hc)
  · exact h.authors hc

/-! ### Taking a layer out -/

theorem dropping_eq (db : Database) (layer : LayerId) (done : Nat) : db.dropping layer done =
    { layers := if 5 ≤ done then db.layers.erase layer else db.layers
      branches := db.branches
      events := if 3 ≤ done then db.events.retain fun _ event => if event.authored = layer then none else some event
        else db.events
      layerEvents := if 2 ≤ done then db.layerEvents.dropGroup layer else db.layerEvents
      cellIndex := if 1 ≤ done then
          db.cellIndex.retain fun key event => if key.landed = layer then none else some event
        else db.cellIndex
      defEvents := if 4 ≤ done then db.defEvents.dropGroup layer else db.defEvents } := by
  match done with
  | 0 | 1 | 2 | 3 | 4 => rfl
  | done + 5 => simp [dropping, abortStatements]

variable {done : Nat}

theorem lookup_dropping_layers (db : Database) (layer other : LayerId) (done : Nat) :
    (db.dropping layer done).layers.lookup other =
      if 5 ≤ done ∧ other = layer then none else db.layers.lookup other := by
  rw [dropping_eq]
  by_cases hd : 5 ≤ done
  · simp only [hd, if_true, true_and]
    exact AssocMap.lookup_erase_eq ..
  · simp only [hd, if_false, false_and]

theorem lookup_dropping_members (db : Database) (layer : LayerId) (key : LayerId × Nat) (done : Nat) :
    (db.dropping layer done).layerEvents.lookup key =
      if 2 ≤ done ∧ key.1 = layer then none else db.layerEvents.lookup key := by
  rw [dropping_eq]
  by_cases hd : 2 ≤ done
  · simp only [hd, if_true, true_and]
    exact Rows.lookup_dropGroup ..
  · simp only [hd, if_false, false_and]

theorem lookup_dropping_defs (db : Database) (layer : LayerId) (key : LayerId × Nat) (done : Nat) :
    (db.dropping layer done).defEvents.lookup key =
      if 4 ≤ done ∧ key.1 = layer then none else db.defEvents.lookup key := by
  rw [dropping_eq]
  by_cases hd : 4 ≤ done
  · simp only [hd, if_true, true_and]
    exact Rows.lookup_dropGroup ..
  · simp only [hd, if_false, false_and]

theorem lookup_dropping_index (db : Database) (layer : LayerId) (key : IndexKey) (done : Nat) :
    (db.dropping layer done).cellIndex.lookup key =
      if 1 ≤ done ∧ key.landed = layer then none else db.cellIndex.lookup key := by
  rw [dropping_eq]
  by_cases hd : 1 ≤ done
  · simp only [hd, if_true, true_and]
    rw [AssocMap.lookup_retain]
    split <;> simp
  · simp only [hd, if_false, false_and]

theorem lookup_dropping_iff : (db.dropping layer done).events.lookup id = some event ↔
    db.events.lookup id = some event ∧ (3 ≤ done → event.authored ≠ layer) := by
  rw [dropping_eq]
  by_cases hd : 3 ≤ done
  · simp only [hd, if_true, true_imp_iff]
    rw [AssocMap.lookup_retain, Option.bind_eq_some_iff]
    constructor
    · rintro ⟨found, hf, hif⟩
      split at hif
      · cases hif
      · cases hif
        exact ⟨hf, by assumption⟩
    · rintro ⟨hf, hne⟩
      exact ⟨event, hf, if_neg hne⟩
  · simp only [hd, if_false, false_imp_iff, and_true]

theorem lookup_dropping_layers_of_ne (ho : other ≠ layer) :
    (db.dropping layer done).layers.lookup other = db.layers.lookup other :=
  (lookup_dropping_layers ..).trans (if_neg fun h => ho h.2)

theorem branchOf_dropping (ho : other ≠ layer) : (db.dropping layer done).branchOf other = db.branchOf other := by
  rw [branchOf, lookup_dropping_layers_of_ne ho, branchOf]

theorem isCommitted_dropping (hl : ¬ db.isCommitted layer) (other : LayerId) :
    (db.dropping layer done).isCommitted other = db.isCommitted other := by
  rw [isCommitted, lookup_dropping_layers]
  split
  · rename_i h
    obtain ⟨-, rfl⟩ := h
    simpa using hl
  · rfl

theorem holds_dropping (ho : other ≠ layer) (hrows : db.layerEvents.Holds other ids) :
    (db.dropping layer done).layerEvents.Holds other ids := fun i =>
  (lookup_dropping_members ..).trans ((if_neg fun h => ho h.2).trans (hrows i))

theorem defs_dropping (ho : other ≠ layer) {defs : List DefEvent} (hrows : db.defEvents.Holds other defs) :
    (db.dropping layer done).defEvents.Holds other defs := fun i =>
  (lookup_dropping_defs ..).trans ((if_neg fun h => ho h.2).trans (hrows i))

/-- No other layer names what an open layer authored. -/
theorem Sound.lookup_dropping (h : db.Sound) (hl : ¬ db.isCommitted layer) (ho : other ≠ layer)
    (hrows : db.layerEvents.Holds other ids) (hid : id ∈ ids) :
    (db.dropping layer done).events.lookup id = db.events.lookup id := by
  obtain ⟨i, hi⟩ := hrows.mem_iff.1 hid
  obtain ⟨-, event, he, howner⟩ := h.named hi
  rw [he]
  refine lookup_dropping_iff.2 ⟨he, fun _ heq => ?_⟩
  rcases howner with hown | hc
  · exact ho (hown.symm.trans heq)
  · exact hl (heq ▸ hc)

theorem Projects.dropping (hp : db.Projects other) (h : db.Sound) (hl : ¬ db.isCommitted layer) (ho : other ≠ layer) :
    (db.dropping layer done).Projects other := by
  obtain ⟨ids, hrows⟩ := h.rows other
  refine hp.congr (fun key hkey => ?_) (branchOf_dropping ho) ?_
  · rw [lookup_dropping_index, if_neg fun h => ho (hkey.symm.trans h.2)]
  · exact readLayer_congr hrows (holds_dropping ho hrows) fun id hid => h.lookup_dropping hl ho hrows hid

theorem Authors.dropping (h : db.Authors other) (ho : other ≠ layer) : (db.dropping layer done).Authors other :=
  h.congr (fun he _ => (lookup_dropping_iff.1 he).1) fun _ =>
    (lookup_dropping_members ..).trans (if_neg fun h => ho h.2)

/-- **Wherever an abort stops, the tables are sound**: what is left of the layer has lost its rows of the index,
and goes on being uncommitted. -/
theorem Sound.dropping (h : db.Sound) (hl : ¬ db.isCommitted layer) (done : Nat) :
    (db.dropping layer done).Sound where
  event_id he := h.event_id (lookup_dropping_iff.1 he).1
  rows other := by
    by_cases hgone : 2 ≤ done ∧ other = layer
    · exact ⟨[], fun i => (lookup_dropping_members ..).trans (if_pos hgone)⟩
    · obtain ⟨ids, hrows⟩ := h.rows other
      exact ⟨ids, fun i => (lookup_dropping_members ..).trans ((if_neg hgone).trans (hrows i))⟩
  defRows other := by
    by_cases hgone : 4 ≤ done ∧ other = layer
    · exact ⟨[], fun i => (lookup_dropping_defs ..).trans (if_pos hgone)⟩
    · obtain ⟨defs, hrows⟩ := h.defRows other
      exact ⟨defs, fun i => (lookup_dropping_defs ..).trans ((if_neg hgone).trans (hrows i))⟩
  named {other i id} hm := by
    rw [lookup_dropping_members] at hm
    split at hm
    · cases hm
    · rename_i hkept
      obtain ⟨hrow, event, he, howner⟩ := h.named hm
      refine ⟨?_, event, lookup_dropping_iff.2 ⟨he, fun hd heq => ?_⟩,
        howner.imp_right fun hc => (isCommitted_dropping hl _).trans hc⟩
      · rwa [lookup_dropping_layers, if_neg fun h => hkept ⟨by omega, h.2⟩]
      · rcases howner with hown | hc
        · exact hkept ⟨by omega, hown.symm.trans heq⟩
        · exact hl (heq ▸ hc)
  defined {other i event} hm := by
    rw [lookup_dropping_defs] at hm
    split at hm
    · cases hm
    · rename_i hkept
      rw [lookup_dropping_layers, if_neg fun h => hkept ⟨by omega, h.2⟩]
      exact h.defined hm
  indexed other := by
    by_cases hcut : 1 ≤ done ∧ other = layer
    · refine .inr ⟨?_, fun key hkey => ?_⟩
      · rw [isCommitted_dropping hl, hcut.2]
        exact hl
      · rw [lookup_dropping_index, if_pos ⟨hcut.1, hkey.trans hcut.2⟩]
    · by_cases ho : other = layer
      · obtain rfl : done = 0 := by
          by_contra hd
          exact hcut ⟨Nat.pos_of_ne_zero hd, ho⟩
        exact h.indexed other
      · refine (h.indexed other).imp (·.dropping h hl ho) fun hs => hs.congr (fun hc => ?_) fun key hkey => ?_
        · rwa [isCommitted_dropping hl] at hc
        · rw [lookup_dropping_index, if_neg fun h => ho (hkey.symm.trans h.2)]

theorem Owned.dropping (h : db.Owned) (hl : ¬ db.isCommitted layer) (done : Nat) :
    (db.dropping layer done).Owned := by
  intro other
  have hopen : ¬ (db.dropping layer done).isCommitted layer := by rwa [isCommitted_dropping hl]
  by_cases ho : other = layer
  · subst ho
    by_cases hd : 2 ≤ done
    · exact .inr ⟨hopen, fun i => (lookup_dropping_members ..).trans (if_pos ⟨hd, rfl⟩)⟩
    · have hsame (i : Nat) : (db.dropping other done).layerEvents.lookup (other, i) =
          db.layerEvents.lookup (other, i) := (lookup_dropping_members ..).trans (if_neg fun h => hd h.1)
      refine (h other).imp (fun ha => ha.congr (fun he _ => (lookup_dropping_iff.1 he).1) hsame) fun he =>
        ⟨hopen, fun i => (hsame i).trans (he.members i)⟩
  · refine (h other).imp (·.dropping ho) fun he => he.congr (fun hc => ?_) (holds_dropping ho he.members)
    rwa [isCommitted_dropping hl] at hc

/-! ### Defs -/

theorem Sound.defining (h : db.Sound) {defs : List DefEvent} (hrows : db.defEvents.Holds layer defs)
    (hl : (db.layers.lookup layer).isSome) (event : DefEvent) :
    Sound { db with defEvents := db.defEvents.insert (layer, defs.length) event } where
  event_id := h.event_id
  rows := h.rows
  defRows other := by
    by_cases ho : other = layer
    · subst ho
      exact ⟨_, hrows.insert event⟩
    · obtain ⟨others, hm⟩ := h.defRows other
      exact ⟨others, hm.insert_other ho _ _⟩
  named := h.named
  indexed other := (h.indexed other).imp (fun hp => hp) fun hs => ⟨hs.uncommitted, hs.unindexed⟩
  defined {other i found} hm := by
    simp only [AssocMap.lookup_insert_eq] at hm
    split at hm
    · rename_i hkey
      obtain ⟨rfl, -⟩ := Prod.mk.inj hkey
      exact hl
    · exact h.defined hm

end Database

end BorgCore
