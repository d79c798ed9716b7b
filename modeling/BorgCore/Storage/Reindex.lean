import BorgCore.Storage.Tables

/-!
# Regenerating the read index

The statement that regenerates the index joins membership to the events and the layers and writes a row for
each, in the order of layers and positions.  What it leaves is the index that was kept on the way in, row for
row, whatever the state of the layers; only a layer whose abort was cut short gets back the rows it had lost.
-/

namespace BorgCore

namespace Database

variable {db : Database} {layer : LayerId} {ids : List EventId}

theorem lastOf_eq_getLast (cell : CellRef) (version : DefVersion) (events : List Event) :
    lastOf cell version events = (events.filter fun event => event.at = ⟨cell, version⟩).getLast? := by
  induction events using List.reverseRecOn with
  | nil => rfl
  | append_singleton events event ih =>
    rw [lastOf_append, ih, List.filter_append]
    by_cases hat : event.at = ⟨cell, version⟩
    · simp [lastOf, hat]
    · simp [lastOf, hat]

/-- A row of the log, joined. -/
def Joined (db : Database) (row : (LayerId × Nat) × IndexKey × EventId) : Prop :=
  db.layerEvents.lookup row.1 = some row.2.2 ∧ ∃ event, db.events.lookup row.2.2 = some event ∧
    row.2.1.record = event.at ∧ row.2.1.landed = row.1.1 ∧ db.branchOf row.1.1 = some row.2.1.branch

theorem mem_membershipRows (row : (LayerId × Nat) × IndexKey × EventId) :
    row ∈ db.membershipRows ↔ db.Joined row := by
  unfold membershipRows Joined branchOf
  rw [List.mem_insertionSort, List.mem_filterMap]
  constructor
  · rintro ⟨⟨place, id⟩, hm, hrow⟩
    obtain ⟨event, he, hrow⟩ := Option.bind_eq_some_iff.1 hrow
    obtain ⟨found, hl, rfl⟩ := Option.map_eq_some_iff.1 hrow
    exact ⟨AssocMap.mem_toPairs.1 hm, event, he, rfl, rfl, by rw [hl]; rfl⟩
  · obtain ⟨place, ⟨branch, record, landed⟩, id⟩ := row
    rintro ⟨hm, event, he, hrecord, hlanded, hb⟩
    obtain ⟨found, hl, hbranch⟩ := Option.map_eq_some_iff.1 hb
    dsimp only at hm he hrecord hlanded hl hbranch
    refine ⟨(place, id), AssocMap.mem_toPairs.2 hm, ?_⟩
    dsimp only
    rw [he, Option.bind_some, hl, Option.map_some, hbranch, ← hrecord, ← hlanded]

/-- The order the joined rows come in. -/
def Before (row next : (LayerId × Nat) × IndexKey × EventId) : Prop :=
  row.1.1 < next.1.1 ∨ row.1.1 = next.1.1 ∧ row.1.2 ≤ next.1.2

instance : DecidableRel Before := fun _ _ => inferInstanceAs (Decidable (_ ∨ _ ∧ _))

instance : Std.Total Before where
  total row next := by
    rcases Nat.lt_trichotomy row.1.1 next.1.1 with hlt | heq | hgt
    · exact Or.inl (Or.inl hlt)
    · exact (Nat.le_total row.1.2 next.1.2).imp (fun hle => Or.inr ⟨heq, hle⟩) fun hle => Or.inr ⟨heq.symm, hle⟩
    · exact Or.inr (Or.inl hgt)

instance : IsTrans _ Before where
  trans row next last h h' := by
    rcases h with hlt | ⟨heq, hle⟩
    · rcases h' with hlt' | ⟨heq', -⟩
      · exact Or.inl (Nat.lt_trans hlt hlt')
      · exact Or.inl (heq' ▸ hlt)
    · rcases h' with hlt' | ⟨heq', hle'⟩
      · exact Or.inl (heq ▸ hlt')
      · exact Or.inr ⟨heq.trans heq', Nat.le_trans hle hle'⟩

theorem pairwise_membershipRows (db : Database) : db.membershipRows.Pairwise fun row next =>
    row.1.1 = next.1.1 → row.1.2 < next.1.2 := by
  have hdistinct : db.membershipRows.Pairwise fun row next => row.1 ≠ next.1 := by
    refine (List.perm_insertionSort _ _).symm.pairwise ?_ fun h => h.symm
    have hkeys : db.layerEvents.toPairs.Pairwise fun row next => row.1 ≠ next.1 := by
      unfold AssocMap.toPairs
      exact List.pairwise_map.2 (List.nodupKeys_iff_pairwise.1 db.layerEvents.nodupKeys)
    refine List.pairwise_filterMap.2 (hkeys.imp fun hne row hrow next hnext => ?_)
    obtain ⟨event, -, hrow⟩ := Option.bind_eq_some_iff.1 hrow
    obtain ⟨found, -, rfl⟩ := Option.map_eq_some_iff.1 hrow
    obtain ⟨event', -, hnext⟩ := Option.bind_eq_some_iff.1 hnext
    obtain ⟨found', -, rfl⟩ := Option.map_eq_some_iff.1 hnext
    exact hne
  have hsorted : db.membershipRows.Pairwise Before := by
    unfold membershipRows
    exact List.pairwise_insertionSort Before _
  refine (hsorted.and hdistinct).imp fun {row next} hboth hlayer => ?_
  rcases hboth.1 with hlt | ⟨-, hle⟩
  · exact absurd hlayer (Nat.ne_of_lt hlt)
  · exact lt_of_le_of_ne hle fun hseq => hboth.2 (Prod.ext hlayer hseq)

/-- The joined rows of one index key, in order, are the members of its layer that are versions of its
record. -/
theorem Sound.filter_membershipRows (h : db.Sound) (key : IndexKey) :
    (db.membershipRows.filter fun row => row.2.1 = key).map (fun row => row.2.2) =
      if db.branchOf key.landed = some key.branch then
        ((db.readLayer key.landed).filter fun event => event.at = key.record).map Event.id
      else [] := by
  obtain ⟨ids, hrows⟩ := h.rows key.landed
  have hgroup {row : (LayerId × Nat) × IndexKey × EventId}
      (hm : row ∈ db.membershipRows.filter fun row => row.2.1 = key) : row.1.1 = key.landed := by
    obtain ⟨hin, hkey⟩ := List.mem_filter.1 hm
    obtain ⟨-, event, -, -, hlanded, -⟩ := (mem_membershipRows row).1 hin
    rw [← hlanded, of_decide_eq_true hkey]
  -- The rows of the key, as the members of the layer give them.
  let kept (member : EventId × Nat) : Option ((LayerId × Nat) × IndexKey × EventId) :=
    (db.events.lookup member.1).bind fun event =>
      if event.at = key.record ∧ db.branchOf key.landed = some key.branch then
        some ((key.landed, member.2), key, member.1) else none
  have heq : (db.membershipRows.filter fun row => row.2.1 = key) = ids.zipIdx.filterMap kept := by
    refine Rows.eq_of_pairwise_lt (fun row => row.1.2) ?_ ?_ fun row => ?_
    · refine ((pairwise_membershipRows db).sublist List.filter_sublist).imp_of_mem ?_
      exact fun hrow hnext hlt => hlt ((hgroup hrow).trans (hgroup hnext).symm)
    · have hnumbers : (ids.zipIdx.map Prod.snd).Pairwise (· < ·) := by
        rw [List.zipIdx_map_snd]
        exact List.pairwise_lt_range'
      refine List.pairwise_filterMap.2 ((List.pairwise_map.1 hnumbers).imp fun hlt row hrow next hnext => ?_)
      obtain ⟨event, -, hrow⟩ := Option.bind_eq_some_iff.1 hrow
      obtain ⟨event', -, hnext⟩ := Option.bind_eq_some_iff.1 hnext
      split at hrow
      · split at hnext
        · cases hrow
          cases hnext
          exact hlt
        · cases hnext
      · cases hrow
    · rw [List.mem_filter, mem_membershipRows, List.mem_filterMap]
      obtain ⟨⟨layer, i⟩, found, id⟩ := row
      constructor
      · rintro ⟨⟨hm, event, he, hrecord, hlanded, hb⟩, hkey⟩
        obtain rfl : found = key := of_decide_eq_true hkey
        dsimp only at hm he hrecord hlanded hb
        subst hlanded
        refine ⟨(id, i), List.mem_zipIdx_iff_getElem?.2 ((hrows i).symm.trans hm), ?_⟩
        dsimp only [kept]
        rw [he, Option.bind_some, if_pos ⟨hrecord.symm, hb⟩]
      · rintro ⟨⟨member, j⟩, hm, hrow⟩
        obtain ⟨event, he, hrow⟩ := Option.bind_eq_some_iff.1 hrow
        split at hrow
        · rename_i hkeep
          cases hrow
          refine ⟨⟨(hrows _).trans (List.mem_zipIdx_iff_getElem?.1 hm), event, he, hkeep.1.symm, rfl, hkeep.2⟩,
            decide_eq_true rfl⟩
        · cases hrow
  rw [heq, List.map_filterMap]
  by_cases hb : db.branchOf key.landed = some key.branch
  · rw [if_pos hb, readLayer_eq hrows, ← List.filterMap_eq_filter, List.filterMap_filterMap, List.map_filterMap]
    conv_rhs => rw [← List.zipIdx_map_fst 0 ids, List.filterMap_map]
    refine List.filterMap_congr fun member _ => ?_
    dsimp only [kept, Function.comp]
    cases he : db.events.lookup member.1 with
    | none => rfl
    | some event =>
      have hid := h.event_id he
      by_cases hat : event.at = key.record
      · simp [hat, hb, hid, Option.guard]
      · simp [hat, Option.guard]
  · rw [if_neg hb, List.filterMap_eq_nil_iff]
    intro member _
    dsimp only [kept]
    cases db.events.lookup member.1 with
    | none => rfl
    | some event => simp [hb]

/-- The tables with the index regenerated. -/
def reindexed (db : Database) : Database :=
  { db with cellIndex := db.membershipRows.foldl (fun index row => index.insert row.2.1 row.2.2) ∅ }

/-- **The regenerated index is a projection of the log**, of every layer. -/
theorem Sound.projects_reindexed (h : db.Sound) (layer : LayerId) : db.reindexed.Projects layer := by
  intro key id _
  have hfold : db.membershipRows.foldl (fun index row => AList.insert row.2.1 row.2.2 index)
      (∅ : AssocMap IndexKey EventId) =
      (db.membershipRows.map Prod.snd).foldl (fun index row => AList.insert row.1 row.2 index) ∅ := by
    rw [List.foldl_map]
  have hlast := congrArg List.getLast? (h.filter_membershipRows key)
  rw [List.getLast?_map] at hlast
  have hlookup : db.reindexed.cellIndex.lookup key = (if db.branchOf key.landed = some key.branch then
      ((db.readLayer key.landed).filter fun event => event.at = key.record).map Event.id else []).getLast? := by
    unfold reindexed
    dsimp only
    rw [hfold, Rows.lookup_foldl_insert, AssocMap.lookup_empty, Option.or_none, List.filter_map,
      List.getLast?_map, Option.map_map]
    exact hlast
  rw [hlookup, lastOf_eq_getLast]
  show _ ↔ db.branchOf key.landed = some key.branch ∧ _
  by_cases hb : db.branchOf key.landed = some key.branch
  · rw [if_pos hb, List.getLast?_map]
    simp only [hb, true_and]
    rfl
  · rw [if_neg hb]
    simp [hb]

theorem Projects.lookup_reindexed (hp : db.Projects layer) (h : db.Sound) {key : IndexKey} (hkey : key.landed = layer) :
    db.reindexed.cellIndex.lookup key = db.cellIndex.lookup key :=
  Option.ext fun id => (h.projects_reindexed layer key id hkey).trans (hp key id hkey).symm

theorem Sound.reindexed (h : db.Sound) : db.reindexed.Sound where
  event_id := h.event_id
  rows := h.rows
  defRows := h.defRows
  named := h.named
  defined := h.defined
  indexed layer := .inl (h.projects_reindexed layer)

end Database

end BorgCore
