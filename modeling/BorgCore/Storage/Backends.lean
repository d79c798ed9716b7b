import BorgCore.Storage.Handles
import BorgCore.Storage.Reindex
import BorgCore.Storage.Texts

/-!
# The two stores answer alike

Whatever is called on a process and on the memory store it mirrors, both take the call or both refuse it,
both mint the same identity, and the process mirrors the memory store again.  What the two say where they
refuse is not the same text.  What the tables answer has been through their text columns, and what the memory
store answers has not: that is all the difference.
-/

namespace BorgCore

/-- A call on the memory store, with the identity it mints if it mints one. -/
def MemoryStorage.answering : StoreCall → StoreM (Option EventId)
  | .openLayer branch layer => do openLayer branch layer; return none
  | .authorEvent layer cell draft => do return some (← authorEvent layer cell draft)
  | .adoptEvent layer event => do adoptEvent layer event; return none
  | .includeEvent layer event => do includeEvent layer event; return none
  | .putDef layer event => do putDef layer event; return none
  | .sealLayer layer => do sealLayer layer; return none
  | .abort layer => do abort layer; return none
  | .putLayerMeta layer => do putLayerMeta layer; return none
  | .putBranch branch => do putBranch branch; return none
  | .commitLayer layer => do commitLayer layer; return none
  | .rebuildReadIndex => do rebuildReadIndex; return none

/-- The memory store after a run of calls. -/
def MemoryStorage.after (store : MemoryStorage) (calls : List StoreCall) : MemoryStorage :=
  calls.foldl (fun store made => Calls.left (answering made store)) store

namespace SqliteProcess

open Database

variable {process : SqliteProcess} {store : MemoryStorage} {orphans : Set LayerId} {layer : LayerId}
  {handle : SqliteOpenLayer} {staged : StagedLayer} {event : Event} {id : EventId}

/-! ### Sealing and committing -/

/-- A process that has sealed a layer. -/
def sealing (process : SqliteProcess) (handle : SqliteOpenLayer) : SqliteProcess where
  storage := { process.storage with
    conn := { process.conn with
      layers := process.conn.layers.insert handle.id ⟨handle.branch, .sealed, none⟩ } }
  opened := process.opened.erase handle.id
  sealedLayers := handle.id :: process.sealedLayers

theorem Mirrors.sealing (h : process.Mirrors store orphans)
    (hl : process.opened.lookup handle.id = some handle) (hpending : handle.pending = [])
    (hs : store.staged.lookup handle.id = some staged) : (process.sealing handle).Mirrors
      { store with staged := store.staged.insert handle.id { staged with isSealed := true } } orphans := by
  obtain ⟨staged', hs', hw, -, hout⟩ := h.writing hl
  obtain rfl := Option.some.inj (hs.symm.trans hs')
  have hlookup (other : LayerId) : (process.sealing handle).conn.layers.lookup other =
      if other = handle.id then some ⟨handle.branch, .sealed, none⟩ else process.conn.layers.lookup other :=
    AssocMap.lookup_insert_eq ..
  have hbranch (other : LayerId) : (process.sealing handle).conn.branchOf other = process.conn.branchOf other :=
    branchOf_replaced hw.row ⟨handle.branch, .sealed, none⟩ rfl other
  have hcommitted (other : LayerId) :
      (process.sealing handle).conn.isCommitted other = process.conn.isCommitted other :=
    isCommitted_replaced hw.row ⟨handle.branch, .sealed, none⟩ (by simp) other
  refine
    { tables := h.tables.replaced hw.branchOf (fun hc => absurd hc hw.not_committed) nofun
      members := h.members.replaced nofun
      sound := h.sound.insert_same hs rfl fun id hin => Or.inl hin
      next := h.next
      branches := h.branches
      branchIds := h.branchIds
      describes := fun {other row described} hr hd => ?_
      metadata := fun {other row} hr => ?_
      described := fun hd => AssocMap.isSome_lookup_insert (h.described hd) _ _
      events := fun id event => ?_
      minted := fun he => ⟨(h.minted he).1, AssocMap.isSome_lookup_insert (h.minted he).2 _ _⟩
      committed := fun {other membership} hm => ?_
      of_committed := fun {other} hc => h.of_committed (hcommitted other ▸ hc)
      opened := fun {other found} hf => ?_
      closed := fun {other} hin => ?_
      staged := fun {other} hsome => ?_
      owned := fun {other} hrow => ?_ }
  · rw [hlookup] at hr
    split at hr
    · cases hr
      cases hd
    · exact h.describes hr hd
  · rw [hlookup] at hr
    split at hr
    · cases hr
      subst other
      exact (h.metadata hw.row :)
    · exact h.metadata hr
  · rw [hcommitted]
    exact h.events id event
  · obtain ⟨hc, hb, hheld⟩ := h.committed hm
    exact ⟨(hcommitted other).trans hc, (hbranch other).trans hb, hheld⟩
  · simp only [SqliteProcess.sealing, AssocMap.lookup_insert_eq, AssocMap.lookup_erase_eq] at hf ⊢
    split at hf
    · cases hf
    · rename_i hother
      obtain ⟨hid, staged', hs', hw'⟩ := h.opened hf
      refine ⟨hid, staged', by rw [if_neg hother, hs'], hw'.congr rfl ?_ ?_ rfl (fun _ _ => rfl) fun _ hd => hd⟩
      · exact (hlookup _).trans (if_neg (hid ▸ hother))
      · exact fun other hc => (hcommitted other).trans hc
  · rcases List.mem_cons.1 hin with rfl | hin
    · obtain ⟨ids, hrows, hmembers, -⟩ := hw.split
      refine ⟨_, AList.lookup_insert .., ⟨_, AList.lookup_insert .., hw.branch.symm, rfl⟩, rfl, ?_, hw.defs, ?_, ?_, ?_⟩
      · rw [hpending, List.map_nil, List.append_nil] at hmembers
        show process.conn.layerEvents.Holds handle.id staged.members
        rw [hmembers]
        exact hrows
      · intro event
        show event ∈ staged.authored ↔ _
        rw [hw.authored, hpending]
        exact ⟨fun hor => hor.resolve_right List.not_mem_nil, Or.inl⟩
      · exact hw.indexed.congr (fun _ _ => rfl) (hbranch _) rfl
      · exact hw.authors
    · have hne : other ≠ handle.id := by
        rintro rfl
        exact hout hin
      obtain ⟨staged', hs', hclosed⟩ := h.closed hin
      refine ⟨staged', ?_, hclosed.congr rfl (fun row hr => ⟨row, ?_, rfl, rfl⟩) rfl (fun _ _ => rfl) fun _ hd => hd⟩
      · rw [AssocMap.lookup_insert_eq, if_neg hne, hs']
      · exact (hlookup other).trans ((if_neg hne).trans hr)
  · simp only [SqliteProcess.sealing, AssocMap.lookup_insert_eq, AssocMap.lookup_erase_eq] at hsome ⊢
    by_cases heq : other = handle.id
    · exact Or.inr (heq ▸ List.mem_cons_self)
    · rw [if_neg heq] at hsome ⊢
      exact (h.staged hsome).imp_right (List.mem_cons_of_mem _)
  · rw [hlookup] at hrow
    by_cases heq : other = handle.id
    · subst other
      exact Or.inl (by simp)
    · rw [if_neg heq] at hrow
      exact (h.owned hrow).imp_left fun hsome => AssocMap.isSome_lookup_insert hsome _ _

theorem Mirrors.sealLayer (h : process.Mirrors store orphans) (hopen : (process.opened.lookup layer).isSome) :
    Agree process (sealLayer layer process) (MemoryStorage.sealLayer layer store) orphans := by
  obtain ⟨handle, hl⟩ := Option.isSome_iff_exists.1 hopen
  obtain ⟨staged, hs, -, hid, -⟩ := h.writing hl
  obtain ⟨conn, hrun, hm, hk⟩ := h.flush hl
  subst hid
  have hl' : (process.flushed handle.id handle conn).opened.lookup handle.id =
      some { handle with pending := [] } := AList.lookup_insert ..
  have hsealed := @Mirrors.sealing _ store orphans { handle with pending := [] } staged hm hl' rfl hs
  have hrow : conn.layers.lookup handle.id = some ⟨handle.branch, .open, none⟩ := by
    obtain ⟨_, -, hw, -⟩ := hm.writing hl'
    exact hw.row
  have hadjust : (conn.layers.adjust handle.id fun row =>
      if row.state = .open then { row with state := .sealed } else row) =
        conn.layers.insert handle.id ⟨handle.branch, .sealed, none⟩ := by
    unfold AssocMap.adjust
    rw [hrow]
    rfl
  rw [MemoryStorage.sealLayer_run hs]
  unfold SqliteProcess.sealLayer through SqliteOpenLayer.sealLayer SqliteOpenLayer.flush
  rw [hl]
  dsimp only
  rw [hrun]
  dsimp only
  rw [hadjust]
  refine ⟨rfl, hsealed, fun other hs => ?_⟩
  have hne := hs.ne hl
  have hkept := hk other hne
  have hlookup : (conn.layers.insert handle.id ⟨handle.branch, .sealed, none⟩).lookup other =
      process.conn.layers.lookup other := (AssocMap.lookup_insert_eq ..).trans ((if_neg hne).trans hkept.row)
  refine ⟨⟨(congrArg Option.isSome hlookup).trans hs.row, ?_, ?_⟩,
    ⟨hlookup, hkept.members, hkept.defs, hkept.events⟩⟩
  · refine (AssocMap.lookup_erase_eq ..).trans ((if_neg hne).trans ?_)
    exact (AssocMap.lookup_insert_eq ..).trans ((if_neg hne).trans hs.unopened)
  · intro hin
    exact (List.mem_cons.1 hin).elim hne hs.unsealed

/-- A process that has committed a layer. -/
def committing (process : SqliteProcess) (layer : LayerId) (row : LayerRow) : SqliteProcess :=
  { process with
    storage := { process.storage with
      conn := { process.conn with layers := process.conn.layers.insert layer { row with state := .committed } } }
    sealedLayers := process.sealedLayers.filter (· ≠ layer) }

section Committing

variable {row : LayerRow}

theorem lookup_committing (process : SqliteProcess) (layer : LayerId) (row : LayerRow) (other : LayerId) :
    (process.committing layer row).conn.layers.lookup other =
      if other = layer then some { row with state := .committed } else process.conn.layers.lookup other :=
  AssocMap.lookup_insert_eq ..

theorem isCommitted_committing (process : SqliteProcess) (layer : LayerId) (row : LayerRow) (other : LayerId) :
    (process.committing layer row).conn.isCommitted other = true ↔
      other = layer ∨ process.conn.isCommitted other := by
  rw [show (process.committing layer row).conn.isCommitted other = _ from isCommitted_insert ..]
  split
  · rename_i heq
    simp [heq]
  · rename_i hne
    simp [hne]

/-- What the layer authored is stored, and nothing that was is new. -/
theorem Mirrors.events_committing (h : process.Mirrors store orphans)
    (hs : store.staged.lookup layer = some staged) (hclosed : process.conn.Closed layer staged)
    (row : LayerRow) : (store.landed layer staged).events.lookup id = some event ↔
      process.conn.events.lookup id = some event ∧
        (process.committing layer row).conn.isCommitted event.authored := by
  show AList.lookup id (MemoryStorage.storeAll store.events staged.authored) = some event ↔ _
  rw [MemoryStorage.lookup_stored h.sound hs, isCommitted_committing, Option.or_eq_some_iff,
    find?_authored h.tables hclosed.authored, h.events, List.find?_eq_none]
  constructor
  · rintro (⟨he, howner⟩ | ⟨-, he, hc⟩)
    · exact ⟨he, Or.inl howner⟩
    · exact ⟨he, Or.inr hc⟩
  · rintro ⟨he, howner | hc⟩
    · exact Or.inl ⟨he, howner⟩
    · refine Or.inr ⟨fun found hin heq => ?_, he, hc⟩
      have hstored := (h.events _ _).2 ⟨he, hc⟩
      have hnew := (h.sound.authored hs hin).2.2
      rw [of_decide_eq_true heq, hstored] at hnew
      cases hnew

theorem Mirrors.committed_committing (h : process.Mirrors store orphans)
    (hclosed : process.conn.Closed layer staged) (hrow : process.conn.layers.lookup layer = some row)
    {other : LayerId} {membership : Membership}
    (hm : (store.landed layer staged).members.lookup other = some membership) :
    (process.committing layer row).conn.isCommitted other ∧
      (process.committing layer row).conn.branchOf other = some membership.branch ∧
        process.conn.layerEvents.Holds other membership.events ∧
          process.conn.defEvents.Holds other ((store.landed layer staged).readDefLayer other) := by
  have hm : AList.lookup other (AList.insert layer ⟨staged.branch, staged.members⟩ store.members) =
      some membership := hm
  rw [AssocMap.lookup_insert_eq] at hm
  have hdefs : (store.landed layer staged).readDefLayer other =
      if other = layer then staged.defs else store.readDefLayer other := AssocMap.getD_insert ..
  have hbranch : (process.committing layer row).conn.branchOf other = process.conn.branchOf other :=
    branchOf_replaced hrow { row with state := .committed } rfl other
  rw [hbranch, hdefs]
  split at hm
  · cases hm
    subst other
    obtain ⟨row', hr, hb, -⟩ := hclosed.row
    rw [if_pos rfl, branchOf, hr]
    exact ⟨(isCommitted_committing ..).2 (Or.inl rfl), congrArg some hb, hclosed.members, hclosed.defs⟩
  · rename_i hne
    obtain ⟨hc, hheld⟩ := h.committed hm
    rw [if_neg hne]
    exact ⟨(isCommitted_committing ..).2 (Or.inr hc), hheld⟩

theorem Mirrors.owned_committing (h : process.Mirrors store orphans) {other : LayerId}
    (hr : ((process.committing layer row).conn.layers.lookup other).isSome) :
    ((store.landed layer staged).staged.lookup other).isSome ∨
      ((store.landed layer staged).members.lookup other).isSome ∨ other ∈ orphans := by
  show (AList.lookup other (AList.erase layer store.staged)).isSome ∨
    (AList.lookup other (AList.insert layer _ store.members)).isSome ∨ _
  rw [AssocMap.lookup_erase_eq, AssocMap.lookup_insert_eq]
  rw [lookup_committing] at hr
  by_cases heq : other = layer
  · rw [if_pos heq, if_pos heq]
    exact Or.inr (Or.inl rfl)
  · rw [if_neg heq] at hr ⊢
    rw [if_neg heq]
    exact h.owned hr

theorem Mirrors.committing (h : process.Mirrors store orphans) (hin : layer ∈ process.sealedLayers)
    (hs : store.staged.lookup layer = some staged) (hclosed : process.conn.Closed layer staged)
    (hrow : process.conn.layers.lookup layer = some row) :
    (process.committing layer row).Mirrors (store.landed layer staged) orphans := by
  have hout : process.opened.lookup layer = none := by
    cases hl : process.opened.lookup layer with
    | none => rfl
    | some handle =>
      obtain ⟨_, -, -, -, hout⟩ := h.writing hl
      exact absurd hin hout
  have hlookup := lookup_committing process layer row
  have hkept {other : LayerId} (hc : process.conn.isCommitted other) :
      (process.committing layer row).conn.isCommitted other := (isCommitted_committing ..).2 (Or.inr hc)
  refine
    { tables := h.tables.replaced (by rw [branchOf, hrow]; rfl) (fun _ => rfl) fun _ => hclosed.indexed
      members := h.members.replaced fun _ => hclosed.authors
      sound := h.sound.landed hs
      next := h.next
      branches := h.branches
      branchIds := h.branchIds
      describes := fun {other found described} hr hd => ?_
      metadata := fun {other found} hr => ?_
      described := fun hd => AssocMap.isSome_lookup_insert (h.described hd) _ _
      events := fun id event => h.events_committing hs hclosed row
      minted := fun he => ⟨(h.minted he).1, AssocMap.isSome_lookup_insert (h.minted he).2 _ _⟩
      committed := h.committed_committing hclosed hrow
      of_committed := fun {other} hc => ?_
      opened := fun {other found} hf => ?_
      closed := fun {other} hin => ?_
      staged := fun {other} hsome => ?_
      owned := h.owned_committing }
  · rw [hlookup] at hr
    split at hr
    · cases hr
      subst other
      exact (h.describes hrow hd :)
    · exact h.describes hr hd
  · rw [hlookup] at hr
    split at hr
    · cases hr
      subst other
      exact (h.metadata hrow :)
    · exact h.metadata hr
  · show (AList.lookup other (AList.insert layer _ store.members)).isSome
    rw [AssocMap.lookup_insert_eq]
    split
    · rfl
    · rename_i hne
      exact h.of_committed (((isCommitted_committing ..).1 hc).resolve_left hne)
  · have hne : other ≠ layer := by
      rintro rfl
      rw [show process.opened.lookup other = some found from hf] at hout
      cases hout
    obtain ⟨hid, staged', hs', hw⟩ := h.opened hf
    refine ⟨hid, staged', (AssocMap.lookup_erase_eq ..).trans ((if_neg hne).trans hs'), ?_⟩
    exact hw.congr rfl ((hlookup _).trans (if_neg (hid ▸ hne))) (fun _ hc => hkept hc) rfl
      (fun _ _ => rfl) fun _ hd => hd
  · obtain ⟨hin, hne⟩ := List.mem_filter.1 hin
    have hne : other ≠ layer := by simpa using hne
    obtain ⟨staged', hs', hclosed'⟩ := h.closed hin
    refine ⟨staged', (AssocMap.lookup_erase_eq ..).trans ((if_neg hne).trans hs'), ?_⟩
    exact hclosed'.congr rfl (fun row hr => ⟨row, (hlookup other).trans ((if_neg hne).trans hr), rfl, rfl⟩) rfl
      (fun _ _ => rfl) fun _ hd => hd
  · have hsome : (AList.lookup other (AList.erase layer store.staged)).isSome := hsome
    rw [AssocMap.lookup_erase_eq] at hsome
    split at hsome
    · cases hsome
    · rename_i hne
      exact (h.staged hsome).imp_right fun hin => List.mem_filter.2 ⟨hin, by simpa using hne⟩

end Committing

theorem Mirrors.commitLayer (h : process.Mirrors store orphans) (hin : layer ∈ process.sealedLayers) :
    Agree process (commitLayer layer process) (MemoryStorage.commitLayer layer store) orphans := by
  obtain ⟨staged, hs, hclosed⟩ := h.closed hin
  obtain ⟨row, hrow, -, hsealed⟩ := hclosed.row
  rw [MemoryStorage.commitLayer_run h.sound hs hclosed.closed]
  unfold SqliteProcess.commitLayer onStorage SqliteStorage.commitLayer
  dsimp only
  rw [hrow]
  dsimp only
  rw [hsealed, if_pos rfl]
  refine ⟨rfl, h.committing hin hs hclosed hrow, fun other hs => ?_⟩
  have hlookup : (process.conn.layers.insert layer { row with state := .committed }).lookup other =
      process.conn.layers.lookup other := (AssocMap.lookup_insert_eq ..).trans (if_neg (hs.ne_sealed hin))
  exact ⟨⟨(congrArg Option.isSome hlookup).trans hs.row, hs.unopened,
    fun hin => hs.unsealed (List.mem_of_mem_filter hin)⟩,
    ⟨hlookup, id, id, fun _ _ => rfl⟩⟩

/-! ### Aborting -/

/-- A process that has given up a layer, and run the first statements of an abort. -/
def losing (process : SqliteProcess) (layer : LayerId) (done : Nat) : SqliteProcess :=
  { process with
    storage := { process.storage with conn := process.conn.dropping layer done }
    opened := process.opened.erase layer }

/-- A layer goes on being written while another is discarded. -/
theorem writing_dropping {db : Database} (ht : db.Sound) (hl : ¬ db.isCommitted layer) (hne : handle.id ≠ layer)
    (hw : db.Writing handle staged) (done : Nat) : (db.dropping layer done).Writing handle staged where
  row := (lookup_dropping_layers_of_ne hne).trans hw.row
  branch := hw.branch
  unsealed := hw.unsealed
  split := by
    obtain ⟨ids, hrows, hmembers, hready⟩ := hw.split
    refine ⟨ids, holds_dropping hne hrows, hmembers, hready.seq, fun hm hown => ?_, fun hm hown => ?_, hready.distinct⟩
    · obtain ⟨hid, howner, hfree⟩ := hready.own hm hown
      refine ⟨hid, howner, Option.eq_none_iff_forall_ne_some.2 fun found hf => ?_⟩
      rw [(lookup_dropping_iff.1 hf).1] at hfree
      cases hfree
    · obtain ⟨event, he, hc⟩ := hready.named hm hown
      refine ⟨event, lookup_dropping_iff.2 ⟨he, ?_⟩, (isCommitted_dropping hl _).trans hc⟩
      rintro - rfl
      exact hl hc
  seq := hw.seq
  defs := defs_dropping hne hw.defs
  defCount := hw.defCount
  authored event := by
    rw [hw.authored, lookup_dropping_iff, and_assoc]
    refine or_congr_left (and_congr_right fun _ => ⟨fun howner => ⟨fun _ => howner ▸ hne, howner⟩, And.right⟩)
  indexed := hw.indexed.dropping ht hl hne
  authors := hw.authors.dropping hne

theorem closed_dropping {db : Database} (ht : db.Sound) (hl : ¬ db.isCommitted layer) {other : LayerId}
    (hne : other ≠ layer) (hclosed : db.Closed other staged) (done : Nat) :
    (db.dropping layer done).Closed other staged where
  row := by
    rw [lookup_dropping_layers_of_ne hne]
    exact hclosed.row
  closed := hclosed.closed
  members := holds_dropping hne hclosed.members
  defs := defs_dropping hne hclosed.defs
  authored event := by
    rw [hclosed.authored, lookup_dropping_iff, and_assoc]
    exact and_congr_right fun _ => ⟨fun howner => ⟨fun _ => howner ▸ hne, howner⟩, And.right⟩
  indexed := hclosed.indexed.dropping ht hl hne
  authors := hclosed.authors.dropping hne

/-- **Wherever an abort stops**, the process mirrors the memory store without the layer; a row that is left is
an orphan's. -/
theorem Mirrors.losing (h : process.Mirrors store orphans) (hl : process.opened.lookup layer = some handle)
    (done : Nat) : (process.losing layer done).Mirrors { store with staged := store.staged.erase layer }
      {other | other ∈ orphans ∨ other = layer ∧ done < 5} := by
  obtain ⟨staged, -, hw, rfl, hout⟩ := h.writing hl
  have hopen := hw.not_committed
  have hcommitted (other : LayerId) :
      (process.losing handle.id done).conn.isCommitted other = process.conn.isCommitted other :=
    isCommitted_dropping hopen other
  have hlayers {other : LayerId} (hne : other ≠ handle.id) :
      (process.losing handle.id done).conn.layers.lookup other = process.conn.layers.lookup other :=
    lookup_dropping_layers_of_ne hne
  have hkept {other : LayerId} {row : LayerRow}
      (hr : (process.losing handle.id done).conn.layers.lookup other = some row) :
      process.conn.layers.lookup other = some row := by
    have hr := (lookup_dropping_layers ..).symm.trans hr
    split at hr
    · cases hr
    · exact hr
  have hstaged {other : LayerId} (hne : other ≠ handle.id) :
      (store.staged.erase handle.id).lookup other = store.staged.lookup other :=
    (AssocMap.lookup_erase_eq ..).trans (if_neg hne)
  refine
    { tables := h.tables.dropping hopen done
      members := Owned.dropping h.members hopen done
      sound := h.sound.erase_staged
      next := h.next
      branches := (congrArg Database.branches (dropping_eq ..)).trans h.branches
      branchIds := h.branchIds
      describes := fun hr hd => h.describes (hkept hr) hd
      metadata := fun hr => h.metadata (hkept hr)
      described := fun {other} hd => ?_
      events := fun id event => ?_
      minted := fun {id event} he => ?_
      committed := fun {other membership} hm => ?_
      of_committed := fun {other} hc => h.of_committed (hcommitted other ▸ hc)
      opened := fun {other found} hf => ?_
      closed := fun {other} hin => ?_
      staged := fun {other} hsome => ?_
      owned := fun {other} hrow => ?_ }
  · -- Nothing was said yet of the layer that goes.
    have hne : other ≠ handle.id := by
      rintro rfl
      rw [show store.layerMeta.lookup handle.id = none from (h.metadata hw.row).symm] at hd
      cases hd
    rw [hlayers hne]
    exact h.described hd
  · rw [hcommitted, h.events]
    show _ ↔ (process.conn.dropping handle.id done).events.lookup id = some event ∧ _
    rw [lookup_dropping_iff, and_assoc]
    refine and_congr_right fun _ => ⟨fun hc => ⟨?_, hc⟩, And.right⟩
    rintro - heq
    exact hopen (heq ▸ hc)
  · obtain ⟨hold, hother⟩ := lookup_dropping_iff.1 he
    obtain ⟨hle, hrow⟩ := h.minted hold
    refine ⟨hle, ?_⟩
    rwa [show (process.losing handle.id done).conn.layers.lookup event.authored = _ from lookup_dropping_layers ..,
      if_neg fun hgone => hother (by omega) hgone.2]
  · obtain ⟨hc, hb, hheld, hdefs⟩ := h.committed hm
    have hne : other ≠ handle.id := fun heq => hopen (heq ▸ hc)
    exact ⟨(hcommitted other).trans hc, (branchOf_dropping hne).trans hb, holds_dropping hne hheld,
      defs_dropping hne hdefs⟩
  · have hf := (AssocMap.lookup_erase_eq ..).symm.trans hf
    split at hf
    · cases hf
    · rename_i hne
      obtain ⟨hid, staged', hs', hw'⟩ := h.opened hf
      exact ⟨hid, staged', (hstaged hne).trans hs', writing_dropping h.tables hopen (hid ▸ hne) hw' done⟩
  · have hne : other ≠ handle.id := by
      rintro rfl
      exact hout hin
    obtain ⟨staged', hs', hclosed⟩ := h.closed hin
    exact ⟨staged', (hstaged hne).trans hs', closed_dropping h.tables hopen hne hclosed done⟩
  · have hne : other ≠ handle.id := by
      rintro rfl
      simp at hsome
    rw [hstaged hne] at hsome
    refine (h.staged hsome).imp_left fun ho => ?_
    rw [show (process.losing handle.id done).opened.lookup other = _ from AssocMap.lookup_erase_eq .., if_neg hne, ho]
  · by_cases hne : other = handle.id
    · refine .inr (.inr (.inr ⟨hne, ?_⟩))
      by_contra hd
      rw [show (process.losing handle.id done).conn.layers.lookup other = _ from lookup_dropping_layers ..,
        if_pos ⟨by omega, hne⟩] at hrow
      cases hrow
    · rw [hlayers hne] at hrow
      rw [hstaged hne]
      exact (h.owned hrow).imp_right (Or.imp_right Or.inl)

theorem Mirrors.leaves_losing (h : process.Mirrors store orphans) (hl : process.opened.lookup layer = some handle)
    (done : Nat) : process.Leaves (process.losing layer done) := by
  obtain ⟨_, -, hw, rfl, -⟩ := h.writing hl
  intro other hs
  have hne := hs.ne hl
  have hlookup : (process.conn.dropping handle.id done).layers.lookup other = process.conn.layers.lookup other :=
    lookup_dropping_layers_of_ne hne
  refine ⟨⟨(congrArg Option.isSome hlookup).trans hs.row, ?_, hs.unsealed⟩, ⟨hlookup, holds_dropping hne,
    defs_dropping hne, fun hm hid => h.tables.lookup_dropping hw.not_committed hne hm hid⟩⟩
  exact (AssocMap.lookup_erase_eq ..).trans ((if_neg hne).trans hs.unopened)

theorem abortFirst_run (hl : process.opened.lookup layer = some handle) (hid : handle.id = layer) (done : Nat) :
    spending layer (SqliteOpenLayer.abortFirst done) process = .ok () (process.losing layer done) := by
  subst hid
  have hrun : through handle.id (SqliteOpenLayer.abortFirst done) process =
      .ok () { process with
        storage := { process.storage with conn := process.conn.dropping handle.id done }
        opened := process.opened.insert handle.id { handle with pending := [] } } := by
    unfold through SqliteOpenLayer.abortFirst
    rw [hl]
  unfold spending
  rw [hrun]
  dsimp only
  rw [AssocMap.erase_insert]
  rfl

theorem Mirrors.abort (h : process.Mirrors store orphans) (hopen : (process.opened.lookup layer).isSome) :
    Agree process (abort layer process) (MemoryStorage.abort layer store) orphans := by
  obtain ⟨handle, hl⟩ := Option.isSome_iff_exists.1 hopen
  have hm := h.losing hl 5
  rw [show {other | other ∈ orphans ∨ other = layer ∧ 5 < 5} = orphans by ext; simp] at hm
  rw [show SqliteProcess.abort layer process = _ from abortFirst_run hl (h.opened hl).1 5]
  exact ⟨rfl, hm, h.leaves_losing hl 5⟩

/-! ### What is not written through a handle -/

/-- A process that has recorded the metadata of a layer. -/
def describing (process : SqliteProcess) (row : LayerRow) (described : Layer) : SqliteProcess :=
  { process with
    storage := { process.storage with
      conn := { process.conn with
        layers := process.conn.layers.insert described.id { row with metadata := some described } } } }

theorem Mirrors.describing (h : process.Mirrors store orphans) {described : Layer} {row : LayerRow}
    (hin : described.id ∈ process.sealedLayers) (hrow : process.conn.layers.lookup described.id = some row)
    (hb : described.branch = row.branch) :
    (process.describing row described).Mirrors
      { store with layerMeta := store.layerMeta.insert described.id described } orphans := by
  obtain ⟨_, -, hsealed⟩ := h.closed hin
  have hlookup (other : LayerId) : (process.describing row described).conn.layers.lookup other =
      if other = described.id then some { row with metadata := some described }
      else process.conn.layers.lookup other := AssocMap.lookup_insert_eq ..
  have hbranch (other : LayerId) :
      (process.describing row described).conn.branchOf other = process.conn.branchOf other :=
    branchOf_replaced hrow { row with metadata := some described } rfl other
  have hcommitted (other : LayerId) :
      (process.describing row described).conn.isCommitted other = process.conn.isCommitted other :=
    isCommitted_replaced hrow { row with metadata := some described } Iff.rfl other
  have hrows {other : LayerId} : (process.conn.layers.lookup other).isSome ↔
      ((process.describing row described).conn.layers.lookup other).isSome := by
    rw [hlookup]
    split
    · subst other
      rw [hrow]
      rfl
    · rfl
  refine
    { tables := h.tables.replaced (by rw [branchOf, hrow]; rfl) (fun hc => ?_) fun _ => hsealed.indexed
      members := h.members.replaced fun _ => hsealed.authors
      sound := h.sound.congr rfl rfl rfl rfl rfl
      next := h.next
      branches := h.branches
      branchIds := h.branchIds
      describes := fun {other found layer} hr hd => ?_
      metadata := fun {other found} hr => ?_
      described := fun {other} hd => ?_
      events := fun id event => by rw [hcommitted]; exact h.events id event
      minted := fun he => ⟨(h.minted he).1, hrows.1 (h.minted he).2⟩
      committed := fun {other membership} hm => ?_
      of_committed := fun {other} hc => h.of_committed (hcommitted other ▸ hc)
      opened := fun {other found} hf => ?_
      closed := fun {other} hin => ?_
      staged := h.staged
      owned := fun hr => h.owned (hrows.2 hr) }
  · obtain ⟨row', hr, hstate⟩ := isCommitted_iff.1 hc
    obtain rfl := Option.some.inj (hrow.symm.trans hr)
    exact hstate
  · rw [hlookup] at hr
    split at hr
    · cases hr
      cases hd
      subst other
      exact ⟨rfl, hb⟩
    · exact h.describes hr hd
  · show found.metadata = AList.lookup other (AList.insert described.id described store.layerMeta)
    rw [AssocMap.lookup_insert_eq]
    rw [hlookup] at hr
    split at hr
    · rename_i heq
      cases hr
      rw [if_pos heq]
    · rename_i hne
      rw [if_neg hne]
      exact h.metadata hr
  · have hd : (AList.lookup other (AList.insert described.id described store.layerMeta)).isSome := hd
    rw [AssocMap.lookup_insert_eq] at hd
    rw [← hrows]
    split at hd
    · subst other
      rw [hrow]
      rfl
    · exact h.described hd
  · obtain ⟨hc, hb, hheld⟩ := h.committed hm
    exact ⟨(hcommitted other).trans hc, (hbranch other).trans hb, hheld⟩
  · obtain ⟨staged, hs, hw, hid, hout⟩ := h.writing hf
    refine ⟨hid, staged, hs, hw.congr rfl ?_ (fun _ hc => (hcommitted _).trans hc) rfl (fun _ _ => rfl) fun _ hd => hd⟩
    refine (hlookup _).trans (if_neg ?_)
    rintro heq
    exact hout (hid ▸ heq ▸ hin)
  · obtain ⟨staged, hs, hclosed⟩ := h.closed hin
    refine ⟨staged, hs, hclosed.congr rfl (fun found hr => ?_) rfl (fun _ _ => rfl) fun _ hd => hd⟩
    rw [hlookup]
    split
    · subst other
      obtain rfl := Option.some.inj (hrow.symm.trans hr)
      exact ⟨_, rfl, rfl, rfl⟩
    · exact ⟨found, hr, rfl, rfl⟩

theorem Mirrors.putLayerMeta (h : process.Mirrors store orphans) {described : Layer}
    (hin : described.id ∈ process.sealedLayers)
    (hb : process.conn.branchOf described.id = some described.branch) :
    Agree process (onStorage (SqliteStorage.putLayerMeta described) process)
      (MemoryStorage.putLayerMeta described store) orphans := by
  obtain ⟨staged, -, hclosed⟩ := h.closed hin
  obtain ⟨row, hrow, -⟩ := hclosed.row
  have hbranch : described.branch = row.branch := by
    rw [branchOf, hrow] at hb
    exact (Option.some.inj hb).symm
  have hm := h.describing hin hrow hbranch
  unfold onStorage SqliteStorage.putLayerMeta MemoryStorage.putLayerMeta
  rw [show process.storage.conn = process.conn from rfl, hrow]
  refine ⟨rfl, hm, fun other hs => ?_⟩
  have hlookup : (process.describing row described).conn.layers.lookup other = process.conn.layers.lookup other :=
    (AssocMap.lookup_insert_eq ..).trans (if_neg (hs.ne_sealed hin))
  exact ⟨⟨(congrArg Option.isSome hlookup).trans hs.row, hs.unopened, hs.unsealed⟩,
    ⟨hlookup, id, id, fun _ _ => rfl⟩⟩

theorem Mirrors.putBranch (h : process.Mirrors store orphans) (branch : Branch) :
    Agree process (onStorage (SqliteStorage.putBranch branch) process)
      (MemoryStorage.putBranch branch store) orphans := by
  refine ⟨rfl, ?_, fun other hs => ⟨⟨hs.row, hs.unopened, hs.unsealed⟩, ⟨rfl, id, id, fun _ _ => rfl⟩⟩⟩
  exact
    { h with
      tables := h.tables.congr rfl rfl rfl rfl (fun _ => rfl) (fun _ hc => hc) fun _ hc => h.tables.projects hc
      members := h.members.congr rfl rfl fun _ hc => h.members.authors hc
      sound := h.sound.congr rfl rfl rfl rfl rfl
      branches := by
        show AList.insert branch.id branch process.conn.branches = AList.insert branch.id branch store.branches
        rw [h.branches]
      branchIds := fun {id found} hl => by
        change AList.lookup id (AList.insert branch.id branch store.branches) = some found at hl
        rw [AssocMap.lookup_insert_eq] at hl
        split at hl
        · rename_i heq
          obtain rfl := Option.some.inj hl
          exact heq.symm
        · exact h.branchIds hl
      opened := fun hf => by
        obtain ⟨hid, staged, hs, hw⟩ := h.opened hf
        exact ⟨hid, staged, hs, hw.congr rfl rfl (fun _ hc => hc) rfl (fun _ _ => rfl) fun _ hd => hd⟩
      closed := fun hin => by
        obtain ⟨staged, hs, hclosed⟩ := h.closed hin
        exact ⟨staged, hs, hclosed.congr rfl (fun row hr => ⟨row, hr, rfl, rfl⟩) rfl (fun _ _ => rfl) fun _ hd => hd⟩ }

theorem Mirrors.rebuildReadIndex (h : process.Mirrors store orphans) :
    Agree process (onStorage SqliteStorage.rebuildReadIndex process)
      (MemoryStorage.rebuildReadIndex store) orphans := by
  obtain ⟨reads, hrun, hsound⟩ := h.sound.rebuildReadIndex
  rw [hrun]
  refine ⟨rfl, ?_, fun other hs => ⟨⟨hs.row, hs.unopened, hs.unsealed⟩, ⟨rfl, id, id, fun _ _ => rfl⟩⟩⟩
  exact
    { h with
      tables := h.tables.reindexed
      members := h.members.congr rfl rfl fun _ hc => h.members.authors hc
      sound := hsound
      opened := fun hf => by
        obtain ⟨hid, staged, hs, hw⟩ := h.opened hf
        exact ⟨hid, staged, hs, hw.congr rfl rfl (fun _ hc => hc) rfl
          (fun _ hkey => hw.indexed.lookup_reindexed h.tables hkey) fun _ hd => hd⟩
      closed := fun hin => by
        obtain ⟨staged, hs, hclosed⟩ := h.closed hin
        exact ⟨staged, hs, hclosed.congr rfl (fun row hr => ⟨row, hr, rfl, rfl⟩) rfl
          (fun _ hkey => hclosed.indexed.lookup_reindexed h.tables hkey) fun _ hd => hd⟩ }

/-- **Whatever is called, both take it or both refuse it**, and the process mirrors the memory store again. -/
theorem Mirrors.call (h : process.Mirrors store orphans) {made : StoreCall} (hp : process.Permits made)
    (hfree : ∀ branch layer, made = .openLayer branch layer → layer ∉ orphans) :
    Agree process (call made process) (MemoryStorage.answering made store) orphans := by
  cases made with
  | openLayer branch layer => exact (h.openLayer branch (hfree _ _ rfl)).returning fun _ => none
  | authorEvent layer cell draft => exact (h.authorEvent hp cell draft).returning some
  | adoptEvent layer event => exact (h.adoptEvent hp.1 hp.2).returning fun _ => none
  | includeEvent layer id =>
    obtain ⟨hopen, event, he, hc⟩ := hp
    exact (h.includeEvent hopen he hc).returning fun _ => none
  | putDef layer event => exact (h.putDef hp event).returning fun _ => none
  | sealLayer layer => exact (h.sealLayer hp).returning fun _ => none
  | abort layer => exact (h.abort hp).returning fun _ => none
  | putLayerMeta layer => exact (h.putLayerMeta hp.1 hp.2).returning fun _ => none
  | putBranch branch => exact (h.putBranch branch).returning fun _ => none
  | commitLayer layer => exact (h.commitLayer hp).returning fun _ => none
  | rebuildReadIndex => exact h.rebuildReadIndex.returning fun _ => none

/-! ### Reading the process off the memory store -/

theorem Agree.run {α : Type} {result : EStateM.Result BorgError SqliteProcess α} {a : α} {store' : MemoryStorage}
    (h : Agree process result (.ok a store') orphans) :
    ∃ process', result = .ok a process' ∧ process'.Mirrors store' orphans := by
  cases result with
  | ok found process' =>
    obtain rfl := Option.some.inj h.answer
    exact ⟨process', rfl, h.mirrors⟩
  | error err process' => cases h.answer

theorem Mirrors.opened_of_staged (h : process.Mirrors store orphans) (hs : store.staged.lookup layer = some staged)
    (hu : staged.isSealed = false) : (process.opened.lookup layer).isSome := by
  refine (h.staged (Option.isSome_iff_exists.2 ⟨_, hs⟩)).resolve_right fun hin => ?_
  obtain ⟨found, hs', hclosed⟩ := h.closed hin
  obtain rfl := Option.some.inj (hs.symm.trans hs')
  rw [hclosed.closed] at hu
  cases hu

theorem Mirrors.sealed_of_staged (h : process.Mirrors store orphans) (hs : store.staged.lookup layer = some staged)
    (hu : staged.isSealed = true) : layer ∈ process.sealedLayers := by
  refine (h.staged (Option.isSome_iff_exists.2 ⟨_, hs⟩)).resolve_left fun ho => ?_
  obtain ⟨handle, hl⟩ := Option.isSome_iff_exists.1 ho
  obtain ⟨found, hs', hw, -⟩ := h.writing hl
  obtain rfl := Option.some.inj (hs.symm.trans hs')
  rw [hw.unsealed] at hu
  cases hu

/-- An identity the memory store has not heard of is nowhere in the process, which has rows of nothing else. -/
theorem Mirrors.unheard (h : process.Mirrors store ∅) (hu : store.Unheard id) : process.Unheard id := by
  have hwriting {layer : LayerId} {handle : SqliteOpenLayer} (hl : process.opened.lookup layer = some handle)
      (event : Event) (hin : process.conn.events.lookup event.id = some event ∧ event.authored = handle.id ∨
        event ∈ handle.pending.filterMap PendingRow.authored) : event.id ≠ id := by
    obtain ⟨staged, hs, hw, -⟩ := h.writing hl
    exact hu.2 _ _ hs _ ((hw.authored event).2 hin)
  refine ⟨?_, fun layer handle hl event hin => hwriting hl event (Or.inr hin)⟩
  cases he : process.conn.events.lookup id with
  | none => rfl
  | some event =>
    have hid := h.tables.event_id he
    rcases h.owned (h.minted he).2 with hs | hm | horphan
    · rcases h.staged hs with ho | hin
      · obtain ⟨handle, hl⟩ := Option.isSome_iff_exists.1 ho
        exact absurd hid (hwriting hl event (Or.inl ⟨hid ▸ he, (h.opened hl).1.symm⟩))
      · obtain ⟨staged, hs, hclosed⟩ := h.closed hin
        exact absurd hid (hu.2 _ _ hs _ ((hclosed.authored event).2 ⟨hid ▸ he, rfl⟩))
    · obtain ⟨membership, hm⟩ := Option.isSome_iff_exists.1 hm
      have hstored := (h.events _ _).2 ⟨he, (h.committed hm).1⟩
      rw [hu.1] at hstored
      cases hstored
    · exact absurd horphan (Set.notMem_empty _)

/-! ### Runs -/

/-- What the rows of the tables and a memory store have in common.  Rows that are in no particular order are the
same up to order. -/
structure SameTables (db : Database) (store : MemoryStorage) : Prop where
  getCell : ∀ path cell version, store.getCell path cell version = .ok (db.getCell path cell version)
  cellVersions : ∀ path cell, (db.cellVersions path cell).Perm (store.cellVersions path cell)
  scanBuffer : ∀ path buffer, ∃ rows, store.scanBuffer path buffer = .ok rows ∧
    (db.scanBuffer path buffer).Perm rows
  readBranches : db.readBranches = store.branches.values
  committed : ∀ layer, db.isCommitted layer ↔ (store.members.lookup layer).isSome
  readMembership : ∀ layer, db.isCommitted layer → db.readMembership layer = store.readMembership layer
  readLayer : ∀ layer, db.isCommitted layer → store.readLayer layer = .ok (db.readLayer layer)
  readDefLayer : ∀ layer, db.isCommitted layer → db.readDefLayer layer = store.readDefLayer layer

theorem Mirrors.sameTables (h : process.Mirrors store orphans) : SameTables process.conn store where
  getCell := h.sameRecords.getCell h.tables h.sound
  cellVersions := h.sameRecords.cellVersions h.tables h.sound
  scanBuffer := h.sameRecords.scanBuffer h.tables h.sound
  readBranches := by rw [readBranches, h.branches]
  committed layer := by
    refine ⟨h.of_committed, fun hm => ?_⟩
    obtain ⟨membership, hm⟩ := Option.isSome_iff_exists.1 hm
    exact (h.committed hm).1
  readMembership layer hc := by
    obtain ⟨membership, hm⟩ := Option.isSome_iff_exists.1 (h.of_committed hc)
    rw [Database.readMembership, (h.committed hm).2.2.1.ofGroup, MemoryStorage.readMembership, hm]
  readLayer layer hc := by rw [h.sound.readLayer, h.readLayer hc]
  readDefLayer layer hc := by
    obtain ⟨membership, hm⟩ := Option.isSome_iff_exists.1 (h.of_committed hc)
    rw [Database.readDefLayer, (h.committed hm).2.2.2.ofGroup]

/-- The two stores answer reads alike: what the tables answer is what the memory store does, put through the
text columns, and where a text is not read back there is no answer. -/
structure SameAnswers (texts : Texts) (db : Database) (store : MemoryStorage) : Prop where
  getCell : ∀ path cell version,
    texts.getCell db path cell version = do (← store.getCell path cell version).mapM texts.toLanded
  cellVersions : ∀ path cell, (db.cellVersions path cell).Perm (store.cellVersions path cell)
  scanBuffer : ∀ path buffer,
    SameRows (texts.scanBuffer db path buffer) (do (← store.scanBuffer path buffer).mapM texts.toEvent)
  readBranches : texts.readBranches db = store.branches.values.mapM texts.branch.carry
  committed : ∀ layer, db.isCommitted layer ↔ (store.members.lookup layer).isSome
  readMembership : ∀ layer, db.isCommitted layer → db.readMembership layer = store.readMembership layer
  readLayer : ∀ layer, db.isCommitted layer →
    texts.readLayer db layer = do (← store.readLayer layer).mapM texts.toEvent
  readDefLayer : ∀ layer, db.isCommitted layer →
    texts.readDefLayer db layer = (store.readDefLayer layer).mapM texts.defEvent.carry

theorem SameTables.sameAnswers {db : Database} (h : SameTables db store) (texts : Texts) :
    SameAnswers texts db store where
  getCell path cell version := by
    rw [h.getCell]
    rfl
  cellVersions := h.cellVersions
  scanBuffer path buffer := by
    obtain ⟨rows, hrows, hp⟩ := h.scanBuffer path buffer
    rw [hrows]
    exact .mapM texts.toEvent hp
  readBranches := by rw [Texts.readBranches, h.readBranches]
  committed := h.committed
  readMembership := h.readMembership
  readLayer layer hc := by
    rw [h.readLayer layer hc]
    rfl
  readDefLayer layer hc := by rw [Texts.readDefLayer, h.readDefLayer layer hc]

/-- A process and a memory store on which the same calls have been made from the beginning. -/
inductive Lockstep : SqliteProcess → MemoryStorage → Prop where
  | new : Lockstep new .new
  | call {process : SqliteProcess} {store : MemoryStorage} {made : StoreCall} : Lockstep process store →
      process.Permits made →
      Lockstep (Calls.left (call made process)) (Calls.left (MemoryStorage.answering made store))

theorem Lockstep.mirrors (h : Lockstep process store) : process.Mirrors store ∅ := by
  induction h with
  | new => exact mirrors_new
  | call _ hp ih => exact (ih.call hp fun _ _ _ hin => hin).mirrors

theorem Lockstep.calls (h : Lockstep process store) {calls : List StoreCall} (hp : process.PermitsAll calls) :
    Lockstep (process.after calls) (store.after calls) := by
  induction calls generalizing process store with
  | nil => exact h
  | cons made rest ih => exact ih (h.call hp.1) hp.2

namespace Sample

def name : CellRef := ⟨.objectProp "Acme" "name", .pid (.allocated .object 1 1 1)⟩

def label : CellRef := ⟨.objectProp "Acme" "label", .pid (.allocated .object 1 1 1)⟩

def draft (n : Int64) : EventDraft := ⟨.int n, 4, .source, none⟩

/-- A layer of defs and a layer of three events, two of them of one cell. -/
def landing : List StoreCall :=
  [.putBranch ⟨1, some "main", none⟩,
    .openLayer 1 4, .putDef 4 (.declareField "Acme" "name" .int 1 .source), .sealLayer 4,
    .putLayerMeta ⟨4, 1, .defs, .source, .sealed, none, []⟩, .commitLayer 4,
    .openLayer 1 5, .authorEvent 5 name (draft 7), .authorEvent 5 label (draft 8), .authorEvent 5 name (draft 9),
    .sealLayer 5, .putLayerMeta ⟨5, 1, .value, .source, .sealed, some 4, []⟩, .commitLayer 5]

def landed : SqliteProcess := new.after landing

theorem landing_permitted : new.PermitsAll landing :=
  ⟨trivial, trivial, rfl, rfl, ⟨List.mem_cons_self, rfl⟩, List.mem_cons_self, trivial, rfl, rfl, rfl, rfl,
    ⟨List.mem_cons_self, rfl⟩, List.mem_cons_self, trivial⟩

/-- A layer that names an event of the one before and authors an infinite double. -/
def sealing : List StoreCall :=
  [.openLayer 1 6, .includeEvent 6 1, .authorEvent 6 label ⟨.double 0x7ff0000000000000, 4, .source, none⟩,
    .sealLayer 6, .putLayerMeta ⟨6, 1, .value, .source, .sealed, some 5, []⟩]

/-- The JSON of what the two layers write; nothing else is read. -/
def json {α : Type} [DecidableEq α] (texts : List (α × String)) : Json α where
  encode a := match texts.find? fun row => row.1 = a with
    | some row => row.2
    | none => "\x7b\"Double\":null\x7d"
  decode text := match texts.find? fun row => row.2 = text with
    | some row => .ok row.1
    | none => .error (.storage "invalid type: null, expected f64")

def texts : Texts where
  buffer := json [(name.buffer, "\x7b\"ObjectProp\":[\"Acme\",\"name\"]\x7d"),
    (label.buffer, "\x7b\"ObjectProp\":[\"Acme\",\"label\"]\x7d")]
  key := json [(name.key,
    "\x7b\"Pid\":\x7b\"Allocated\":\x7b\"kind\":\"Object\",\"branch\":1,\"allocator\":1,\"counter\":1\x7d\x7d\x7d")]
  value := json [(.int 7, "\x7b\"Int\":7\x7d"), (.int 8, "\x7b\"Int\":8\x7d"), (.int 9, "\x7b\"Int\":9\x7d")]
  derivation := json []
  defEvent := json [(.declareField "Acme" "name" .int 1 .source, "\x7b\"DeclareField\":\x7b\"struct_name\":\"Acme\"," ++
    "\"field\":\"name\",\"ty\":\"Int\",\"repo\":1,\"ownership\":\"Source\"\x7d\x7d")]
  layer := json []
  branch := json [(⟨1, some "main", none⟩, "\x7b\"id\":1,\"name\":\"main\",\"origin\":null\x7d")]

end Sample

/-- Once it is, the double is there and cannot be read. -/
example : Sample.texts.getCell (Sample.landed.after (Sample.sealing ++ [.commitLayer 6])).conn ⟨[(1, 6)]⟩ Sample.label 4
    = .error (.storage "invalid type: null, expected f64") := by decide +kernel

end SqliteProcess

end BorgCore
