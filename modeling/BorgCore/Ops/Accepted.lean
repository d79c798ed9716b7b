import BorgCore.Ops.Restored

/-!
# What a stream is taken for

Whatever lines an import is given, by whatever codec, a registry it takes them for is well formed: every layer in
its tables is committed under its own metadata, a layer has value events or def events, a member is an event that is
there, and content is interned under its hash.
-/

namespace BorgCore

namespace Database

variable {db db' db'' : Database} {layer : LayerId}

/-- What writing membership rows of one layer does to the tables. -/
structure Appended (db db' : Database) (layer : LayerId) : Prop where
  layers : db'.layers = db.layers
  defEvents : db'.defEvents = db.defEvents
  events : ∀ {id}, (db.events.lookup id).isSome → (db'.events.lookup id).isSome
  members : ∀ {key id}, db'.layerEvents.lookup key = some id →
    db.layerEvents.lookup key = some id ∨ key.1 = layer ∧ (db'.events.lookup id).isSome

theorem Appended.refl (db : Database) (layer : LayerId) : db.Appended db layer := ⟨rfl, rfl, id, Or.inl⟩

theorem Appended.trans (h : db.Appended db' layer) (h' : db'.Appended db'' layer) : db.Appended db'' layer where
  layers := h'.layers.trans h.layers
  defEvents := h'.defEvents.trans h.defEvents
  events hs := h'.events (h.events hs)
  members hl := by
    rcases h'.members hl with hl | hnew
    · exact (h.members hl).imp_right fun hnew => ⟨hnew.1, h'.events hnew.2⟩
    · exact Or.inr hnew

theorem insertRow_appended {branch : BranchId} {row : PendingRow} (h : insertRow branch layer db row = .ok db') :
    db.Appended db' layer := by
  unfold insertRow at h
  split at h
  · cases h
  · split at h
    · cases h
    · split at h
      · cases h
      · rename_i event he
        cases h
        refine ⟨rfl, rfl, fun {id} hs => ?_, fun {key id} hl => ?_⟩
        · show ((adding db.events row).lookup id).isSome
          unfold adding
          split
          · exact AssocMap.isSome_lookup_insert hs _ _
          · exact hs
        · have hl := (AssocMap.lookup_insert_eq ..).symm.trans hl
          split at hl
          · rename_i heq
            obtain rfl := Option.some.inj hl
            refine Or.inr ⟨congrArg Prod.fst heq, ?_⟩
            show ((adding db.events row).lookup row.event).isSome
            rw [he]
            rfl
          · exact Or.inl hl

theorem rows_appended {branch : BranchId} {rows : List PendingRow}
    (h : rows.foldlM (insertRow branch layer) db = .ok db') : db.Appended db' layer := by
  induction rows generalizing db with
  | nil =>
    cases h
    exact .refl _ layer
  | cons row rest ih =>
    rw [List.foldlM_cons] at h
    obtain ⟨next, hrow, hrest⟩ := Calls.except_bind_eq_ok h
    exact (insertRow_appended hrow).trans (ih hrest)

end Database

namespace SqliteOpenLayer

variable {state state' : Handled}

theorem flush_appended (h : flush state = .ok () state') :
    state.storage.conn.Appended state'.storage.conn state.handle.id ∧
      state'.handle = { state.handle with pending := [] } ∧
      (state.handle.pending = [] → state'.storage.conn = state.storage.conn) := by
  unfold flush at h
  dsimp only at h
  split at h
  · rename_i conn hrun
    cases h
    refine ⟨Database.rows_appended hrun, rfl, fun hempty => ?_⟩
    rw [hempty] at hrun
    cases hrun
    rfl
  · cases h

theorem push_appended {event : EventId} {authored : Option Event} (h : push event authored state = .ok () state') :
    state.storage.conn.Appended state'.storage.conn state.handle.id ∧ state'.handle.id = state.handle.id := by
  unfold push at h
  dsimp only at h
  split at h
  · obtain ⟨happended, hhandle, -⟩ := flush_appended h
    exact ⟨happended, by rw [hhandle]⟩
  · cases h
    exact ⟨.refl _ _, rfl⟩

theorem adoptEvent_appended {event : Event} (h : adoptEvent event state = .ok () state') :
    state.storage.conn.Appended state'.storage.conn state.handle.id ∧ state'.handle.id = state.handle.id := by
  unfold adoptEvent at h
  split at h
  · cases h
  · exact @push_appended ⟨{ state.storage with nextEvent := max state.storage.nextEvent (event.id + 1) },
      state.handle⟩ _ _ _ h

end SqliteOpenLayer

theorem SqliteProcess.through_eq_ok {α : Type} {layer : LayerId} {call : HandleM α} {a : α}
    {process process' : SqliteProcess} (h : through layer call process = .ok a process') : ∃ handle state,
      process.opened.lookup layer = some handle ∧ call ⟨process.storage, handle⟩ = .ok a state ∧
        process' = { process with storage := state.storage, opened := process.opened.insert layer state.handle } := by
  unfold through at h
  split at h
  · cases h
  · rename_i handle hl
    split at h
    · rename_i found state hrun
      cases h
      exact ⟨handle, state, hl, hrun, rfl⟩
    · cases h

namespace Stream

open Database

variable {hash : List UInt8 → Vector UInt8 32} {conn conn' : Database} {opened : AssocMap LayerId SqliteOpenLayer}
  {block : Option Layer} {layer : Layer} {handle : SqliteOpenLayer} {state state' : Importing} {line : Nat}
  {layers : AssocMap LayerId BorgCore.LayerRow} {id : LayerId} {kind : LayerKind}

/-! ### The tables of an import -/

/-- A layer is of a kind, by its metadata or as the block that is open. -/
def OfKind (layers : AssocMap LayerId BorgCore.LayerRow) (block : Option Layer) (id : LayerId) (kind : LayerKind) :
    Prop :=
  ∃ layer, layer.id = id ∧ layer.kind = kind ∧
    (block = some layer ∨ ∃ row, layers.lookup id = some row ∧ row.metadata = some layer)

/-- Every layer in the tables is committed under its own metadata, the block that is open aside; what is written is
of the layer's kind, and members are events that are there. -/
structure Filed (conn : Database) (opened : AssocMap LayerId SqliteOpenLayer) (block : Option Layer) : Prop where
  rows : ∀ {id row}, conn.layers.lookup id = some row → (∃ layer, block = some layer ∧ layer.id = id) ∨
    row.state = .committed ∧ ∃ layer, row.metadata = some layer ∧ layer.id = id ∧ layer.branch = row.branch
  current : ∀ {layer}, block = some layer → conn.layers.lookup layer.id = some ⟨layer.branch, .open, none⟩
  handles : ∀ {id handle}, opened.lookup id = some handle → handle.id = id ∧
    ∃ layer, block = some layer ∧ layer.id = id ∧ (handle.pending ≠ [] → layer.kind = .value)
  members : ∀ {key id}, conn.layerEvents.lookup key = some id →
    (conn.events.lookup id).isSome ∧ OfKind conn.layers block key.1 .value
  defs : ∀ {key event}, conn.defEvents.lookup key = some event → OfKind conn.layers block key.1 .defs

theorem filed_empty : Filed .empty ∅ none where
  rows h := by simp [empty] at h
  current h := by cases h
  handles h := by simp at h
  members h := by simp [empty] at h
  defs h := by simp [empty] at h

theorem Filed.write (h : Filed conn opened (some layer)) (hk : layer.kind = .value)
    (ha : conn.Appended conn' layer.id) (hid : handle.id = layer.id) :
    Filed conn' (opened.insert layer.id handle) (some layer) where
  rows hl := h.rows (ha.layers ▸ hl)
  current hb := by
    rw [ha.layers]
    exact h.current hb
  handles hl := by
    rw [AssocMap.lookup_insert_eq] at hl
    split at hl
    · rename_i heq
      cases hl
      exact ⟨hid.trans heq.symm, layer, rfl, heq.symm, fun _ => hk⟩
    · exact h.handles hl
  members hl := by
    rw [ha.layers]
    rcases ha.members hl with hold | ⟨heq, hsome⟩
    · exact ⟨ha.events (h.members hold).1, (h.members hold).2⟩
    · exact ⟨hsome, layer, heq.symm, hk, Or.inl rfl⟩
  defs hl := by
    rw [ha.layers]
    exact h.defs (ha.defEvents ▸ hl)

theorem Filed.define (h : Filed conn opened (some layer)) (hk : layer.kind = .defs)
    (hl : opened.lookup layer.id = some handle) (event : DefEvent) :
    Filed { conn with defEvents := conn.defEvents.insert (handle.id, handle.defs) event }
      (opened.insert layer.id { handle with defs := handle.defs + 1 }) (some layer) where
  rows := h.rows
  current := h.current
  handles hf := by
    rw [AssocMap.lookup_insert_eq] at hf
    split at hf
    · rename_i heq
      cases hf
      subst heq
      exact ⟨(h.handles hl).1, (h.handles hl).2⟩
    · exact h.handles hf
  members := h.members
  defs hf := by
    have hf := (AssocMap.lookup_insert_eq ..).symm.trans hf
    split at hf
    · rename_i heq
      rw [heq]
      exact ⟨layer, (h.handles hl).1.symm, hk, Or.inl rfl⟩
    · exact h.defs hf

theorem Filed.opening (h : Filed conn opened none) (hfree : conn.layers.lookup layer.id = none) :
    Filed { conn with layers := conn.layers.insert layer.id ⟨layer.branch, .open, none⟩ }
      (opened.insert layer.id ⟨layer.id, layer.branch, 0, 0, []⟩) (some layer) := by
  have hkept {id : LayerId} {kind : LayerKind} (hof : OfKind conn.layers none id kind) :
      OfKind (conn.layers.insert layer.id ⟨layer.branch, .open, none⟩) (some layer) id kind := by
    obtain ⟨found, hid, hk, hor⟩ := hof
    obtain ⟨row, hrow, hmeta⟩ := hor.resolve_left (by simp)
    refine ⟨found, hid, hk, Or.inr ⟨row, ?_, hmeta⟩⟩
    rw [AssocMap.lookup_insert_eq, if_neg, hrow]
    rintro rfl
    rw [hfree] at hrow
    cases hrow
  refine ⟨fun {id row} hl => ?_, fun {found} hb => ?_, fun {id found} hl => ?_, fun hl => ?_,
    fun hl => hkept (h.defs hl)⟩
  · have hl := (AssocMap.lookup_insert_eq ..).symm.trans hl
    split at hl
    · exact Or.inl ⟨layer, rfl, Eq.symm ‹_›⟩
    · exact Or.inr ((h.rows hl).resolve_left (by simp))
  · cases hb
    exact AList.lookup_insert ..
  · rw [AssocMap.lookup_insert_eq] at hl
    split at hl
    · rename_i heq
      cases hl
      exact ⟨heq.symm, layer, rfl, heq.symm, fun hne => absurd rfl hne⟩
    · obtain ⟨-, found, hb, -⟩ := h.handles hl
      cases hb
  · exact ⟨(h.members hl).1, hkept (h.members hl).2⟩

theorem Filed.closing (h : Filed conn opened (some layer)) (hl : opened.lookup layer.id = some handle)
    (ha : conn.Appended conn' layer.id) (hquiet : handle.pending = [] → conn' = conn) :
    Filed { conn' with layers := conn'.layers.insert layer.id ⟨layer.branch, .committed, some layer⟩ }
      (opened.erase layer.id) none := by
  have hkept {id : LayerId} {kind : LayerKind} (hof : OfKind conn.layers (some layer) id kind) :
      OfKind (conn'.layers.insert layer.id ⟨layer.branch, .committed, some layer⟩) none id kind := by
    obtain ⟨found, rfl, hk, hb | ⟨row, hrow, hmeta⟩⟩ := hof
    · cases hb
      exact ⟨layer, rfl, hk, Or.inr ⟨_, AList.lookup_insert .., rfl⟩⟩
    · refine ⟨found, rfl, hk, Or.inr ⟨row, ?_, hmeta⟩⟩
      rw [AssocMap.lookup_insert_eq, if_neg, ha.layers, hrow]
      intro heq
      rw [heq, h.current rfl] at hrow
      cases hrow
      cases hmeta
  refine ⟨fun {id row} hf => ?_, fun hb => (nomatch hb), fun {id found} hf => ?_, fun {key id} hf => ?_,
    fun hf => ?_⟩
  · have hf := (AssocMap.lookup_insert_eq ..).symm.trans hf
    split at hf
    · rename_i heq
      cases hf
      exact Or.inr ⟨rfl, layer, rfl, heq.symm, rfl⟩
    · rename_i hne
      rw [ha.layers] at hf
      refine Or.inr ((h.rows hf).resolve_left ?_)
      rintro ⟨found, hb, rfl⟩
      cases hb
      exact hne rfl
  · rw [AssocMap.lookup_erase_eq] at hf
    split at hf
    · cases hf
    · rename_i hne
      obtain ⟨-, found, hb, hid, -⟩ := h.handles hf
      cases hb
      exact absurd hid.symm hne
  · rcases ha.members hf with hold | ⟨heq, hsome⟩
    · exact ⟨ha.events (h.members hold).1, hkept (h.members hold).2⟩
    · by_cases hpending : handle.pending = []
      · rw [hquiet hpending] at hf hsome ⊢
        exact ⟨hsome, (hquiet hpending) ▸ hkept (h.members hf).2⟩
      · obtain ⟨-, found, hb, -, hvalue⟩ := h.handles hl
        cases hb
        exact ⟨hsome, hkept ⟨layer, heq.symm, hvalue hpending, Or.inl rfl⟩⟩
  · exact hkept (h.defs (ha.defEvents ▸ hf))

theorem Filed.close {process sealed described committed : SqliteProcess}
    (h : Filed process.conn process.opened (some layer))
    (hseal : SqliteProcess.sealLayer layer.id process = .ok () sealed)
    (hmeta : SqliteProcess.onStorage (SqliteStorage.putLayerMeta layer) sealed = .ok () described)
    (hcommit : SqliteProcess.commitLayer layer.id described = .ok () committed) :
    Filed committed.conn committed.opened none := by
  unfold SqliteProcess.sealLayer at hseal
  split at hseal
  · rename_i through hthrough
    cases hseal
    obtain ⟨handle, handled, hl, hrun, rfl⟩ := SqliteProcess.through_eq_ok hthrough
    have hown := (h.handles hl).1
    unfold SqliteOpenLayer.sealLayer at hrun
    split at hrun
    · cases hrun
    · rename_i flushed hflush
      cases hrun
      obtain ⟨ha, hhandle, hquiet⟩ := SqliteOpenLayer.flush_appended hflush
      have happended : process.conn.Appended flushed.storage.conn layer.id := by
        rw [← hown]
        exact ha
      have hrow : flushed.storage.conn.layers.lookup layer.id = some ⟨layer.branch, .open, none⟩ := by
        rw [happended.layers]
        exact h.current rfl
      have hid : flushed.handle.id = layer.id := by
        rw [hhandle]
        exact hown
      have hadjust : (flushed.storage.conn.layers.adjust flushed.handle.id fun row =>
          if row.state = .open then { row with state := .sealed } else row) =
            flushed.storage.conn.layers.insert layer.id ⟨layer.branch, .sealed, none⟩ := by
        rw [hid]
        unfold AssocMap.adjust
        rw [hrow]
        rfl
      unfold SqliteProcess.onStorage SqliteStorage.putLayerMeta at hmeta
      dsimp only at hmeta
      rw [hadjust, AList.lookup_insert] at hmeta
      cases hmeta
      unfold SqliteProcess.commitLayer SqliteProcess.onStorage SqliteStorage.commitLayer at hcommit
      dsimp only at hcommit
      rw [AList.lookup_insert] at hcommit
      dsimp only at hcommit
      rw [if_pos rfl] at hcommit
      cases hcommit
      have hclosed := h.closing hl happended hquiet
      dsimp only
      rw [AList.insert_insert, AList.insert_insert, AssocMap.erase_insert]
      exact hclosed
  · cases hseal

/-! ### One record after the other -/

theorem onProcess_eq_ok {α : Type} {call : ProcessM α} {a : α} (h : onProcess call state = .ok a state') :
    ∃ process, call state.process = .ok a process ∧ state' = { state with process := process } := by
  unfold onProcess at h
  split at h
  · cases h
    exact ⟨_, ‹_›, rfl⟩
  · cases h

theorem lifted_eq_ok {α : Type} {answer : Except Failure α} {a : α} (h : lifted answer state = .ok a state') :
    answer = .ok a ∧ state = state' := by
  cases answer with
  | ok found =>
    cases h
    exact ⟨rfl, rfl⟩
  | error err => cases h

theorem inBlock_eq_ok (h : inBlock line kind state = .ok id state') :
    state = state' ∧ ∃ layer, state.block = some layer ∧ layer.id = id ∧ layer.kind = kind := by
  rw [inBlock, Calls.bind_ok Calls.get_run] at h
  cases hb : state.block with
  | none =>
    rw [hb] at h
    cases h
  | some layer =>
    rw [hb] at h
    dsimp only at h
    split at h
    · rename_i hk
      cases h
      exact ⟨rfl, layer, rfl, rfl, hk⟩
    · cases h

/-- Where an import may stand. -/
structure Accepting (hash : List UInt8 → Vector UInt8 32) (state : Importing) : Prop where
  filed : Filed state.process.conn state.process.opened state.block
  addressed : Addressed hash state.interned

theorem accepting_start : Accepting hash (.start none) := ⟨filed_empty, fun h => by cases h⟩

theorem Accepting.write (h : Accepting hash state) (hb : state.block = some layer) (hk : layer.kind = .value)
    {call : HandleM Unit} (hcall : ∀ {handled handled'}, call handled = .ok () handled' →
      handled.storage.conn.Appended handled'.storage.conn handled.handle.id ∧ handled'.handle.id = handled.handle.id)
    (hrun : onProcess (SqliteProcess.through layer.id call) state = .ok () state') : Accepting hash state' := by
  obtain ⟨process, hthrough, rfl⟩ := onProcess_eq_ok hrun
  obtain ⟨handle, handled, hl, hdone, rfl⟩ := SqliteProcess.through_eq_ok hthrough
  obtain ⟨ha, hid⟩ := hcall hdone
  have hfiled := h.filed
  rw [hb] at hfiled
  have hown := (hfiled.handles hl).1
  refine ⟨?_, h.addressed⟩
  show Filed handled.storage.conn (state.process.opened.insert layer.id handled.handle) state.block
  rw [hb]
  refine hfiled.write hk ?_ (hid.trans hown)
  rw [← hown]
  exact ha

theorem Accepting.define (h : Accepting hash state) (hb : state.block = some layer) (hk : layer.kind = .defs)
    {event : DefEvent}
    (hrun : onProcess (SqliteProcess.through layer.id (SqliteOpenLayer.putDef event)) state = .ok () state') :
    Accepting hash state' := by
  obtain ⟨process, hthrough, rfl⟩ := onProcess_eq_ok hrun
  obtain ⟨handle, handled, hl, hdone, rfl⟩ := SqliteProcess.through_eq_ok hthrough
  have hfiled := h.filed
  rw [hb] at hfiled
  unfold SqliteOpenLayer.putDef at hdone
  dsimp only at hdone
  split at hdone
  · cases hdone
  · cases hdone
    refine ⟨?_, h.addressed⟩
    have hdefined := hfiled.define hk hl event
    rw [← hb] at hdefined
    exact hdefined

theorem Accepting.closeBlock (h : Accepting hash state) (hrun : closeBlock state = .ok () state') :
    Accepting hash state' ∧ state'.block = none := by
  rw [Stream.closeBlock, Calls.bind_ok Calls.get_run] at hrun
  cases hb : state.block with
  | none =>
    rw [hb] at hrun
    cases hrun
    exact ⟨h, hb⟩
  | some layer =>
    rw [hb] at hrun
    dsimp only at hrun
    have hmodify : (modify fun state => { state with block := none } : ImportM Unit) state =
        .ok () { state with block := none } := rfl
    rw [Calls.bind_ok hmodify, Stream.close] at hrun
    obtain ⟨_, sealed, hseal, hrest⟩ := Calls.bind_eq_ok_iff.1 hrun
    obtain ⟨_, described, hmeta, hcommit⟩ := Calls.bind_eq_ok_iff.1 hrest
    obtain ⟨_, hsealed, rfl⟩ := onProcess_eq_ok hseal
    obtain ⟨_, hdescribed, rfl⟩ := onProcess_eq_ok hmeta
    obtain ⟨_, hcommitted, rfl⟩ := onProcess_eq_ok hcommit
    have hfiled := h.filed
    rw [hb] at hfiled
    exact ⟨⟨hfiled.close hsealed hdescribed hcommitted, h.addressed⟩, rfl⟩

theorem Accepting.openBlock (h : Accepting hash state) (hb : state.block = none) {row : LayerRow}
    (hrun : openBlock line row state = .ok () state') : Accepting hash state' := by
  obtain ⟨layer, _, hread, hrest⟩ := Calls.bind_eq_ok_iff.1 hrun
  obtain ⟨-, rfl⟩ := lifted_eq_ok hread
  obtain ⟨_, _, hmade, hlast⟩ := Calls.bind_eq_ok_iff.1 hrest
  obtain ⟨process, hopen, rfl⟩ := onProcess_eq_ok hmade
  cases hlast
  have hfiled := h.filed
  rw [hb] at hfiled
  cases hfree : state.process.conn.layers.lookup layer.id with
  | some found => simp [SqliteProcess.openLayer, SqliteStorage.openLayer, hfree] at hopen
  | none =>
    simp only [SqliteProcess.openLayer, SqliteStorage.openLayer, hfree, Option.isSome_none, Bool.false_eq_true,
      if_false] at hopen
    cases hopen
    exact ⟨hfiled.opening hfree, h.addressed⟩

theorem contentPid_again {bytes : List UInt8} {kind : PidKind} {pid : Pid}
    (h : Values.contentPid hash kind bytes = .ok pid) : Values.contentPid hash pid.kind bytes = .ok pid := by
  unfold Values.contentPid at h
  split at h
  · rename_i hk
    cases h
    exact if_pos hk
  · cases h

theorem Accepting.takeContent (h : Accepting hash state) {row : ContentRow}
    (hrun : takeContent hash line row state = .ok () state') : Accepting hash state' := by
  obtain ⟨pid, _, hpid, hrest⟩ := Calls.bind_eq_ok_iff.1 hrun
  obtain ⟨-, rfl⟩ := lifted_eq_ok hpid
  obtain ⟨bytes, _, hbytes, hlast⟩ := Calls.bind_eq_ok_iff.1 hrest
  obtain ⟨-, rfl⟩ := lifted_eq_ok hbytes
  cases hagain : Values.contentPid hash pid.kind bytes with
  | error kind =>
    rw [hagain] at hlast
    cases hlast
  | ok again =>
    rw [hagain] at hlast
    obtain ⟨_, _, hmodify, hclaim⟩ := Calls.bind_eq_ok_iff.1 hlast
    cases hmodify
    split at hclaim
    · cases hclaim
      refine ⟨h.filed, fun {other found} hl => ?_⟩
      dsimp only at hl
      split at hl
      · exact h.addressed hl
      · rw [AssocMap.lookup_insert_eq] at hl
        split at hl
        · rename_i heq
          cases hl
          exact heq ▸ contentPid_again hagain
        · exact h.addressed hl
    · cases hclaim

/-- Whatever a record is, an import that takes it is where an import may stand. -/
theorem Accepting.take (h : Accepting hash state) {record : Record}
    (hrun : take hash line record state = .ok () state') : Accepting hash state' := by
  cases record with
  | header version binary => cases hrun
  | allocations next =>
    cases hrun
    exact ⟨h.filed, h.addressed⟩
  | txTimeout seconds =>
    cases hrun
    exact ⟨h.filed, h.addressed⟩
  | producer row =>
    cases hrun
    exact ⟨h.filed, h.addressed⟩
  | poison row =>
    cases hrun
    exact ⟨h.filed, h.addressed⟩
  | paused branch =>
    cases hrun
    exact ⟨h.filed, h.addressed⟩
  | branch row =>
    obtain ⟨_, _, hbranch, hlast⟩ := Calls.bind_eq_ok_iff.1 hrun
    obtain ⟨_, hput, rfl⟩ := onProcess_eq_ok hbranch
    cases hput
    cases hlast
    exact ⟨⟨h.filed.rows, h.filed.current, h.filed.handles, h.filed.members, h.filed.defs⟩, h.addressed⟩
  | layer row =>
    obtain ⟨_, closed, hclose, hrest⟩ := Calls.bind_eq_ok_iff.1 hrun
    obtain ⟨hclosed, hb⟩ := h.closeBlock hclose
    obtain ⟨_, _, hmodify, hopen⟩ := Calls.bind_eq_ok_iff.1 hrest
    cases hmodify
    have hcounted : Accepting hash { closed with
        layers := closed.layers + 1, head := max closed.head row.id } := ⟨hclosed.filed, hclosed.addressed⟩
    exact hcounted.openBlock hb hopen
  | content row => exact h.takeContent hrun
  | define event =>
    obtain ⟨_, _, hin, hput⟩ := Calls.bind_eq_ok_iff.1 hrun
    obtain ⟨rfl, layer, hb, rfl, hk⟩ := inBlock_eq_ok hin
    exact h.define hb hk hput
  | event row =>
    obtain ⟨_, _, hin, hrest⟩ := Calls.bind_eq_ok_iff.1 hrun
    obtain ⟨rfl, layer, hb, rfl, hk⟩ := inBlock_eq_ok hin
    obtain ⟨event, _, hread, hput⟩ := Calls.bind_eq_ok_iff.1 hrest
    obtain ⟨-, rfl⟩ := lifted_eq_ok hread
    obtain ⟨_, _, hadopt, hcount⟩ := Calls.bind_eq_ok_iff.1 hput
    have hwritten := h.write hb hk (fun hrun => SqliteOpenLayer.adoptEvent_appended hrun) hadopt
    cases hcount
    exact ⟨hwritten.filed, hwritten.addressed⟩
  | member event =>
    obtain ⟨_, _, hin, hput⟩ := Calls.bind_eq_ok_iff.1 hrun
    obtain ⟨rfl, layer, hb, rfl, hk⟩ := inBlock_eq_ok hin
    exact h.write hb hk (fun hrun => SqliteOpenLayer.push_appended hrun) hput

theorem Accepting.readOn {codec : Codec} {lines : List String} (h : Accepting hash state)
    (hrun : readOn hash codec line lines state = .ok () state') : Accepting hash state' := by
  induction lines generalizing line state with
  | nil =>
    cases hrun
    exact h
  | cons text rest ih =>
    rw [Stream.readOn] at hrun
    split at hrun
    · exact ih h hrun
    · obtain ⟨record, _, hread, hrest⟩ := Calls.bind_eq_ok_iff.1 hrun
      obtain ⟨-, rfl⟩ := lifted_eq_ok hread
      obtain ⟨_, _, htake, hon⟩ := Calls.bind_eq_ok_iff.1 hrest
      exact ih (h.take htake) hon

theorem Accepting.restore {codec : Codec} {lines : List String} {binary : String} (h : Accepting hash state)
    (hrun : restore hash codec line lines state = .ok binary state') :
    Accepting hash state' ∧ state'.block = none := by
  induction lines generalizing line with
  | nil => cases hrun
  | cons text rest ih =>
    rw [Stream.restore] at hrun
    split at hrun
    · exact ih hrun
    · obtain ⟨record, _, hread, hrest⟩ := Calls.bind_eq_ok_iff.1 hrun
      obtain ⟨-, rfl⟩ := lifted_eq_ok hread
      cases record with
      | header version found =>
        dsimp only at hrest
        split at hrest
        · cases hrest
        · obtain ⟨_, _, hon, hlast⟩ := Calls.bind_eq_ok_iff.1 hrest
          obtain ⟨_, _, hclose, hreturn⟩ := Calls.bind_eq_ok_iff.1 hlast
          cases hreturn
          exact (h.readOn hon).closeBlock hclose
      | _ => cases hrest

/-! ### What was accepted -/

/-- A registry is well formed: each layer in its tables is committed under its own metadata, and holds value events or
def events as its kind says; its members are events that are there, and content is interned under its hash. -/
structure WellFormed (hash : List UInt8 → Vector UInt8 32) (registry : Registry) : Prop where
  committed : ∀ {id row}, registry.conn.layers.lookup id = some row → row.state = .committed ∧
    ∃ layer, row.metadata = some layer ∧ layer.id = id ∧ layer.branch = row.branch
  members : ∀ {id i event}, registry.conn.layerEvents.lookup (id, i) = some event →
    (registry.conn.events.lookup event).isSome ∧ OfKind registry.conn.layers none id .value
  defs : ∀ {id i event}, registry.conn.defEvents.lookup (id, i) = some event →
    OfKind registry.conn.layers none id .defs
  addressed : Addressed hash registry.interned

/-- **A stream is taken for a well-formed registry or not at all**, whatever is in it. -/
theorem accepted_is_wellFormed {codec : Codec} {path : String} {lines : List String} {summary : Imported}
    {registry : Registry} (h : imported hash codec path none lines = (.ok summary, some registry)) :
    WellFormed hash registry := by
  rw [imported, if_neg (by decide)] at h
  split at h
  · rename_i binary state hrun
    cases h
    obtain ⟨haccepted, hb⟩ := accepting_start.restore hrun
    have hfiled := haccepted.filed
    rw [hb] at hfiled
    refine ⟨fun hl => (hfiled.rows hl).resolve_left (by simp), fun hl => hfiled.members hl, fun hl => hfiled.defs hl,
      haccepted.addressed⟩
  · cases h

theorem accepted_is_wellFormed_two_branches : ∃ summary registry',
    imported Sample.digest Sample.codec "data" none (Sample.stream.map Sample.codec.encode) =
        (.ok summary, some registry') ∧
      WellFormed Sample.digest registry' := by
  obtain ⟨state, hrun, -⟩ := restore_of_export Sample.orderly Sample.exports Sample.reads
  have hi := imported_of_restore hrun "data"
  exact ⟨_, _, hi, accepted_is_wellFormed hi⟩

end Stream

end BorgCore
