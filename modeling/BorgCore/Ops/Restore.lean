import BorgCore.Lib.Calls
import BorgCore.Ops.Stream
import BorgCore.Storage.Backends

/-!
# Reading back what was written

Each row of a record is read back as what it was written for: `address` has checked it of a cell, and a PID is
its own text.  A block of records then fills a layer as the layer they were written for is filled.
-/

namespace BorgCore

namespace Stream

variable {line : Nat} {cell : CellRef} {text : String} {value : Value} {event : Event} {layer : Layer}

/-! ### Rows -/

theorem address_read (h : address cell = .ok text) : cellAt line text = .ok cell := by
  unfold address at h
  split at h
  · cases h
  · split at h
    · cases h
    · rename_i back hback
      split at h
      · rename_i heq
        cases h
        rw [cellAt, hback, heq]
      · cases h

theorem pidText_read {pid : Pid} (hs : pid.Sized) (h : pidText pid = .ok text) : pidAt line text = .ok pid := by
  obtain ⟨printed, hprinted, hread, -⟩ := Pid.display_plain hs
  rw [pidText, hprinted] at h
  cases h
  rw [pidAt, hread]

/-- The numbers of a PID that a value refers to are as wide as their types. -/
def Printable : Value → Prop
  | .ref pid => pid.Sized
  | _ => True

theorem valueRow_read (hs : Printable value) {row : ValueRow} (h : valueRow value = .ok row) :
    valueOf line row = .ok value := by
  cases value with
  | int n =>
    cases h
    rfl
  | bool b =>
    cases h
    rfl
  | double bits =>
    rw [valueRow] at h
    split at h
    · cases h
      rfl
    · cases h
  | ref pid =>
    obtain ⟨text, htext, hrow⟩ := Calls.except_bind_eq_ok h
    cases hrow
    exact Calls.except_bind_ok (pidText_read hs htext)
  | tombstone =>
    cases h
    rfl

theorem readRow_read {read : CellAt} {row : ReadRow} (h : readRow read = .ok row) : readOf line row = .ok read := by
  obtain ⟨text, htext, hrow⟩ := Calls.except_bind_eq_ok h
  cases hrow
  exact Calls.except_bind_ok (address_read htext)

theorem derivationRow_read {derivation : Derivation} {row : DerivationRow}
    (h : derivationRow derivation = .ok row) : derivationOf line row = .ok derivation := by
  obtain ⟨reads, hreads, hrow⟩ := Calls.except_bind_eq_ok h
  cases hrow
  exact Calls.except_bind_ok (Calls.mapM_inverse (fun _ _ hread => readRow_read hread) hreads)

theorem eventRow_read (hs : Printable event.value) {row : EventRow} (h : eventRow event = .ok row) :
    eventOf line event.authored row = .ok event := by
  obtain ⟨text, htext, h⟩ := Calls.except_bind_eq_ok h
  obtain ⟨shown, hshown, h⟩ := Calls.except_bind_eq_ok h
  obtain ⟨id, cell, value, version, origin, derivation, authored⟩ := event
  cases derivation with
  | none =>
    cases h
    rw [eventOf, Calls.except_bind_ok (address_read htext), Calls.except_bind_ok (valueRow_read hs hshown)]
    rfl
  | some derivation =>
    obtain ⟨by', hby, h⟩ := Calls.except_bind_eq_ok h
    cases h
    rw [eventOf, Calls.except_bind_ok (address_read htext), Calls.except_bind_ok (valueRow_read hs hshown)]
    exact Calls.except_bind_ok (derivationRow_read hby)

theorem guardRow_read {guard : Guard} {row : GuardRow} (h : guardRow guard = .ok row) :
    guardOf line row = .ok guard := by
  obtain ⟨cells, hcells, hrow⟩ := Calls.except_bind_eq_ok h
  cases hrow
  exact Calls.except_bind_ok (Calls.mapM_inverse (fun _ _ hcell => address_read hcell) hcells)

theorem layerRow_read {row : LayerRow} (h : layerRow layer = .ok row) :
    layerOf line row = .ok { layer with state := .committed } := by
  obtain ⟨guards, hguards, hrow⟩ := Calls.except_bind_eq_ok h
  cases hrow
  exact Calls.except_bind_ok (Calls.mapM_inverse (fun _ _ hguard => guardRow_read hguard) hguards)

theorem contentRow_read (bytes : List UInt8) : bytesOf line (contentRow text bytes) = .ok bytes := by
  unfold contentRow
  cases hf : fromUtf8 bytes with
  | some text =>
    unfold fromUtf8 String.fromUTF8? at hf
    split at hf
    · cases hf
      simp [bytesOf, String.fromUTF8]
    · cases hf
  | none =>
    rw [bytesOf]
    simp only [String.toList_ofList, Parse.unhex_hex]

/-! ### Runs of records -/

variable {hash : List UInt8 → Vector UInt8 32} {state state' state'' : Importing} {record : Record}
  {records records' : List Record} {registry : Registry} {base : MemoryStorage} {staged : StagedLayer}
  {beside : Sidecars} {held : Pid → Prop} {id : EventId}

/-- What records make of an import, wherever they are in the stream. -/
inductive Takes (hash : List UInt8 → Vector UInt8 32) : Importing → List Record → Importing → Prop where
  | nil {state : Importing} : Takes hash state [] state
  | cons {state state' state'' : Importing} {record : Record} {records : List Record} :
      (∀ line, take hash line record state = .ok () state') → Takes hash state' records state'' →
      Takes hash state (record :: records) state''

theorem Takes.single (h : ∀ line, take hash line record state = .ok () state') : Takes hash state [record] state' :=
  .cons h .nil

theorem Takes.append (h : Takes hash state records state') (h' : Takes hash state' records' state'') :
    Takes hash state (records ++ records') state'' := by
  induction h with
  | nil => exact h'
  | cons hrun _ ih => exact .cons hrun (ih h')

/-- A record is read back from its line, which is not blank. -/
def Codec.Reads (codec : Codec) (record : Record) : Prop :=
  codec.decode (codec.encode record) = .ok record ∧ Utf8.trimmed (codec.encode record) ≠ []

theorem Takes.readOn {codec : Codec} (h : Takes hash state records state')
    (hc : ∀ record ∈ records, codec.Reads record) (line : Nat) :
    readOn hash codec line (records.map codec.encode) state = .ok () state' := by
  induction h generalizing line with
  | nil => rfl
  | @cons state state' state'' record rest hrun _ ih =>
    obtain ⟨hread, hblank⟩ := hc record List.mem_cons_self
    have hparsed : lifted (parsed codec line (codec.encode record)) state = .ok record state := by
      rw [parsed, hread]
      rfl
    rw [List.map_cons, Stream.readOn, if_neg hblank, Calls.bind_ok hparsed, Calls.bind_ok (hrun line)]
    exact ih (fun other hin => hc other (List.mem_cons_of_mem _ hin)) (line + 1)

/-! ### Filling a layer -/

theorem onProcess_run {α : Type} {call : ProcessM α} {a : α} {process : SqliteProcess}
    (h : call state.process = .ok a process) :
    onProcess call state = .ok a { state with process := process } := by
  rw [onProcess, h]

/-- A layer is being filled, over a store that has what was imported before it: so much of it is `staged`, and
the content that is interned is what the registry has of what is `held`. -/
structure Filling (registry : Registry) (base : MemoryStorage) (beside : Sidecars) (layer : Layer)
    (staged : StagedLayer) (held : Pid → Prop) (state : Importing) : Prop where
  block : state.block = some layer
  beside : state.beside = beside
  branch : staged.branch = layer.branch
  unsealed : staged.isSealed = false
  mirrors : ∃ next, state.process.Mirrors
    { base with nextEvent := next, staged := base.staged.insert layer.id staged } ∅
  content : ∀ pid bytes, state.interned.lookup pid = some bytes ↔
    registry.interned.lookup pid = some bytes ∧ held pid

theorem Filling.inBlock (h : Filling registry base beside layer staged held state) (line : Nat) :
    inBlock line layer.kind state = .ok layer.id state := by
  rw [Stream.inBlock, Calls.bind_ok Calls.get_run, h.block]
  dsimp only
  rw [if_pos rfl]
  rfl

theorem lookup_staged (base : MemoryStorage) (layer : Layer) (staged : StagedLayer) :
    (base.staged.insert layer.id staged).lookup layer.id = some staged := AList.lookup_insert ..

theorem adoptEvent_run {store : MemoryStorage} {layer : LayerId} (ha : event.authored = layer)
    (hs : store.staged.lookup layer = some staged) (hu : staged.isSealed = false) :
    MemoryStorage.adoptEvent layer event store = .ok () { store with
      nextEvent := max store.nextEvent event.id, staged := store.staged.insert layer (staged.author event) } := by
  rw [MemoryStorage.adoptEvent, if_neg (not_not.2 ha)]
  exact @MemoryStorage.restage_run { store with nextEvent := max store.nextEvent event.id } layer staged
    (·.author event) hs hu

theorem Filling.takeEvent (h : Filling registry base beside layer staged held state) (hk : layer.kind = .value)
    (ha : event.authored = layer.id)
    (hnew : MemoryStorage.Unheard { base with staged := base.staged.insert layer.id staged } event.id)
    (hp : Printable event.value) {row : EventRow} (hrow : eventRow event = .ok row) :
    ∃ state', Takes hash state [.event row] state' ∧
      Filling registry base beside layer (staged.author event) held state' := by
  obtain ⟨next, hm⟩ := h.mirrors
  have hs := lookup_staged base layer staged
  have hagree := hm.adoptEvent (hm.opened_of_staged hs h.unsealed) (hm.unheard hnew)
  rw [adoptEvent_run ha hs h.unsealed] at hagree
  obtain ⟨process, hrun, hm'⟩ := hagree.run
  refine ⟨{ state with process := process, events := state.events + 1 }, .single fun line => ?_, ?_⟩
  · have hin := h.inBlock line
    rw [hk] at hin
    have hread : lifted (eventOf line layer.id row) state = .ok event state := by
      rw [← ha, eventRow_read hp hrow]
      rfl
    rw [take, Calls.bind_ok hin, Calls.bind_ok hread, Calls.bind_ok (onProcess_run hrun)]
    rfl
  · rw [AList.insert_insert] at hm'
    exact ⟨h.block, h.beside, h.branch, h.unsealed, ⟨_, hm'⟩, h.content⟩

theorem Filling.takeMember (h : Filling registry base beside layer staged held state) (hk : layer.kind = .value)
    (hstored : base.events.lookup id = some event) :
    ∃ state', Takes hash state [.member id] state' ∧
      Filling registry base beside layer (staged.name id) held state' := by
  obtain ⟨next, hm⟩ := h.mirrors
  have hs := lookup_staged base layer staged
  obtain ⟨he, hc⟩ := (hm.events id event).1 hstored
  have hagree := hm.includeEvent (hm.opened_of_staged hs h.unsealed) he hc
  have hrun' := @MemoryStorage.includeEvent_run { base with
    nextEvent := next, staged := base.staged.insert layer.id staged } layer.id staged id
    (Option.isSome_iff_exists.2 ⟨event, hstored⟩) hs h.unsealed
  rw [hrun'] at hagree
  obtain ⟨process, hrun, hm'⟩ := hagree.run
  refine ⟨{ state with process := process }, .single fun line => ?_, ?_⟩
  · have hin := h.inBlock line
    rw [hk] at hin
    rw [take, Calls.bind_ok hin]
    exact onProcess_run hrun
  · rw [AList.insert_insert] at hm'
    exact ⟨h.block, h.beside, h.branch, h.unsealed, ⟨_, hm'⟩, h.content⟩

theorem Filling.takeDefine (h : Filling registry base beside layer staged held state) (hk : layer.kind = .defs)
    (event : DefEvent) : ∃ state', Takes hash state [.define event] state' ∧
      Filling registry base beside layer (staged.define event) held state' := by
  obtain ⟨next, hm⟩ := h.mirrors
  have hs := lookup_staged base layer staged
  have hagree := hm.putDef (hm.opened_of_staged hs h.unsealed) event
  have hrun' := @MemoryStorage.putDef_run { base with
    nextEvent := next, staged := base.staged.insert layer.id staged } layer.id staged event hs h.unsealed
  rw [hrun'] at hagree
  obtain ⟨process, hrun, hm'⟩ := hagree.run
  refine ⟨{ state with process := process }, .single fun line => ?_, ?_⟩
  · have hin := h.inBlock line
    rw [hk] at hin
    rw [take, Calls.bind_ok hin]
    exact onProcess_run hrun
  · rw [AList.insert_insert] at hm'
    exact ⟨h.block, h.beside, h.branch, h.unsealed, ⟨_, hm'⟩, h.content⟩

theorem Filling.takeContent (h : Filling registry base beside layer staged held state) {pid : Pid} {bytes : List UInt8}
    (hl : registry.interned.lookup pid = some bytes)
    (hpid : Values.contentPid hash pid.kind bytes = .ok pid) (hs : pid.Sized) (htext : pidText pid = .ok text) :
    ∃ state', Takes hash state [.content (contentRow text bytes)] state' ∧
      Filling registry base beside layer staged (fun other => held other ∨ other = pid) state' := by
  refine ⟨{ state with
    interned := if (state.interned.lookup pid).isSome then state.interned else state.interned.insert pid bytes },
    .single fun line => ?_, h.block, h.beside, h.branch, h.unsealed, h.mirrors, fun other found => ?_⟩
  · have hpidRow : (contentRow text bytes).pid = text := by
      unfold contentRow
      split <;> rfl
    have hread : lifted (pidAt line (contentRow text bytes).pid) state = .ok pid state := by
      rw [hpidRow, pidText_read hs htext]
      rfl
    have hbytes : lifted (bytesOf line (contentRow text bytes)) state = .ok bytes state := by
      rw [contentRow_read]
      rfl
    rw [take, Stream.takeContent, Calls.bind_ok hread, Calls.bind_ok hbytes, hpid]
    dsimp only
    rw [if_pos rfl]
    rfl
  · by_cases hin : (state.interned.lookup pid).isSome
    · obtain ⟨old, hold⟩ := Option.isSome_iff_exists.1 hin
      have hheld := ((h.content pid old).1 hold).2
      dsimp only
      rw [if_pos hin, h.content]
      refine and_congr_right fun _ => ⟨Or.inl, fun hor => hor.elim (fun h => h) ?_⟩
      rintro rfl
      exact hheld
    · dsimp only
      rw [if_neg hin, AssocMap.lookup_insert_eq]
      by_cases heq : other = pid
      · subst other
        rw [if_pos rfl, hl]
        simp
      · rw [if_neg heq, h.content]
        simp [heq]

theorem Filling.congr {held' : Pid → Prop} (h : Filling registry base beside layer staged held state)
    (hheld : ∀ pid bytes, registry.interned.lookup pid = some bytes → (held pid ↔ held' pid)) :
    Filling registry base beside layer staged held' state :=
  { h with content := fun pid bytes => (h.content pid bytes).trans (and_congr_right fun hl => hheld pid bytes hl) }

/-- Content is interned under the hash of its bytes. -/
def Addressed (hash : List UInt8 → Vector UInt8 32) (interned : Interned) : Prop :=
  ∀ {pid bytes}, interned.lookup pid = some bytes → Values.contentPid hash pid.kind bytes = .ok pid

theorem sized_of_contentPid {kind : PidKind} {bytes : List UInt8} {pid : Pid}
    (h : Values.contentPid hash kind bytes = .ok pid) : pid.Sized := by
  unfold Values.contentPid at h
  split at h
  · cases h
    trivial
  · cases h

theorem lookup_of_readInterned {interned : Interned} {pid : Pid} {answer : Option (List UInt8)}
    (h : Values.readInterned interned pid = .ok answer) : interned.lookup pid = answer := by
  cases pid with
  | allocated kind branch allocator counter => cases h
  | content kind hash => exact Except.ok.inj h

theorem Filling.takeContents (h : Filling registry base beside layer staged held state)
    (ha : Addressed hash registry.interned) {pid : Pid} (hr : contentRecords registry.interned pid = .ok records) :
    ∃ state', Takes hash state records state' ∧
      Filling registry base beside layer staged (fun other => held other ∨ other = pid) state' := by
  unfold contentRecords at hr
  split at hr
  · cases hr
  · rename_i hread
    cases hr
    refine ⟨state, .nil, h.congr fun other bytes hl => (or_iff_left ?_).symm⟩
    rintro rfl
    rw [lookup_of_readInterned hread] at hl
    cases hl
  · rename_i bytes hread
    obtain ⟨text, htext, hr⟩ := Calls.except_bind_eq_ok hr
    cases hr
    have hl := lookup_of_readInterned hread
    exact h.takeContent hl (ha hl) (sized_of_contentPid (ha hl)) htext

/-- A staged layer that has taken members in, some of them authored in the layer. -/
def filled (layer : LayerId) (staged : StagedLayer) (events : List Event) : StagedLayer :=
  { staged with
    members := staged.members ++ events.map Event.id
    authored := staged.authored ++ events.filter fun event => event.authored = layer }

theorem filled_own {layer : LayerId} (ha : event.authored = layer) (events : List Event) :
    filled layer staged (event :: events) = filled layer (staged.author event) events := by
  simp [filled, StagedLayer.author, ha]

theorem filled_other {layer : LayerId} (ha : event.authored ≠ layer) (events : List Event) :
    filled layer staged (event :: events) = filled layer (staged.name event.id) events := by
  simp [filled, StagedLayer.name, ha]

/-- The content that events of a layer refer to. -/
def Refers (layer : LayerId) (events : List Event) (pid : Pid) : Prop :=
  ∃ event ∈ events, event.authored = layer ∧ Values.contentOf event.value = some pid

theorem refers_cons {layer : LayerId} {events : List Event} {pid : Pid} :
    Refers layer (event :: events) pid ↔
      event.authored = layer ∧ Values.contentOf event.value = some pid ∨ Refers layer events pid := by
  simp [Refers]

/-- A member that can be taken in: an event of an earlier layer, or a new one. -/
def Takeable (base : MemoryStorage) (layer : LayerId) (event : Event) : Prop :=
  Printable event.value ∧ (event.authored ≠ layer → base.events.lookup event.id = some event) ∧
    (event.authored = layer → base.events.lookup event.id = none)

/-- **The records of a layer's members make the layer.** -/
theorem Filling.takeMembers (h : Filling registry base beside layer staged held state) (hk : layer.kind = .value)
    (ha : Addressed hash registry.interned) (hstaged : ∀ other, base.staged.lookup other = none) {seen : List Pid}
    {events : List Event} (hr : memberRecords registry.interned layer.id seen events = .ok records)
    (hseen : ∀ pid ∈ seen, held pid) (hevents : ∀ event ∈ events, Takeable base layer.id event)
    (hnodup : ((filled layer.id staged events).authored.map Event.id).Nodup) :
    ∃ state', Takes hash state records state' ∧ Filling registry base beside layer (filled layer.id staged events)
      (fun pid => held pid ∨ Refers layer.id events pid) state' := by
  induction events generalizing seen staged held state records with
  | nil =>
    cases hr
    refine ⟨state, .nil, ?_⟩
    have hfilled : filled layer.id staged [] = staged := by simp [filled]
    rw [hfilled]
    exact h.congr fun pid _ _ => by simp [Refers]
  | cons event rest ih =>
    obtain ⟨hprintable, hearlier, hnew⟩ := hevents event List.mem_cons_self
    have hrest := fun other hin => hevents other (List.mem_cons_of_mem event hin)
    rw [memberRecords] at hr
    split at hr
    · rename_i hother
      obtain ⟨others, hothers, heq⟩ := Calls.except_bind_eq_ok hr
      cases heq
      obtain ⟨next, htakes, hnext⟩ := h.takeMember hk (hearlier hother)
      rw [filled_other hother] at hnodup ⊢
      obtain ⟨state', htakes', hlast⟩ := ih hnext hothers hseen hrest hnodup
      refine ⟨state', htakes.append htakes', hlast.congr fun pid _ _ => ?_⟩
      rw [refers_cons]
      simp [hother]
    · rename_i hown
      rw [not_not] at hown
      have hunheard : MemoryStorage.Unheard
          { base with staged := base.staged.insert layer.id staged } event.id := by
        refine ⟨hnew hown, fun other found hl old hin heq => ?_⟩
        simp only [AssocMap.lookup_insert_eq] at hl
        split at hl
        · obtain rfl := Option.some.inj hl
          rw [filled_own hown] at hnodup
          simp only [filled, StagedLayer.author, List.map_append, List.map_cons, List.map_nil,
            List.append_assoc] at hnodup
          exact (List.disjoint_of_nodup_append hnodup) (List.mem_map_of_mem hin) (by simp [heq])
        · rw [hstaged] at hl
          cases hl
      rw [filled_own hown] at hnodup ⊢
      cases hcontent : Values.contentOf event.value with
      | none =>
        rw [hcontent] at hr
        obtain ⟨row, hrow, hr⟩ := Calls.except_bind_eq_ok hr
        obtain ⟨others, hothers, heq⟩ := Calls.except_bind_eq_ok hr
        cases heq
        obtain ⟨next, htakes, hnext⟩ := h.takeEvent hk hown hunheard hprintable hrow
        obtain ⟨state', htakes', hlast⟩ := ih hnext hothers hseen hrest hnodup
        refine ⟨state', htakes.append htakes', hlast.congr fun other _ _ => ?_⟩
        rw [refers_cons, hcontent]
        simp
      | some pid =>
        rw [hcontent] at hr
        dsimp only at hr
        split at hr
        · rename_i hin
          obtain ⟨row, hrow, hr⟩ := Calls.except_bind_eq_ok hr
          obtain ⟨others, hothers, heq⟩ := Calls.except_bind_eq_ok hr
          cases heq
          obtain ⟨next, htakes, hnext⟩ := h.takeEvent hk hown hunheard hprintable hrow
          obtain ⟨state', htakes', hlast⟩ := ih hnext hothers hseen hrest hnodup
          refine ⟨state', htakes.append htakes', hlast.congr fun other _ _ => ?_⟩
          rw [refers_cons, hcontent]
          refine ⟨fun hor => hor.imp_right Or.inr, fun hor => hor.elim Or.inl fun hor => hor.elim ?_ Or.inr⟩
          rintro ⟨-, heq⟩
          obtain rfl := Option.some.inj heq
          exact Or.inl (hseen _ hin)
        · obtain ⟨content, hcontents, hr⟩ := Calls.except_bind_eq_ok hr
          obtain ⟨row, hrow, hr⟩ := Calls.except_bind_eq_ok hr
          obtain ⟨others, hothers, heq⟩ := Calls.except_bind_eq_ok hr
          cases heq
          obtain ⟨first, htaken, hfirst⟩ := h.takeContents ha hcontents
          obtain ⟨next, htakes, hnext⟩ := hfirst.takeEvent hk hown hunheard hprintable hrow
          have hheld : ∀ other ∈ pid :: seen, held other ∨ other = pid := fun other hin =>
            (List.mem_cons.1 hin).elim Or.inr fun hin => Or.inl (hseen other hin)
          obtain ⟨state', htakes', hlast⟩ := ih hnext hothers hheld hrest hnodup
          refine ⟨state', htaken.append (htakes.append htakes'), hlast.congr fun other _ _ => ?_⟩
          rw [refers_cons, hcontent, or_assoc, Option.some_inj, eq_comm (a := pid)]
          simp [hown]

end Stream

end BorgCore
