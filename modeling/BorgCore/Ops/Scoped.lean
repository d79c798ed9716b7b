import BorgCore.Lib.Machine
import BorgCore.Ops.Dispatch

/-!
# What a scope keeps in, and what it keeps out

A credential of some scope sees and changes the registries inside it.  Two servers that agree inside the
scope answer it alike; and what it asks leaves the files outside its scope as they are, where the one
request that creates a file at a path of the client's choosing does not name one of them.
-/

namespace BorgCore

namespace Tenancy

section Scopes

variable {P H Q A : Type} {setup : Setup} {disk : Disk} {lib : Library P H Q A} {scope : Scope}

/-! ### Files -/

section Frame

variable {host : Host P H} {name : String} {place : Place}

/-- A place outside a scope: no file of a registry it reaches. -/
def Outside (scope : Scope) (place : Place) : Prop :=
  ∀ name file, place = .registry name file → ¬ scope.allows name

theorem setAround_files (hname : scope.allows name) (hplace : Outside scope place) (around : Around P) :
    (host.setAround name around).files place = host.files place := by
  cases place with
  | registry other file =>
    have hne : other ≠ name := by
      rintro rfl
      exact hplace other file rfl hname
    simp only [Host.setAround, if_neg hne]
  | keys => rfl
  | admin => rfl
  | elsewhere path => rfl

theorem put_files {other : Place} (hne : other ≠ place) (contents : String) :
    (host.put other contents).files place = host.files place := by
  simp only [Host.put, Function.update_of_ne hne.symm]

/-- What an operation leaves of a host: the data directory, and the files at some places. -/
structure Leaves (places : Place → Prop) (host host' : Host P H) : Prop where
  dataDir : host'.dataDir = host.dataDir
  files : ∀ place, places place → host'.files place = host.files place

variable {places : Place → Prop}

theorem Leaves.refl (host : Host P H) : Leaves places host host := ⟨rfl, fun _ _ => rfl⟩

theorem Leaves.trans {host₁ host₂ host₃ : Host P H} (h : Leaves places host₁ host₂)
    (h' : Leaves places host₂ host₃) : Leaves places host₁ host₃ :=
  ⟨h'.dataDir.trans h.dataDir, fun place hp => (h'.files place hp).trans (h.files place hp)⟩

theorem leaves_setAround (hname : scope.allows name) (hplaces : ∀ place, places place → Outside scope place)
    (around : Around P) : Leaves places host (host.setAround name around) :=
  ⟨rfl, fun place hp => setAround_files hname (hplaces place hp) around⟩

theorem leaves_keep (held : H) : Leaves places host (host.keep name held) := ⟨rfl, fun _ _ => rfl⟩

theorem leaves_put {other : Place} (hother : ¬ places other) (contents : String) :
    Leaves places host (host.put other contents) := by
  refine ⟨rfl, fun place hp => put_files ?_ contents⟩
  rintro rfl
  exact hother hp

theorem leaves_adopt (hname : scope.allows name) (hplaces : ∀ place, places place → Outside scope place) :
    Leaves places host (host.adopt lib name).2 := by
  unfold Host.adopt
  split
  · generalize lib.claim (host.storePath name) host.socket name (host.around name) = claimed
    obtain ⟨claimed, around⟩ := claimed
    have hset : Leaves places host (host.setAround name around) := leaves_setAround hname hplaces around
    dsimp only
    split
    · exact hset.trans ⟨rfl, fun _ _ => rfl⟩
    · exact hset
  · exact ⟨rfl, fun _ _ => rfl⟩

theorem leaves_create (hname : scope.allows name) (hplaces : ∀ place, places place → Outside scope place)
    (base : Ops) : Leaves places host (host.create lib base name).2 := by
  unfold Host.create
  split
  · exact .refl host
  · generalize lib.init base (host.storePath name) (host.around name) = made
    obtain ⟨made, around⟩ := made
    have hset : Leaves places host (host.setAround name around) := leaves_setAround hname hplaces around
    dsimp only
    split
    · exact hset.trans (leaves_adopt hname hplaces)
    · exact hset

theorem leaves_restore (hname : scope.allows name) (hplaces : ∀ place, places place → Outside scope place)
    (base : Ops) (path : String) : Leaves places host (host.restore disk lib base name path).2 := by
  unfold Host.restore
  split
  · exact .refl host
  · split
    · exact .refl host
    · rename_i stream _
      generalize lib.restore base (host.storePath name) stream (host.around name) = made
      obtain ⟨made, around⟩ := made
      have hset : Leaves places host (host.setAround name around) := leaves_setAround hname hplaces around
      dsimp only
      split
      · exact hset
      · have hadopt : Leaves places (host.setAround name around) ((host.setAround name around).adopt lib name).2 :=
          leaves_adopt hname hplaces
        split
        · rename_i heq
          rw [heq] at hadopt
          exact hset.trans hadopt
        · rename_i heq
          rw [heq] at hadopt
          exact hset.trans hadopt

theorem leaves_ops (hname : scope.allows name) (hplaces : ∀ place, places place → Outside scope place)
    (base : Ops) : Leaves places host (host.ops lib base name).2 := by
  unfold Host.ops
  split
  · exact .refl host
  · generalize lib.hold base (host.storePath name) (host.around name) = held
    obtain ⟨held, around⟩ := held
    have hset : Leaves places host (host.setAround name around) := leaves_setAround hname hplaces around
    dsimp only
    split
    · exact hset.trans (leaves_keep _)
    · exact hset

theorem leaves_answer (hname : scope.allows name) (hplaces : ∀ place, places place → Outside scope place)
    (base : Ops) (held : H) {request : Request Q}
    (hpath : ∀ registry path, request = .exportStream registry path → ¬ places (disk.resolve path)) :
    Leaves places host (answer disk lib host base name held request).2 := by
  unfold answer
  generalize lib.reapTransactions base held (host.around name) = reaped
  obtain ⟨reaped, held, around⟩ := reaped
  have hreap : Leaves places host ((host.setAround name around).keep name held) :=
    (leaves_setAround hname hplaces around).trans (leaves_keep held)
  dsimp only
  generalize (host.setAround name around).keep name held = host' at hreap
  cases reaped with
  | error err => exact hreap
  | ok _ =>
    dsimp only
    cases request with
    | ordinary request =>
      exact hreap.trans ((leaves_setAround hname hplaces _).trans (leaves_keep _))
    | repoPush registry branch path =>
      cases path with
      | none => exact hreap
      | some path =>
        dsimp only
        split
        · exact hreap.trans ((leaves_setAround hname hplaces _).trans (leaves_keep _))
        · exact hreap.trans ((leaves_setAround hname hplaces _).trans (leaves_keep _))
    | exportStream registry path =>
      have hother := hpath registry path rfl
      dsimp only
      split
      · exact hreap
      · have hput : ∀ written process, Leaves places host
            { (host'.put (disk.resolve path) "").put (disk.resolve path) written with process } := by
          intro written process
          have hwritten := hreap.trans ((leaves_put hother "").trans (leaves_put hother written))
          exact ⟨hwritten.dataDir, hwritten.files⟩
        split
        · exact hput _ _
        · exact hput _ _
    | registries => exact hreap
    | registryCreate name => exact hreap
    | importStream name path => exact hreap

/-! ### Routing -/

theorem routeWithin_allows {named : Option String} (h : host.routeWithin named scope = .ok name) :
    scope.allows name := by
  unfold Host.routeWithin at h
  cases named with
  | some asked =>
    dsimp only at h
    split at h
    · rename_i slot hslot
      cases h
      exact (Option.filter_eq_some_iff.1 hslot).2
    · cases h
  | none =>
    dsimp only at h
    split at h
    · rename_i only honly
      cases h
      have hmem : only ∈ host.registries.slots.filter fun slot => scope.allows slot.name := by
        rw [honly]
        exact List.mem_singleton_self only
      exact (List.mem_filter.1 hmem).2
    · cases h
    · cases h

theorem allows_of_permit {asked : String} (h : Keys.permit scope asked = .ok ()) : scope.allows asked := by
  unfold Keys.permit at h
  split_ifs at h with hallows
  exact hallows

/-- Where a request is sent: where it names, or where the handshake settled. -/
def routed (host : Host P H) (target : Except BorgError String) (request : Request Q) (scope : Scope) :
    Except BorgError String :=
  match request.named with
  | some name => host.routeWithin (some name) scope
  | none => target

theorem routed_allows {target : Except BorgError String} {request : Request Q}
    (htarget : ∀ name, target = .ok name → scope.allows name)
    (h : routed host target request scope = .ok name) : scope.allows name := by
  unfold routed at h
  split at h
  · exact routeWithin_allows h
  · exact htarget name h

theorem answerRouted_eq (host : Host P H) (target : Except BorgError String) (base : Ops)
    (request : Request Q) (scope : Scope) :
    answerRouted disk lib host target base request scope =
      match routed host target request scope with
      | .error err => (.failed err, host)
      | .ok name =>
        match host.ops lib base name with
        | (.error err, host) => (.failed err, host)
        | (.ok held, host) => answer disk lib host base name held request := rfl

theorem leaves_answerRouted {target : Except BorgError String} {request : Request Q}
    (htarget : ∀ name, target = .ok name → scope.allows name)
    (hplaces : ∀ place, places place → Outside scope place) (base : Ops)
    (hpath : ∀ name registry path, routed host target request scope = .ok name →
      request = .exportStream registry path → ¬ places (disk.resolve path)) :
    Leaves places host (answerRouted disk lib host target base request scope).2 := by
  rw [answerRouted_eq]
  split
  · exact .refl host
  · rename_i name hrouted
    have hname := routed_allows htarget hrouted
    have hops : Leaves places host (host.ops lib base name).2 := leaves_ops hname hplaces base
    split
    · rename_i heq
      rw [heq] at hops
      exact hops
    · rename_i held host' heq
      rw [heq] at hops
      exact hops.trans (leaves_answer hname hplaces base held fun registry path =>
        hpath name registry path hrouted)

theorem leaves_dispatch {target : Except BorgError String} {request : Request Q}
    (htarget : ∀ name, target = .ok name → scope.allows name)
    (hplaces : ∀ place, places place → Outside scope place) (base : Ops)
    (hpath : ∀ name registry path, routed host target request scope = .ok name →
      request = .exportStream registry path → ¬ places (disk.resolve path)) :
    Leaves places host (dispatch disk lib host target base request scope).2 := by
  cases request with
  | registries => exact .refl host
  | registryCreate name =>
    unfold dispatch
    dsimp only
    split
    · exact .refl host
    · rename_i hpermit
      have hcreate : Leaves places host (host.create lib base name).2 :=
        leaves_create (allows_of_permit hpermit) hplaces base
      split
      · rename_i heq
        rw [heq] at hcreate
        exact hcreate
      · rename_i heq
        rw [heq] at hcreate
        exact hcreate
  | importStream name path =>
    unfold dispatch
    dsimp only
    split
    · exact .refl host
    · rename_i hpermit
      have hrestore : Leaves places host (host.restore disk lib base name path).2 :=
        leaves_restore (allows_of_permit hpermit) hplaces base path
      split
      · rename_i heq
        rw [heq] at hrestore
        exact hrestore
      · rename_i heq
        rw [heq] at hrestore
        exact hrestore
  | repoPush registry branch path => exact leaves_answerRouted htarget hplaces base hpath
  | exportStream registry path => exact leaves_answerRouted htarget hplaces base hpath
  | ordinary request => exact leaves_answerRouted htarget hplaces base hpath

end Frame

/-! ### Nothing outside the scope changes -/

section Outside

variable {host : Host P H}

/-- The files that are not a scope's: those of the hosted registries outside it, and the server's own. -/
def Protected (host : Host P H) (scope : Scope) : Place → Prop
  | .registry name _ => (host.registries.get name).isSome ∧ ¬ scope.allows name
  | .keys => True
  | .admin => True
  | .elsewhere _ => False

theorem Protected.outside {place : Place} (h : Protected host scope place) : Outside scope place := by
  rintro name file rfl
  exact h.2

/-- A credential of a scope. -/
def Presents (setup : Setup) (disk : Disk) (host : Host P H) (scope : Scope) (credential : Option String) :
    Prop := ∃ access, host.authorize setup disk credential = .ok access ∧ access.scope = scope

theorem Leaves.authorize {host' : Host P H} {places : Place → Prop} (h : Leaves places host host')
    (hkeys : places .keys) (hadmin : places .admin) (credential : Option String) :
    host'.authorize setup disk credential = host.authorize setup disk credential := by
  unfold Host.authorize
  rw [h.dataDir, h.files _ hkeys, h.files _ hadmin]

/-- A connection works in the scope of its credential, on the registry it was routed to. -/
theorem handshake_connection {hello : Except String ClientHello} {connection : Connection}
    (h : (handshake setup disk host hello).2 = some connection) :
    ∃ greeting access, hello = .ok greeting ∧ host.authorize setup disk greeting.credential = .ok access ∧
      connection.scope = access.scope ∧
      connection.target = host.routeWithin greeting.registry access.scope := by
  unfold handshake at h
  split at h
  · cases h
  · rename_i greeting
    split at h
    · cases h
    · split at h
      · cases h
      · split at h
        · cases h
        · rename_i access haccess
          refine ⟨greeting, access, rfl, haccess, ?_⟩
          dsimp only at h
          split at h
          · cases h
          · split at h
            · cases h
              exact ⟨rfl, rfl⟩
            · cases h
            · cases h
              exact ⟨rfl, rfl⟩

def Connection.Within (scope : Scope) (connection : Connection) : Prop :=
  connection.scope = scope ∧ ∀ name, connection.target = .ok name → scope.allows name

theorem handshake_within {hello : Except String ClientHello} {connection : Connection}
    (hpresents : ∀ greeting, hello = .ok greeting → Presents setup disk host scope greeting.credential)
    (h : (handshake setup disk host hello).2 = some connection) : connection.Within scope := by
  obtain ⟨greeting, access, hgreeting, haccess, hscope, htarget⟩ := handshake_connection h
  obtain ⟨access', haccess', rfl⟩ := hpresents greeting hgreeting
  rw [haccess] at haccess'
  cases haccess'
  refine ⟨hscope, ?_⟩
  intro name hname
  rw [htarget] at hname
  exact routeWithin_allows hname

/-- An export that is routed to a registry names no path that leads to one of these places. -/
def Spares (disk : Disk) (places : Place → Prop) (s : Served P H) : Arrival Q → Prop
  | .send id (.request (.exportStream registry path)) =>
    ∀ connection name, s.connections id = some connection →
      routed s.host connection.target (.exportStream registry path : Request Q) connection.scope = .ok name →
        ¬ places (disk.resolve path)
  | _ => True

theorem Spares.path {places : Place → Prop} {s : Served P H} {id : Nat} {request : Request Q}
    {connection : Connection} (h : Spares disk places s (.send id (.request request)))
    (hconnection : s.connections id = some connection) (name : String) (registry : Option String)
    (path : String) (hrouted : routed s.host connection.target request connection.scope = .ok name)
    (hrequest : request = .exportStream registry path) : ¬ places (disk.resolve path) := by
  subst hrequest
  exact h connection name hconnection hrouted

/-- What holds all along: the protected files are as they were, and connections are inside the scope. -/
structure Confined (host : Host P H) (scope : Scope) (s : Served P H) : Prop where
  leaves : Leaves (Protected host scope) host s.host
  connections : ∀ id connection, s.connections id = some connection → connection.Within scope

theorem Confined.next {s : Served P H} (h : Confined host scope s) {arrival : Arrival Q}
    (hpresents : ∀ id greeting, arrival = .connect id (.ok greeting) →
      Presents setup disk host scope greeting.credential)
    (hspares : Spares disk (Protected host scope) s arrival) :
    Confined host scope (s.next setup disk lib arrival).2 := by
  cases arrival with
  | connect id hello =>
    unfold Served.next
    dsimp only
    split
    · exact h
    · refine ⟨h.leaves, ?_⟩
      intro other connection hother
      dsimp only at hother
      obtain rfl | hne := eq_or_ne other id
      · rw [Function.update_self] at hother
        refine handshake_within ?_ hother
        rintro greeting rfl
        obtain ⟨access, haccess, hscope⟩ := hpresents other greeting rfl
        exact ⟨access, (h.leaves.authorize trivial trivial _).trans haccess, hscope⟩
      · rw [Function.update_of_ne hne] at hother
        exact h.connections other connection hother
  | send id message =>
    unfold Served.next
    dsimp only
    split
    · exact h
    · rename_i connection hconnection
      cases message with
      | unreadable err => exact h
      | request request =>
        obtain ⟨hscope, htarget⟩ := h.connections id connection hconnection
        rw [← hscope] at htarget
        have hdispatch : Leaves (Protected host scope) s.host
            (dispatch disk lib s.host connection.target connection.base request connection.scope).2 := by
          refine leaves_dispatch htarget ?_ connection.base (hspares.path hconnection)
          intro place hplace
          rw [hscope]
          exact hplace.outside
        exact ⟨h.leaves.trans hdispatch, h.connections⟩

/-- Credentials of a scope change nothing outside it, where no routed export names a protected file. -/
theorem scoped_changes_nothing_outside {s : Served P H} (hnew : ∀ id, s.connections id = none)
    {arrivals : List (Arrival Q)}
    (hpresents : ∀ id greeting, .connect id (.ok greeting) ∈ arrivals →
      Presents setup disk s.host scope greeting.credential)
    (hspares : Machine.Along (fun s arrival => (Served.next setup disk lib s arrival).2)
      (Spares disk (Protected s.host scope)) s arrivals)
    {place : Place} (hplace : Protected s.host scope place) :
    (Machine.run (Served.next setup disk lib) s arrivals).2.host.files place = s.host.files place := by
  have hstart : Confined s.host scope s := by
    refine ⟨.refl s.host, ?_⟩
    intro id connection hid
    rw [hnew] at hid
    cases hid
  have hall : ∀ arrival ∈ arrivals, ∀ id greeting, arrival = .connect id (.ok greeting) →
      Presents setup disk s.host scope greeting.credential := by
    rintro _ harrival id greeting rfl
    exact hpresents id greeting harrival
  have halong := hspares.and (Machine.along_of_forall fun _ => hall)
  rw [Machine.run_state]
  refine (Machine.foldl_keeps ?_ hstart halong).leaves.files place hplace
  rintro t arrival ht ⟨hspare, hpresent⟩
  exact ht.next hpresent hspare

end Outside

/-! ### Nothing outside the scope is seen -/

/-- A request that carries no path on the server's disk. -/
def Request.Pathless : Request Q → Prop
  | .importStream .. => False
  | .exportStream .. => False
  | .repoPush _ _ path => path = none
  | _ => True

section Inside

variable {host host' : Host P H} {name : String}

/-- Two hosts that are the same inside a scope. -/
structure Agrees (scope : Scope) (host host' : Host P H) : Prop where
  dataDir : host.dataDir = host'.dataDir
  socket : host.socket = host'.socket
  serving : host.serving = host'.serving
  slots : (host.registries.slots.filter fun slot => scope.allows slot.name) =
    host'.registries.slots.filter fun slot => scope.allows slot.name
  dirs : ∀ name, scope.allows name → host.dir name = host'.dir name
  keys : host.files .keys = host'.files .keys

namespace SlotMap

theorem get_eq_find (registries : SlotMap H) (hname : scope.allows name) :
    registries.get name =
      (registries.slots.filter fun slot => scope.allows slot.name).find? fun slot => slot.name = name := by
  rw [List.find?_filter]
  have hsame : (fun slot : Slot H => decide (slot.name = name)) =
      fun slot => decide (scope.allows slot.name = true ∧ decide (slot.name = name) = true) := by
    funext slot
    obtain rfl | hne := eq_or_ne slot.name name
    · simp [hname]
    · simp [hne]
  exact congrArg (fun found => registries.slots.find? found) hsame

theorem place_of_lt {slot : Slot H} {slots : List (Slot H)}
    (h : ∀ other ∈ slots, slot.name < other.name) : place slot slots = slot :: slots := by
  cases slots with
  | nil => rfl
  | cons first rest => rw [place, if_pos (h first (List.mem_cons_self ..))]

theorem filter_place {slot : Slot H} (hslot : scope.allows slot.name) {slots : List (Slot H)}
    (h : slots.Pairwise fun slot other => slot.name < other.name) :
    ((place slot slots).filter fun slot => scope.allows slot.name) =
      place slot (slots.filter fun slot => scope.allows slot.name) := by
  induction slots with
  | nil => simp [place, hslot]
  | cons first rest ih =>
    obtain ⟨hfirst, hrest⟩ := List.pairwise_cons.1 h
    rw [place]
    split_ifs with hlt heq
    · have hall : ∀ other ∈ (first :: rest).filter fun slot => scope.allows slot.name,
          slot.name < other.name := by
        intro other hother
        obtain rfl | hother := List.mem_cons.1 (List.mem_of_mem_filter hother)
        · exact hlt
        · exact hlt.trans (hfirst other hother)
      rw [place_of_lt hall, List.filter_cons, if_pos hslot]
    · have hallows : scope.allows first.name := by rw [← heq]; exact hslot
      rw [List.filter_cons, if_pos hslot, List.filter_cons, if_pos hallows, place, if_neg hlt, if_pos heq]
    · rw [List.filter_cons, List.filter_cons, ih hrest]
      split_ifs with hallows
      · rw [place, if_neg hlt, if_neg heq]
      · rfl

theorem filter_keep (registries : SlotMap H) (held : H) :
    ((registries.keep name held).slots.filter fun slot => scope.allows slot.name) =
      (registries.slots.filter fun slot => scope.allows slot.name).map fun slot =>
        if slot.name = name then { slot with held := some held } else slot := by
  unfold keep
  dsimp only
  rw [List.filter_map]
  congr 2
  funext slot
  simp only [Function.comp]
  split_ifs <;> rfl

end SlotMap

namespace Agrees

theorem get (h : Agrees scope host host') (hname : scope.allows name) :
    host.registries.get name = host'.registries.get name := by
  rw [SlotMap.get_eq_find _ hname, SlotMap.get_eq_find _ hname, h.slots]

theorem storePath (h : Agrees scope host host') : host.storePath name = host'.storePath name := by
  unfold Host.storePath
  rw [h.dataDir]

theorem visible (h : Agrees scope host host') : host.visible scope = host'.visible scope := by
  unfold Host.visible Scope.visible
  rw [List.filter_map, List.filter_map]
  exact congrArg (List.map Slot.name) h.slots

theorem hostedWithin (h : Agrees scope host host') :
    host.hostedWithin scope = host'.hostedWithin scope := by
  unfold Host.hostedWithin
  rw [h.slots]

theorem routeWithin (h : Agrees scope host host') (named : Option String) :
    host.routeWithin named scope = host'.routeWithin named scope := by
  unfold Host.routeWithin
  cases named with
  | none =>
    dsimp only
    rw [h.slots, h.visible, h.dataDir]
  | some asked =>
    have hfilter : (host.registries.get asked).filter (fun slot => scope.allows slot.name) =
        (host'.registries.get asked).filter fun slot => scope.allows slot.name := by
      by_cases hname : scope.allows asked
      · rw [h.get hname]
      · have hnone (host : Host P H) :
            (host.registries.get asked).filter (fun slot => scope.allows slot.name) = none := by
          refine Option.filter_eq_none_iff.2 ?_
          intro slot hslot
          have heq : slot.name = asked := by simpa using List.find?_some hslot
          rw [heq]
          exact hname
        rw [hnone, hnone]
    dsimp only
    rw [hfilter, h.visible]

end Agrees

/-- Two hosts that are the same inside a scope, in processes that keep the same. -/
structure Twins (scope : Scope) (host host' : Host P H) : Prop extends Agrees scope host host' where
  process : host.process = host'.process

namespace Twins

theorem around (h : Twins scope host host') (hname : scope.allows name) : host.around name = host'.around name := by
  unfold Host.around
  rw [h.process, h.dirs name hname]

theorem setAround (h : Twins scope host host') (name : String) (around : Around P) :
    Twins scope (host.setAround name around) (host'.setAround name around) := by
  refine ⟨⟨h.dataDir, h.socket, h.serving, h.slots, ?_, h.keys⟩, rfl⟩
  intro other hother
  funext file
  have hdir := congrFun (h.dirs other hother) file
  show (if other = name then around.dir file else host.files (.registry other file)) =
    if other = name then around.dir file else host'.files (.registry other file)
  split_ifs
  · rfl
  · exact hdir

theorem keep (h : Twins scope host host') (name : String) (held : H) :
    Twins scope (host.keep name held) (host'.keep name held) := by
  refine ⟨⟨h.dataDir, h.socket, h.serving, ?_, h.dirs, h.keys⟩, h.process⟩
  show ((host.registries.keep name held).slots.filter _) = ((host'.registries.keep name held).slots.filter _)
  rw [SlotMap.filter_keep, SlotMap.filter_keep, h.slots]

theorem insert (h : Twins scope host host') {slot : Slot H} (hslot : scope.allows slot.name) :
    Twins scope { host with registries := host.registries.insert slot }
      { host' with registries := host'.registries.insert slot } := by
  refine ⟨⟨h.dataDir, h.socket, h.serving, ?_, h.dirs, h.keys⟩, h.process⟩
  show ((SlotMap.place slot host.registries.slots).filter _) =
    ((SlotMap.place slot host'.registries.slots).filter _)
  rw [SlotMap.filter_place hslot host.registries.sorted, SlotMap.filter_place hslot host'.registries.sorted,
    h.slots]

/-- What two servers do alike: one answer, and hosts that still agree. -/
def Alike {α : Type} (scope : Scope) (done done' : α × Host P H) : Prop :=
  done.1 = done'.1 ∧ Twins scope done.2 done'.2

theorem adopt (h : Twins scope host host') (hname : scope.allows name) :
    Alike scope (host.adopt lib name) (host'.adopt lib name) := by
  unfold Host.adopt
  by_cases hserving : host.serving
  · have hserving' : host'.serving := by rw [← h.serving]; exact hserving
    rw [if_pos hserving, if_pos hserving', h.storePath, h.socket, h.around hname]
    generalize lib.claim (host'.storePath name) host'.socket name (host'.around name) = claimed
    obtain ⟨claimed, around⟩ := claimed
    have hset := h.setAround name around
    dsimp only
    cases claimed with
    | error err => exact ⟨rfl, hset⟩
    | ok _ => exact ⟨rfl, hset.insert hname⟩
  · have hserving' : ¬ host'.serving := by rw [← h.serving]; exact hserving
    rw [if_neg hserving, if_neg hserving']
    exact ⟨rfl, h.insert hname⟩

theorem create (h : Twins scope host host') (hname : scope.allows name) (base : Ops) :
    Alike scope (host.create lib base name) (host'.create lib base name) := by
  have hprepare : host.prepare name = host'.prepare name := by
    unfold Host.prepare
    rw [h.get hname]
  unfold Host.create
  rw [hprepare, h.storePath, h.around hname]
  split
  · exact ⟨rfl, h⟩
  · generalize lib.init base (host'.storePath name) (host'.around name) = made
    obtain ⟨made, around⟩ := made
    have hset := h.setAround name around
    cases made with
    | error err => exact ⟨rfl, hset⟩
    | ok _ => exact hset.adopt hname

theorem ops (h : Twins scope host host') (hname : scope.allows name) (base : Ops) :
    Alike scope (host.ops lib base name) (host'.ops lib base name) := by
  unfold Host.ops
  rw [h.get hname, h.storePath, h.around hname]
  split
  · exact ⟨rfl, h⟩
  · generalize lib.hold base (host'.storePath name) (host'.around name) = held
    obtain ⟨held, around⟩ := held
    have hset := h.setAround name around
    cases held with
    | error err => exact ⟨rfl, hset⟩
    | ok held => exact ⟨rfl, hset.keep name held⟩

theorem answer (h : Twins scope host host') (hname : scope.allows name) (base : Ops) (held : H)
    {request : Request Q} (hpath : request.Pathless) :
    Alike scope (Tenancy.answer disk lib host base name held request)
      (Tenancy.answer disk lib host' base name held request) := by
  unfold Tenancy.answer
  rw [h.around hname]
  generalize lib.reapTransactions base held (host'.around name) = reaped
  obtain ⟨reaped, held, around⟩ := reaped
  have hreap := (h.setAround name around).keep name held
  dsimp only
  generalize (host.setAround name around).keep name held = next at hreap
  generalize (host'.setAround name around).keep name held = next' at hreap
  cases reaped with
  | error err => exact ⟨rfl, hreap⟩
  | ok _ =>
    cases request with
    | ordinary request =>
      dsimp only
      rw [hreap.around hname]
      exact ⟨rfl, (hreap.setAround name _).keep name _⟩
    | repoPush registry branch path =>
      obtain rfl : path = none := hpath
      exact ⟨rfl, hreap⟩
    | exportStream registry path => exact hpath.elim
    | importStream name path => exact hpath.elim
    | registries => exact ⟨rfl, hreap⟩
    | registryCreate name => exact ⟨rfl, hreap⟩

theorem answerRouted (h : Twins scope host host') {target : Except BorgError String} (base : Ops)
    {request : Request Q} (hpath : request.Pathless)
    (htarget : ∀ name, target = .ok name → scope.allows name) :
    Alike scope (Tenancy.answerRouted disk lib host target base request scope)
      (Tenancy.answerRouted disk lib host' target base request scope) := by
  have hrouted : routed host target request scope = routed host' target request scope := by
    unfold routed
    split
    · exact h.routeWithin _
    · rfl
  rw [answerRouted_eq, answerRouted_eq, hrouted]
  split
  · exact ⟨rfl, h⟩
  · rename_i name hname
    have hallows := routed_allows htarget hname
    obtain ⟨hheld, hnext⟩ : Alike scope (host.ops lib base name) (host'.ops lib base name) :=
      h.ops hallows base
    generalize host.ops lib base name = opened at hheld hnext
    generalize host'.ops lib base name = opened' at hheld hnext
    obtain ⟨held, next⟩ := opened
    obtain ⟨held', next'⟩ := opened'
    obtain rfl : held = held' := hheld
    cases held with
    | error err => exact ⟨rfl, hnext⟩
    | ok held => exact hnext.answer hallows base held hpath

theorem dispatch (h : Twins scope host host') {target : Except BorgError String} (base : Ops)
    {request : Request Q} (hpath : request.Pathless)
    (htarget : ∀ name, target = .ok name → scope.allows name) :
    Alike scope (Tenancy.dispatch disk lib host target base request scope)
      (Tenancy.dispatch disk lib host' target base request scope) := by
  cases request with
  | registries => exact ⟨congrArg Response.registries h.hostedWithin, h⟩
  | registryCreate name =>
    unfold Tenancy.dispatch
    dsimp only
    split
    · exact ⟨rfl, h⟩
    · rename_i hpermit
      obtain ⟨hmade, hnext⟩ : Alike scope (host.create lib base name) (host'.create lib base name) :=
        h.create (allows_of_permit hpermit) base
      generalize host.create lib base name = created at hmade hnext
      generalize host'.create lib base name = created' at hmade hnext
      obtain ⟨made, next⟩ := created
      obtain ⟨made', next'⟩ := created'
      obtain rfl : made = made' := hmade
      cases made with
      | error err => exact ⟨rfl, hnext⟩
      | ok _ => exact ⟨rfl, hnext⟩
  | importStream name path => exact hpath.elim
  | exportStream registry path => exact hpath.elim
  | repoPush registry branch path => exact h.answerRouted base hpath htarget
  | ordinary request => exact h.answerRouted base hpath htarget

end Twins

theorem mode_eq {digest : String → String} {dataDir : String} {file : Option KeysFile}
    {admin admin' presented : Option String} {access access' : Access}
    (h : Keys.authorize digest dataDir file admin presented = .ok access)
    (h' : Keys.authorize digest dataDir file admin' presented = .ok access') : access.mode = access'.mode := by
  cases hload : Keys.load dataDir file with
  | error err =>
    unfold Keys.authorize at h
    rw [hload] at h
    cases h
  | ok keys =>
    cases keys with
    | none =>
      unfold Keys.authorize at h h'
      rw [hload] at h h'
      cases h
      cases h'
      rfl
    | some keys =>
      have hrequired : ∀ admin access, Keys.authorize digest dataDir file admin presented = .ok access →
          access.mode = "required" := by
        intro admin access h
        unfold Keys.authorize at h
        rw [hload] at h
        dsimp only at h
        split at h
        · cases h
        · split_ifs at h
          · cases h
            rfl
          · split at h
            · cases h
            · cases h
              rfl
      rw [hrequired admin access h, hrequired admin' access' h']

/-- Where one credential earns the same scope, handshakes go alike. -/
theorem handshake_alike (h : Agrees scope host host') {hello : Except String ClientHello}
    (hpresents : ∀ greeting, hello = .ok greeting →
      Presents setup disk host scope greeting.credential ∧
        Presents setup disk host' scope greeting.credential) :
    handshake setup disk host hello = handshake setup disk host' hello := by
  cases hello with
  | error err => rfl
  | ok greeting =>
    obtain ⟨⟨access, haccess, hscope⟩, access', haccess', hscope'⟩ := hpresents greeting rfl
    have hmode : access.mode = access'.mode := by
      have hload := h.keys
      unfold Host.authorize at haccess haccess'
      rw [h.dataDir, hload] at haccess
      exact mode_eq haccess haccess'
    unfold handshake
    dsimp only
    rw [haccess, haccess']
    dsimp only
    rw [hscope, hscope', h.routeWithin, hmode]

/-- The files that decide what a credential gets. -/
def Credentials : Place → Prop
  | .keys => True
  | .admin => True
  | _ => False

theorem Credentials.outside {place : Place} (h : Credentials place) : Outside scope place := by
  rintro name file rfl
  exact h.elim

/-- An arrival that carries no path. -/
def Arrival.Pathless : Arrival Q → Prop
  | .send _ (.request request) => request.Pathless
  | _ => True

/-- Two servers that have come the same way, as far as a scope can tell. -/
structure AgreeSince (scope : Scope) (host host' : Host P H) (s s' : Served P H) : Prop where
  hosts : Twins scope s.host s'.host
  connections : s.connections = s'.connections
  within : ∀ id connection, s.connections id = some connection → connection.Within scope
  leaves : Leaves Credentials host s.host
  leaves' : Leaves Credentials host' s'.host

theorem leaves_credentials {target : Except BorgError String} (base : Ops) {request : Request Q}
    (hpath : request.Pathless) (htarget : ∀ name, target = .ok name → scope.allows name) :
    Leaves Credentials host (dispatch disk lib host target base request scope).2 := by
  refine leaves_dispatch htarget (fun place hplace => hplace.outside) base ?_
  rintro name registry path _ rfl
  exact hpath.elim

theorem AgreeSince.next {s s' : Served P H} (h : AgreeSince scope host host' s s') {arrival : Arrival Q}
    (hpath : arrival.Pathless)
    (hpresents : ∀ id greeting, arrival = .connect id (.ok greeting) →
      Presents setup disk host scope greeting.credential ∧
        Presents setup disk host' scope greeting.credential) :
    (s.next setup disk lib arrival).1 = (s'.next setup disk lib arrival).1 ∧
      AgreeSince scope host host' (s.next setup disk lib arrival).2 (s'.next setup disk lib arrival).2 := by
  cases arrival with
  | connect id hello =>
    have hpresent : ∀ greeting, hello = .ok greeting →
        Presents setup disk s.host scope greeting.credential ∧
          Presents setup disk s'.host scope greeting.credential := by
      rintro greeting rfl
      obtain ⟨⟨access, haccess, hscope⟩, access', haccess', hscope'⟩ := hpresents id greeting rfl
      exact ⟨⟨access, (h.leaves.authorize trivial trivial _).trans haccess, hscope⟩,
        access', (h.leaves'.authorize trivial trivial _).trans haccess', hscope'⟩
    have hshake := handshake_alike h.hosts.toAgrees hpresent
    unfold Served.next
    rw [← h.connections]
    dsimp only
    split
    · exact ⟨rfl, h⟩
    · refine ⟨?_, h.hosts, ?_, ?_, h.leaves, h.leaves'⟩
      · exact congrArg (fun shaken => Reply.ack shaken.1) hshake
      · exact congrArg (fun shaken => Function.update s.connections id shaken.2) hshake
      · intro other connection hother
        dsimp only at hother
        obtain rfl | hne := eq_or_ne other id
        · rw [Function.update_self] at hother
          exact handshake_within (fun greeting hgreeting => (hpresent greeting hgreeting).1) hother
        · rw [Function.update_of_ne hne] at hother
          exact h.within other connection hother
  | send id message =>
    unfold Served.next
    rw [← h.connections]
    dsimp only
    split
    · exact ⟨rfl, h⟩
    · rename_i connection hconnection
      cases message with
      | unreadable err => exact ⟨rfl, h⟩
      | request request =>
        obtain ⟨hscope, htarget⟩ := h.within id connection hconnection
        dsimp only
        rw [hscope]
        obtain ⟨hresponse, hhosts⟩ : Twins.Alike scope
            (dispatch disk lib s.host connection.target connection.base request scope)
            (dispatch disk lib s'.host connection.target connection.base request scope) :=
          h.hosts.dispatch connection.base hpath htarget
        exact ⟨congrArg Reply.response hresponse, hhosts, rfl, h.within,
          h.leaves.trans (leaves_credentials connection.base hpath htarget),
          h.leaves'.trans (leaves_credentials connection.base hpath htarget)⟩

/-- Credentials of a scope are answered by what is inside it and by what the process keeps: two servers that
agree on both answer all that they send alike, where it carries no path on the server's disk. -/
theorem scoped_sees_nothing_outside {s s' : Served P H} (hagrees : Agrees scope s.host s'.host)
    (hprocess : s.host.process = s'.host.process)
    (hnew : ∀ id, s.connections id = none) (hnew' : ∀ id, s'.connections id = none)
    {arrivals : List (Arrival Q)} (hpath : ∀ arrival ∈ arrivals, arrival.Pathless)
    (hpresents : ∀ id greeting, .connect id (.ok greeting) ∈ arrivals →
      Presents setup disk s.host scope greeting.credential ∧
        Presents setup disk s'.host scope greeting.credential) :
    (Machine.run (Served.next setup disk lib) s arrivals).1 =
      (Machine.run (Served.next setup disk lib) s' arrivals).1 := by
  have hstart : AgreeSince scope s.host s'.host s s' := by
    refine ⟨⟨hagrees, hprocess⟩, ?_, ?_, .refl _, .refl _⟩
    · funext id
      rw [hnew, hnew']
    · intro id connection hid
      rw [hnew] at hid
      cases hid
  have hall : ∀ arrival ∈ arrivals, arrival.Pathless ∧ ∀ id greeting,
      arrival = .connect id (.ok greeting) → Presents setup disk s.host scope greeting.credential ∧
        Presents setup disk s'.host scope greeting.credential := by
    intro arrival harrival
    refine ⟨hpath arrival harrival, ?_⟩
    rintro id greeting rfl
    exact hpresents id greeting harrival
  refine (Machine.run_related ?_ hstart hall).1
  rintro t t' arrival ht ⟨harrival, hpresent⟩
  exact ht.next harrival hpresent

end Inside

end Scopes

/-! ### One server -/

namespace Sample

def write (around : Around Process) (file text : String) : Around Process :=
  { around with dir := Function.update around.dir file (some text) }

/-- What a registry's worker that exits instead of connecting comes to. -/
def unconnected (around : Around Process) : String × Around Process :=
  let (path, process) := around.process.nextSocketPath
  (s!"execution: /srv/total exited (exit status: 1) without connecting to {path}", { around with process })

/-- A registry that is one file, and whose ordinary requests are written to it and answered with it; one
request has its worker started, which exits. -/
def library : Library Process Unit String String where
  init _ _ around := (.ok (), write around "borg.db" "")
  restore _ _ stream around := (.ok ⟨1, 0, 1, 1, "0.1.0"⟩, write around "borg.db" stream)
  claim _ socket _ around := (.ok (), write around "borg.serving.json" socket)
  hold _ _ around := (.ok (), around)
  reapTransactions _ held around := (.ok (), held, around)
  ordinary _ request held around :=
    if request = "get Company:o-1.total current" then
      let (message, around) := unconnected around
      (message, held, around)
    else ((around.dir "borg.db").getD "", held, write around "borg.db" request)
  repoPush _ _ _ held around := (.ok ⟨none, []⟩, held, around)
  exportStream _ _ around := (.ok ⟨1, 0, 0, 1, 1⟩, (around.dir "borg.db").getD "", around.process)

/-- A disk on which one path leads to a store. -/
def disk : Disk where
  resolve path :=
    if path = "/data/production/borg.db" then .registry "production" "borg.db" else .elsewhere path
  opening path files := ((files (.elsewhere path)).map .ok).getD (.error "No such file or directory")
  creating _ _ := .ok ()
  keysFile text := .keys [⟨"ci", text, .only ["staging"], 1⟩]

def setup : Setup := ⟨id, "0.1.0", ⟨none, none, .validated⟩⟩

def host (other : String) (h : other < "staging") : Host Process Unit where
  process := ⟨4711, "/tmp", 0⟩
  dataDir := "/data"
  socket := "/data/borg.sock"
  serving := true
  registries := ⟨[⟨other, none⟩, ⟨"staging", none⟩], by simpa using h⟩
  files
    | .registry name file =>
      if (name = "staging" ∨ name = other) ∧ file = "borg.db" then some name else none
    | .keys => some "borgk_staging"
    | _ => none

def served (other : String) (h : other < "staging") : Served Process Unit := ⟨host other h, fun _ => none⟩

def scope : Scope := .only ["staging"]

def greeting : ClientHello := ⟨2, none, "json", none, some "borgk_staging"⟩

theorem presents (other : String) (h : other < "staging") :
    Presents setup disk (host other h) scope greeting.credential := by
  refine ⟨.granted "ci" scope, ?_, rfl⟩
  have hauthorize : Keys.authorize id "/data" (some (.keys [⟨"ci", "borgk_staging", scope, 1⟩])) none
      (some "borgk_staging") = .ok (.granted "ci" scope) := by decide +kernel
  exact hauthorize

/-- A client of that key: it looks around, works, and exports to where nobody else is. -/
def working : List (Arrival String) :=
  [.connect 0 (.ok greeting), .send 0 (.request .registries), .send 0 (.request (.ordinary "layer 1")),
    .send 0 (.request (.exportStream none "/backup/staging.stream"))]

theorem presents_of_mem {arrivals : List (Arrival String)} {other : String} (h : other < "staging")
    (honly : ∀ arrival ∈ arrivals, ∀ id hello, arrival = .connect id (.ok hello) → hello = greeting)
    (id : Nat) (hello : ClientHello) (hmem : .connect id (.ok hello) ∈ arrivals) :
    Presents setup disk (host other h) scope hello.credential := by
  rw [honly _ hmem id hello rfl]
  exact presents other h

theorem working_greeting : ∀ arrival ∈ working, ∀ id hello, arrival = .connect id (.ok hello) →
    hello = greeting := by
  intro arrival hmem id hello heq
  simp only [working, List.mem_cons, List.not_mem_nil, or_false] at hmem
  subst heq
  obtain ⟨-, rfl⟩ : id = 0 ∧ hello = greeting := by simpa using hmem
  rfl

theorem resolve_elsewhere : disk.resolve "/backup/staging.stream" = .elsewhere "/backup/staging.stream" := by
  simp [disk]

theorem production_before : "production" < "staging" := by decide

/-- A server of `production` and `staging`. -/
def both : Served Process Unit := served "production" production_before

theorem production_protected : Protected both.host scope (.registry "production" "borg.db") :=
  ⟨by decide +kernel, by decide +kernel⟩

theorem working_spares : Machine.Along (fun s arrival => (Served.next setup disk library s arrival).2)
    (Spares disk (Protected both.host scope)) both working := by
  refine ⟨trivial, trivial, trivial, ?_, trivial⟩
  intro connection name _ _
  rw [resolve_elsewhere]
  exact id

/-- The key of `staging` leaves `production` as it was. -/
theorem scoped_changes_nothing_outside_working :
    (Machine.run (Served.next setup disk library) both working).2.host.files
      (.registry "production" "borg.db") = both.host.files (.registry "production" "borg.db") :=
  scoped_changes_nothing_outside (fun _ => rfl) (presents_of_mem production_before working_greeting)
    working_spares production_protected

/-- …and this one exports its own registry over the store of another. -/
def overwriting : List (Arrival String) :=
  [.connect 0 (.ok greeting), .send 0 (.request (.exportStream none "/data/production/borg.db"))]

theorem overwriting_greeting : ∀ arrival ∈ overwriting, ∀ id hello, arrival = .connect id (.ok hello) →
    hello = greeting := by
  intro arrival hmem id hello heq
  simp only [overwriting, List.mem_cons, List.not_mem_nil, or_false] at hmem
  subst heq
  obtain ⟨-, rfl⟩ : id = 0 ∧ hello = greeting := by simpa using hmem
  rfl

/-- A credential of one registry overwrites the store of another. -/
theorem scoped_overwrites : ¬ ∀ (P H Q A : Type) (setup : Setup) (disk : Disk) (lib : Library P H Q A)
    (scope : Scope) (s : Served P H) (arrivals : List (Arrival Q)) (place : Place),
    scope ≠ .all → (∀ id, s.connections id = none) →
    (∀ id greeting, .connect id (.ok greeting) ∈ arrivals →
      Presents setup disk s.host scope greeting.credential) →
    Protected s.host scope place →
      (Machine.run (Served.next setup disk lib) s arrivals).2.host.files place = s.host.files place := by
  intro h
  have hsame := h Process Unit String String setup disk library scope both overwriting
    (.registry "production" "borg.db") (by decide) (fun _ => rfl)
    (presents_of_mem production_before overwriting_greeting) production_protected
  have hdiffers : (Machine.run (Served.next setup disk library) both overwriting).2.host.files
      (.registry "production" "borg.db") ≠ both.host.files (.registry "production" "borg.db") := by
    decide +kernel
  exact hdiffers hsame

/-- A server of `archive` and `staging`. -/
def either : Served Process Unit := served "archive" (by decide)

theorem both_agrees : Agrees scope both.host either.host := by
  refine ⟨rfl, rfl, rfl, ?_, ?_, rfl⟩
  · simp [both, either, served, host, scope, Scope.allows]
  · intro name hname
    obtain rfl : name = "staging" := by simpa [scope, Scope.allows] using hname
    funext file
    simp [both, either, served, host, Host.dir]

/-- A client of that key that guesses at names. -/
def guessing : List (Arrival String) :=
  [.connect 0 (.ok greeting), .send 0 (.request .registries),
    .send 0 (.request (.registryCreate "production")),
    .send 0 (.request (.repoPush (some "production") none none)), .send 0 (.request (.ordinary "layer 1"))]

theorem guessing_greeting : ∀ arrival ∈ guessing, ∀ id hello, arrival = .connect id (.ok hello) →
    hello = greeting := by
  intro arrival hmem id hello heq
  simp only [guessing, List.mem_cons, List.not_mem_nil, or_false] at hmem
  subst heq
  obtain ⟨-, rfl⟩ : id = 0 ∧ hello = greeting := by simpa using hmem
  rfl

/-- It does not learn whether `production` is there. -/
theorem scoped_sees_nothing_outside_guessing :
    (Machine.run (Served.next setup disk library) both guessing).1 =
      (Machine.run (Served.next setup disk library) either guessing).1 := by
  refine scoped_sees_nothing_outside both_agrees rfl (fun _ => rfl) (fun _ => rfl) ?_ ?_
  · intro arrival hmem
    simp only [guessing, List.mem_cons, List.not_mem_nil, or_false] at hmem
    obtain rfl | rfl | rfl | rfl | rfl := hmem
    · trivial
    · trivial
    · trivial
    · exact rfl
    · trivial
  · intro id hello hmem
    exact ⟨presents_of_mem production_before guessing_greeting id hello hmem,
      presents_of_mem (by decide) guessing_greeting id hello hmem⟩

def text : Reply String → Option String
  | .response (.answered answer) => some answer
  | _ => none

/-- The server of both, where the worker of another registry has named a socket before. -/
def busy : Served Process Unit := { both with host := { both.host with process := ⟨4711, "/tmp", 1⟩ } }

theorem busy_agrees : Agrees scope both.host busy.host := ⟨rfl, rfl, rfl, rfl, fun _ _ => rfl, rfl⟩

/-- A client of that key that asks for what a worker has to compute. -/
def asking : List (Arrival String) :=
  [.connect 0 (.ok greeting), .send 0 (.request (.ordinary "get Company:o-1.total current"))]

theorem asking_greeting : ∀ arrival ∈ asking, ∀ id hello, arrival = .connect id (.ok hello) →
    hello = greeting := by
  intro arrival hmem id hello heq
  simp only [asking, List.mem_cons, List.not_mem_nil, or_false] at hmem
  subst heq
  obtain ⟨-, rfl⟩ : id = 0 ∧ hello = greeting := by simpa using hmem
  rfl

/-- The sentence a worker's failure is reported with counts the workers of every registry. -/
theorem scoped_sees_worker_sockets : ¬ ∀ (P H Q A : Type) (setup : Setup) (disk : Disk) (lib : Library P H Q A)
    (scope : Scope) (s s' : Served P H) (arrivals : List (Arrival Q)), Agrees scope s.host s'.host →
    (∀ id, s.connections id = none) → (∀ id, s'.connections id = none) →
    (∀ arrival ∈ arrivals, arrival.Pathless) →
    (∀ id greeting, .connect id (.ok greeting) ∈ arrivals →
      Presents setup disk s.host scope greeting.credential ∧
        Presents setup disk s'.host scope greeting.credential) →
    (Machine.run (Served.next setup disk lib) s arrivals).1 =
      (Machine.run (Served.next setup disk lib) s' arrivals).1 := by
  intro h
  have hsame := h Process Unit String String setup disk library scope both busy asking busy_agrees
    (fun _ => rfl) (fun _ => rfl) ?_ ?_
  · have hsecond := congrArg (fun replies => replies[1]?.bind text) hsame
    revert hsecond
    decide +kernel
  · intro arrival hmem
    simp only [asking, List.mem_cons, List.not_mem_nil, or_false] at hmem
    obtain rfl | rfl := hmem <;> trivial
  · intro id hello hmem
    have hpresents := presents_of_mem production_before asking_greeting id hello hmem
    exact ⟨hpresents, hpresents⟩

end Sample

end Tenancy

end BorgCore
