import BorgCore.Ops.Runs

/-!
# Transactions land at most once

The table is what a commit goes by, so everything comes down to one invariant: a transaction that is
open in the table has not landed, has not ended, and guards whatever has been read through it.  It is
kept where a commit that lands also retires its handle, and where a write's probe reaches the table
when the write does; `Safe` says when that is.
-/

namespace BorgCore

namespace Log

variable {log log' : Log} {branch : BranchId}

/-- A client's write of a record on a branch. -/
def WroteOn (log : Log) (branch : BranchId) (record : CellAt) : Prop :=
  ∃ id commit, log.commitAt id = some commit ∧ commit.branch = branch ∧ commit.author.isSource ∧
    ∃ event ∈ commit.events, event.at = record

theorem WroteOn.persists {record : CellAt} (h : log.WroteOn branch record) (hp : Persists log log') :
    log'.WroteOn branch record := by
  obtain ⟨id, commit, hc, hrest⟩ := h
  exact ⟨id, commit, hp.commits hc, hrest⟩

end Log

namespace Happening

variable {h : Happening} {branch : BranchId} {cell : CellRef} {tx : Transaction}

/-- A commit lands a transaction: one of its layers is replayed onto its parent. -/
def Lands (h : Happening) (tx : Transaction) : Prop :=
  (∃ id, h.request = .txCommit id ∧ h.before.transaction id = some tx) ∧
    ∃ source ∈ h.before.log.sourcesOf tx.branch .defAndData, ∃ id, h.before.log.commitAt id = none ∧
      h.after.log.commitAt id = some (source.2.onto tx.parent)

/-- A transaction is aborted, or reaped. -/
def Ends (h : Happening) (branch : BranchId) : Prop :=
  h.answer = .ok .done ∧
    ((∃ id tx, h.request = .txAbort id ∧ h.before.transaction id = some tx ∧ tx.branch = branch) ∨
      (h.request = .reap ∧ ∃ found ∈ Ops.idle h.before.table h.now, found.state.branch = branch))

/-- What a request writes, through which transaction. -/
def writing (h : Happening) : Option (String × CellRef × Value) :=
  match h.request with
  | .txSet id cell value => some (id, cell, value)
  | .txCreate id structName =>
    match h.before.log.allocationBranch with
    | .ok branch =>
      some (id, .existence structName
        (.allocated .object branch serverAllocator h.before.allocations.load.next), .bool true)
    | .error _ => none
  | _ => none

/-- A read that was answered, and by what the transaction had not itself written. -/
def Reads (h : Happening) (branch : BranchId) (cell : CellRef) : Prop :=
  ∃ id tx resolved version, h.request = .txGet id cell ∧ h.before.transaction id = some tx ∧
    tx.branch = branch ∧ h.answer = .ok (.read resolved) ∧
    h.before.log.versionFor branch cell none (h.before.log.clientVersion h.args branch) = .ok version ∧
    ¬ h.before.log.WroteOn branch ⟨cell, version⟩

/-- A probe made by a write that is committed, of what the transaction had not itself written. -/
def Probes (h : Happening) (branch : BranchId) (cell : CellRef) : Prop :=
  ∃ id tx written value session log version, h.writing = some (id, written, value) ∧
    h.before.transaction id = some tx ∧ tx.branch = branch ∧
    clientWrite branch (h.before.log.clientVersion h.args branch) [(written, value)] h.before.log =
      .ok session log ∧
    ⟨cell, version⟩ ∈ session.observed ∧ ¬ h.before.log.WroteOn branch ⟨cell, version⟩

/-- What a transaction has come to rely on. -/
def Relies (h : Happening) (branch : BranchId) (cell : CellRef) : Prop :=
  h.Reads branch cell ∨ h.Probes branch cell

/-- A commit that is answered has landed everything the transaction wrote, and one that is refused has
landed nothing. -/
def Answered (h : Happening) : Prop :=
  ∀ id, h.request = .txCommit id →
    (∀ answer, h.answer = .ok answer → ∃ tx landed log, h.before.transaction id = some tx ∧
      h.before.log.Replayed tx.branch tx.parent tx.forkPoint .defAndData tx.guards landed log ∧
      Log.Persists log h.after.log ∧
      ∀ at' commit, h.after.log.commitAt at' = some commit → commit.author.isSource →
        log.commitAt at' = some commit) ∧
    ∀ err, h.answer = .error (.refused err) →
      ∀ at', h.after.log.commitAt at' = h.before.log.commitAt at'

end Happening

/-- What is asked of everything a store has been through, the latest first. -/
structure LandsOnce (past : List Happening) : Prop where
  answered : ∀ h ∈ past, h.Answered
  checked : ∀ h ∈ past, ∀ tx, h.Lands tx →
    h.before.log.checkReads tx.parent tx.guards tx.forkPoint = .ok ()
  once : past.Pairwise fun later earlier => ∀ tx tx', later.Lands tx → earlier.Lands tx' →
    tx'.branch ≠ tx.branch
  ended : past.Pairwise fun later earlier => ∀ tx, later.Lands tx → ¬ earlier.Ends tx.branch
  guarded : past.Pairwise fun later earlier => ∀ tx cell, later.Lands tx →
    earlier.Relies tx.branch cell → cell ∈ tx.guards

/-! ### Where it holds -/

/-- Whether a commit of this transaction would land anything. -/
def Happening.Merges (h : Happening) (tx : Transaction) : Prop :=
  ∃ staged, h.before.log.validateReplay tx.parent tx.forkPoint
    (h.before.log.replayableLayers tx.branch .defAndData) tx.guards = .ok staged ∧ staged ≠ []

/-- What befalls a request does no harm.  A commit that lands is not stopped in the merge, gets its
handle out of the table, and can resume the branch.  An accepted write that probes an object the transaction
neither wrote nor guards gets the probe into the table.  A read of a cell the transaction has written,
and does not guard, is of a record that it has written. -/
def Happening.Safe (h : Happening) : Prop :=
  match h.request with
  | .txCommit id => ∀ tx, h.before.transaction id = some tx → h.Merges tx →
      h.faults.merge = some 0 ∨ h.faults.merge = none ∧
        (h.faults.transactions = .stopped .torn ∨ h.faults.transactions = .stopped .new ∨
          h.faults.transactions = .done ∧
            ∀ reason left, h.faults.derivation tx.branch ≠ .failed reason left)
  | .txSet id cell value => ∀ tx, h.before.transaction id = some tx →
      (∃ session log, clientWrite tx.branch (h.before.log.clientVersion h.args tx.branch)
        [(cell, value)] h.before.log = .ok session log) →
      cell.existenceOf ≠ cell → cell.existenceOf ∉ tx.guards →
      ¬ h.before.log.WroteOn tx.branch ⟨cell.existenceOf, .unversioned⟩ →
      h.faults.transactions.left ≠ .old
  | .txGet id cell => ∀ tx version, h.before.transaction id = some tx → cell ∈ tx.writes →
      cell ∉ tx.guards →
      h.before.log.versionFor tx.branch cell none (h.before.log.clientVersion h.args tx.branch) =
        .ok version →
      h.faults.transactions = .done → h.before.log.WroteOn tx.branch ⟨cell, version⟩
  | _ => True

/-! ### An open transaction -/

/-- What is true of a transaction that is open in the table. -/
structure Good (past : List Happening) (log : Log) (tx : Transaction) : Prop where
  anchored : log.Anchored tx.branch tx.parent tx.forkPoint
  unlanded : ∀ h ∈ past, ∀ tx', h.Lands tx' → tx'.branch ≠ tx.branch
  unended : ∀ h ∈ past, ¬ h.Ends tx.branch
  covered : ∀ h ∈ past, ∀ cell, h.Relies tx.branch cell → cell ∈ tx.guards
  owned : ∀ cell ∈ tx.writes, cell.existenceOf = cell → log.WroteOn tx.branch ⟨cell, .unversioned⟩

/-- What is true of a store. -/
structure Inv (past : List Happening) (site : Site) : Prop where
  lasting : site.log.Lasting
  distinct : (site.table.opened.map fun found => found.state.branch).Nodup
  good : ∀ found ∈ site.table.opened, Good past site.log found.state
  known : ∀ h ∈ past, ∀ found ∈ h.before.table.opened,
    (site.log.branches.lookup found.state.branch).isSome
  lands : LandsOnce past

variable {past : List Happening} {site : Site} {h : Happening} {log log' : Log} {tx tx' : Transaction}
  {branch : BranchId} {cell : CellRef} {id : String}

theorem Site.transaction_eq_some (ht : site.transaction id = some tx) :
    ∃ index, site.table.index id = .ok index ∧ tx = (site.table.opened.get index).state := by
  unfold Site.transaction at ht
  split at ht
  · rename_i index hindex
    cases ht
    exact ⟨index, hindex, rfl⟩
  · cases ht

theorem Site.transaction_of {index : Fin site.table.opened.length}
    (hindex : site.table.index id = .ok index) :
    site.transaction id = some (site.table.opened.get index).state := by
  unfold Site.transaction
  rw [hindex]
  rfl

theorem Site.transaction_opened (ht : site.transaction id = some tx) :
    ∃ found ∈ site.table.opened, found.state = tx := by
  obtain ⟨index, _, rfl⟩ := site.transaction_eq_some ht
  exact ⟨_, List.getElem_mem _, rfl⟩

/-- Everything a request does concerns transactions that were open. -/
theorem Happening.Lands.opened (hl : h.Lands tx) : ∃ found ∈ h.before.table.opened, found.state = tx := by
  obtain ⟨⟨id, _, ht⟩, _⟩ := hl
  exact h.before.transaction_opened ht

theorem Happening.Ends.opened (he : h.Ends branch) :
    ∃ found ∈ h.before.table.opened, found.state.branch = branch := by
  obtain ⟨_, ⟨id, tx, _, ht, rfl⟩ | ⟨_, found, hm, hb⟩⟩ := he
  · obtain ⟨found, hm, rfl⟩ := h.before.transaction_opened ht
    exact ⟨found, hm, rfl⟩
  · exact ⟨found, List.mem_of_mem_filter hm, hb⟩

theorem Happening.Relies.opened (hr : h.Relies branch cell) :
    ∃ found ∈ h.before.table.opened, found.state.branch = branch := by
  rcases hr with ⟨id, tx, _, _, _, ht, rfl, _⟩ | ⟨id, tx, _, _, _, _, _, _, ht, rfl, _⟩
  · obtain ⟨found, hm, rfl⟩ := h.before.transaction_opened ht
    exact ⟨found, hm, rfl⟩
  · obtain ⟨found, hm, rfl⟩ := h.before.transaction_opened ht
    exact ⟨found, hm, rfl⟩

/-- What a request leaves of a transaction stays good where the request neither lands nor ends it, and
what it comes to rely on is guarded. -/
theorem Good.next (hg : Good past log tx) (hl : log.Lasting) (hp : Log.Persists log log')
    (hb : tx'.branch = tx.branch) (hparent : tx'.parent = tx.parent)
    (hfork : tx'.forkPoint = tx.forkPoint) (hreads : ∀ cell ∈ tx.guards, cell ∈ tx'.guards)
    (hwrites : ∀ cell ∈ tx'.writes, cell.existenceOf = cell → cell ∈ tx.writes ∨
      log'.WroteOn tx.branch ⟨cell, .unversioned⟩)
    (hlands : ∀ other, h.Lands other → other.branch ≠ tx.branch) (hends : ¬ h.Ends tx.branch)
    (hrelies : ∀ cell, h.Relies tx.branch cell → cell ∈ tx'.guards) : Good (h :: past) log' tx' where
  anchored := by
    rw [hb, hparent, hfork]
    exact hg.anchored.persists hp hl
  unlanded other hm found hlanded := by
    rw [hb]
    rcases List.mem_cons.1 hm with rfl | hm
    · exact hlands found hlanded
    · exact hg.unlanded other hm found hlanded
  unended other hm := by
    rw [hb]
    rcases List.mem_cons.1 hm with rfl | hm
    · exact hends
    · exact hg.unended other hm
  covered other hm cell hr := by
    rw [hb] at hr
    rcases List.mem_cons.1 hm with rfl | hm
    · exact hrelies cell hr
    · exact hreads cell (hg.covered other hm cell hr)
  owned cell hm he := by
    rw [hb]
    rcases hwrites cell hm he with hold | hnew
    · exact (hg.owned cell hold he).persists hp
    · exact hnew

theorem Good.spared (hg : Good past log tx) (hl : log.Lasting) (hp : Log.Persists log log')
    (hlands : ∀ other, h.Lands other → other.branch ≠ tx.branch) (hends : ¬ h.Ends tx.branch)
    (hrelies : ∀ cell, ¬ h.Relies tx.branch cell) : Good (h :: past) log' tx :=
  hg.next hl hp rfl rfl rfl (fun _ hm => hm) (fun _ hm _ => Or.inl hm) hlands hends
    fun cell hr => absurd hr (hrelies cell)

def Request.handle : Request → Option String
  | .txGet tx _ | .txSet tx _ _ | .txCreate tx _ | .txCommit tx | .txAbort tx => some tx
  | .txBegin | .reap => none

theorem Happening.Lands.named (hl : h.Lands tx) :
    ∃ id, h.request.handle = some id ∧ h.before.transaction id = some tx := by
  obtain ⟨⟨id, hr, ht⟩, _⟩ := hl
  exact ⟨id, by rw [hr]; rfl, ht⟩

/-- A request lands no transaction but the one it names. -/
theorem Happening.Lands.eq (hl : h.Lands tx') (hid : h.request.handle = some id)
    (ht : h.before.transaction id = some tx) : tx' = tx := by
  obtain ⟨id', hid', ht'⟩ := hl.named
  rw [hid] at hid'
  cases hid'
  rw [ht] at ht'
  cases ht'
  rfl

theorem Happening.Relies.named (hr : h.Relies branch cell) :
    ∃ id tx, h.request.handle = some id ∧ h.before.transaction id = some tx ∧ tx.branch = branch := by
  rcases hr with ⟨id, tx, _, _, hr, ht, hb, _⟩ | ⟨id, tx, _, _, _, _, _, hw, ht, hb, _⟩
  · exact ⟨id, tx, by rw [hr]; rfl, ht, hb⟩
  · refine ⟨id, tx, ?_, ht, hb⟩
    unfold Happening.writing at hw
    split at hw
    · rename_i hr
      cases hw
      rw [hr]
      rfl
    · rename_i hr
      split at hw
      · cases hw
        rw [hr]
        rfl
      · cases hw
    · cases hw

theorem Happening.Ends.named (he : h.Ends branch) (hr : h.request ≠ .reap) :
    ∃ id tx, h.request.handle = some id ∧ h.before.transaction id = some tx ∧ tx.branch = branch := by
  obtain ⟨_, ⟨id, tx, hreq, ht, hb⟩ | ⟨hreap, _⟩⟩ := he
  · exact ⟨id, tx, by rw [hreq]; rfl, ht, hb⟩
  · exact absurd hreap hr

/-! ### The table -/

/-- A table whose transactions are good, each on a branch of its own. -/
structure Entries (past : List Happening) (log : Log) (table : Transactions) : Prop where
  distinct : (table.opened.map fun found => found.state.branch).Nodup
  good : ∀ found ∈ table.opened, Good past log found.state

theorem Inv.entries (hi : Inv past site) : Entries past site.log site.table := ⟨hi.distinct, hi.good⟩

theorem entries_default : Entries past log default :=
  ⟨List.nodup_nil, fun found hm => by cases hm⟩

theorem Entries.leaves {fate : Fate} {file : Sidecar Transactions} {table : Transactions}
    (hold : fate.left = .old → Entries past log file.load)
    (hnew : fate.left = .new → Entries past log table) :
    Entries past log (fate.leaves file table).load := by
  rcases fate.load_leaves file table with ⟨hl, he⟩ | ⟨_, he⟩ | ⟨hl, he⟩
  · rw [he]
    exact hold hl
  · rw [he]
    exact entries_default
  · rw [he]
    exact hnew hl

theorem Entries.amend {table : Transactions} {index : Fin table.opened.length} {now : Nat}
    (hd : (table.opened.map fun found => found.state.branch).Nodup)
    (hb : tx.branch = (table.opened.get index).state.branch) (hg : Good past log tx)
    (hothers : ∀ found ∈ table.opened, found.state.branch ≠ (table.opened.get index).state.branch →
      Good past log found.state) : Entries past log (table.amend index tx now) := by
  have hmap : (table.amend index tx now).opened.map (fun found => found.state.branch) =
      table.opened.map fun found => found.state.branch := by
    show (table.opened.set index _).map _ = _
    rw [List.map_set]
    refine List.ext_getElem (by simp) fun i hi hi' => ?_
    rw [List.getElem_set]
    split
    · rename_i heq
      subst heq
      simp [hb]
    · rfl
  have hd' : ((table.amend index tx now).opened.map fun found => found.state.branch).Nodup := by
    rw [hmap]
    exact hd
  refine ⟨hd', fun found hm => ?_⟩
  have hself : { table.opened[index] with touched := now, state := tx } ∈
      (table.amend index tx now).opened := List.mem_set index.2 _
  rcases List.mem_or_eq_of_mem_set hm with hin | rfl
  · by_cases hbranch : found.state.branch = (table.opened.get index).state.branch
    · have hfound := List.inj_on_of_nodup_map hd' hm hself (hbranch.trans hb.symm)
      rw [hfound]
      exact hg
    · exact hothers found hin hbranch
  · exact hg

theorem Entries.remove {table : Transactions} {index : Fin table.opened.length}
    (hd : (table.opened.map fun found => found.state.branch).Nodup)
    (hothers : ∀ found ∈ table.opened, found.state.branch ≠ (table.opened.get index).state.branch →
      Good past log found.state) : Entries past log (table.remove index) := by
  have hperm : (table.opened.get index :: table.opened.eraseIdx index).Perm table.opened :=
    List.getElem_cons_eraseIdx_perm index.2
  have hd' := ((hperm.map fun found => found.state.branch).nodup_iff).2 hd
  rw [List.map_cons, List.nodup_cons] at hd'
  refine ⟨hd'.2, fun found hm => hothers found (List.mem_of_mem_eraseIdx hm) fun hb => hd'.1 ?_⟩
  rw [← hb]
  exact List.mem_map_of_mem hm

/-- A transaction that begins is on a branch nothing has been heard of before. -/
theorem Inv.fresh (hi : Inv past h.before) (ha : log'.Anchored tx.branch tx.parent tx.forkPoint)
    (hnew : tx.writes = []) (hb : h.before.log.branches.lookup tx.branch = none) :
    Good (h :: past) log' tx := by
  have hunknown : ∀ other ∈ h :: past, ∀ found ∈ other.before.table.opened,
      found.state.branch ≠ tx.branch := by
    intro other hm found hfound heq
    have hknown : (h.before.log.branches.lookup found.state.branch).isSome := by
      rcases List.mem_cons.1 hm with rfl | hm
      · exact (hi.good found hfound).anchored.1.1
      · exact hi.known other hm found hfound
    rw [heq, hb] at hknown
    cases hknown
  refine ⟨ha, fun other hm found hl => ?_, fun other hm he => ?_, fun other hm cell hrelies => ?_, ?_⟩
  · obtain ⟨entry, hentry, rfl⟩ := hl.opened
    exact hunknown other hm entry hentry
  · obtain ⟨entry, hentry, heq⟩ := he.opened
    exact hunknown other hm entry hentry heq
  · obtain ⟨entry, hentry, heq⟩ := hrelies.opened
    exact absurd heq (hunknown other hm entry hentry)
  · intro cell hm
    rw [hnew] at hm
    cases hm

theorem Inv.others (hi : Inv past h.before) (hp : Log.Persists h.before.log log')
    (hid : h.request.handle = some id) (ht : h.before.transaction id = some tx) {found : Open}
    (hm : found ∈ h.before.table.opened) (hb : found.state.branch ≠ tx.branch) :
    Good (h :: past) log' found.state := by
  have hsame {other : String} {tx' : Transaction} (hid' : h.request.handle = some other)
      (ht' : h.before.transaction other = some tx') : tx' = tx := by
    rw [hid] at hid'
    cases hid'
    rw [ht] at ht'
    cases ht'
    rfl
  refine (hi.good found hm).spared hi.lasting hp (fun other hl heq => ?_) (fun he => ?_)
    fun cell hr => ?_
  · rw [hl.eq hid ht] at heq
    exact hb heq.symm
  · obtain ⟨id', tx', hid', ht', heq⟩ := he.named fun hreap => by rw [hreap] at hid; cases hid
    rw [hsame hid' ht'] at heq
    exact hb heq.symm
  · obtain ⟨id', tx', hid', ht', heq⟩ := hr.named
    rw [hsame hid' ht'] at heq
    exact hb heq.symm

theorem Inv.idle (hi : Inv past h.before) (hp : Log.Persists h.before.log log')
    (hlands : ∀ tx, ¬ h.Lands tx) (hends : ∀ branch, ¬ h.Ends branch)
    (hrelies : ∀ branch cell, ¬ h.Relies branch cell) : Entries (h :: past) log' h.before.table :=
  ⟨hi.distinct, fun found hm => (hi.good found hm).spared hi.lasting hp
    (fun other hl => absurd hl (hlands other)) (hends _) (hrelies _)⟩

/-! ### From one request to the next -/

theorem Good.persists (hg : Good past log tx) (hl : log.Lasting) (hp : Log.Persists log log') :
    Good past log' tx :=
  ⟨hg.anchored.persists hp hl, hg.unlanded, hg.unended, hg.covered,
    fun cell hm he => (hg.owned cell hm he).persists hp⟩

theorem Entries.persists {table : Transactions} (he : Entries past log table) (hl : log.Lasting)
    (hp : Log.Persists log log') : Entries past log' table :=
  ⟨he.distinct, fun found hm => (he.good found hm).persists hl hp⟩

theorem Inv.moved (hi : Inv past site) {site' : Site} (ht : site'.transactions = site.transactions)
    (hl : site'.log.Lasting) (hp : Log.Persists site.log site'.log) : Inv past site' := by
  have htable : site'.table = site.table := by rw [Site.table, Site.table, ht]
  have he := hi.entries.persists hi.lasting hp
  refine ⟨hl, ?_, ?_, fun h hm found hf => hp.registered (hi.known h hm found hf), hi.lands⟩
  · rw [htable]
    exact he.distinct
  · rw [htable]
    exact he.good

/-- A request that leaves the table good, and answers for what it does, is one more the store has been
through. -/
theorem Inv.next (hi : Inv past h.before) {site : Site} (hf : h.From site) (hl : site.log.Lasting)
    (hp : Log.Persists h.before.log site.log) (he : Entries (h :: past) site.log site.table)
    (ha : h.Answered)
    (hc : ∀ tx, h.Lands tx → h.before.log.checkReads tx.parent tx.guards tx.forkPoint = .ok ()) :
    Inv (h :: past) h.after := by
  obtain ⟨hlasting, hcommits, hbranches, ht, _⟩ := hf.kept hl
  have hkept : Log.Persists site.log h.after.log :=
    ⟨fun hcommit => by rw [hcommits, hcommit], fun hb => by rw [hbranches, hb]⟩
  have hsite : Inv (h :: past) site := by
    refine ⟨hl, he.distinct, he.good, fun other hm found hfound => ?_, ?_, ?_, ?_, ?_, ?_⟩
    · rcases List.mem_cons.1 hm with rfl | hm
      · exact hp.registered (hi.good found hfound).anchored.1.1
      · exact hp.registered (hi.known other hm found hfound)
    · intro other hm
      rcases List.mem_cons.1 hm with rfl | hm
      · exact ha
      · exact hi.lands.answered other hm
    · intro other hm
      rcases List.mem_cons.1 hm with rfl | hm
      · exact hc
      · exact hi.lands.checked other hm
    · refine List.pairwise_cons.2 ⟨fun earlier hm tx tx' hlands hearlier => ?_, hi.lands.once⟩
      obtain ⟨found, hfound, rfl⟩ := hlands.opened
      exact (hi.good found hfound).unlanded earlier hm tx' hearlier
    · refine List.pairwise_cons.2 ⟨fun earlier hm tx hlands => ?_, hi.lands.ended⟩
      obtain ⟨found, hfound, rfl⟩ := hlands.opened
      exact (hi.good found hfound).unended earlier hm
    · refine List.pairwise_cons.2 ⟨fun earlier hm tx cell hlands hr => ?_, hi.lands.guarded⟩
      obtain ⟨found, hfound, rfl⟩ := hlands.opened
      exact (hi.good found hfound).covered earlier hm cell hr
  exact hsite.moved ht hlasting hkept

end BorgCore
