import BorgCore.Engine.Anchors
import BorgCore.Engine.Writes

/-!
# Whole calls

The host takes whole calls, each as one step: roots and forks, pushes, clients' sessions, merges, and
transactions from begin to merge.  A call may be refused, and leaves behind what it leaves.

The definitions of every branch fold, always: a push is validated where it lands, and a merge is
accepted because nothing it carries has been moved underneath it.
-/

namespace BorgCore

/-- A log, and the transactions that are open on it. -/
structure Host where
  log : Log
  transactions : List Transaction

namespace Host

open Log

/-- One whole call.  What a transaction has read and written by the time it merges is its own affair:
any read-set and any write-set may be presented. -/
inductive Call (host : Host) : Host → Prop where
  | createRoot (name : Option String) :
      Call host { host with log := after (createRoot name host.log) }
  | fork (parent : BranchId) (origin : LayerId) (name : Option String) :
      Call host { host with log := after (fork parent origin name host.log) }
  | push (branch : BranchId) (events : List DefEvent)
      (hb : (host.log.branches.lookup branch).isSome) :
      Call host { host with log := after (push branch events host.log) }
  | write (branch : BranchId) (version : ClientVersion) (writes : List (CellRef × Value))
      (hb : (host.log.branches.lookup branch).isSome) :
      Call host { host with log := after (clientWrite branch version writes host.log) }
  | merge (child : BranchId) (mode : MergeMode) :
      Call host { host with log := after (merge child mode host.log) }
  | txBegin (branch : BranchId) (name : Option String) (tx : Transaction) (log : Log)
      (hb : (host.log.branches.lookup branch).isSome)
      (ht : txBegin branch name host.log = .ok tx log) :
      Call host ⟨log, tx :: host.transactions⟩
  | txMerge (tx : Transaction) (reads : List CellAt) (writes : List CellRef) (mode : MergeMode)
      (ht : tx ∈ host.transactions) :
      Call host { host with log := after (mergeTransaction { tx with reads, writes } mode host.log) }

variable {host host' : Host}

abbrev Calls : Host → Host → Prop := Relation.ReflTransGen Call

def Reachable (host : Host) : Prop := Calls ⟨Log.new, []⟩ host

/-- Nothing on a host is derived, and every record is at a version older than the layer it is in. -/
def Plain (id : LayerId) (commit : Commit) : Prop :=
  commit.author.isSource ∧ ∀ event ∈ commit.events, event.derivation = none ∧ event.version < id

theorem Plain.pushed {id : LayerId} {commit : Commit} (h : Plain id commit) : Pushed id commit :=
  fun _ => h.1

/-- What calls keep true. -/
structure Good (host : Host) : Prop where
  sound : host.log.Sound
  unmixed : host.log.All Unmixed
  plain : host.log.All Plain
  folds : ∀ branch, (host.log.branches.lookup branch).isSome →
    ∃ view, host.log.view (host.log.readPath branch none) = .ok view
  anchored : ∀ tx ∈ host.transactions, host.log.Anchored tx.branch tx.parent tx.forkPoint

theorem Good.view (h : host.Good) (branch : BranchId) :
    ∃ view, host.log.view (host.log.readPath branch none) = .ok view := by
  cases hb : host.log.branches.lookup branch with
  | none => exact ⟨.empty, h.sound.view_unregistered hb⟩
  | some found => exact h.folds branch (by rw [hb]; rfl)

theorem Good.pushed (h : host.Good) : host.log.All Pushed :=
  fun id commit hc => (h.plain id commit hc).pushed

theorem good_new : Good ⟨Log.new, []⟩ where
  sound := sound_new
  unmixed := nofun
  plain := nofun
  folds := nofun
  anchored := nofun

/-! ### One call -/

/-- Adding layers that are plain, where the definitions that moved have been seen to fold. -/
theorem Good.adds (h : host.Good) {commits : List (LayerId × Commit)} {log : Log}
    (hl : Adds host.log commits log) (hu : ∀ landed ∈ commits, Unmixed landed.1 landed.2)
    (hp : ∀ landed ∈ commits, Plain landed.1 landed.2)
    (hnew : ∀ branch, (log.branches.lookup branch).isSome →
      (host.log.branches.lookup branch).isSome ∧ defCommits branch commits = [] ∨
        ∃ view, log.view (log.readPath branch none) = .ok view) : Good { host with log } where
  sound := hl.sound
  unmixed := hl.all h.unmixed hu
  plain := hl.all h.plain hp
  folds branch hb := by
    rcases hnew branch hb with ⟨hold, hnone⟩ | hv
    · obtain ⟨view, hv⟩ := h.folds branch hold
      exact ⟨view, by rw [hl.view_same h.sound hold hnone, hv]⟩
    · exact hv
  anchored tx ht := (h.anchored tx ht).grows hl.grows h.sound

theorem Good.idle (h : host.Good) {log : Log} (hl : Lands host.log [] log) : Good { host with log } :=
  h.adds hl.toAdds (by simp) (by simp) fun branch hb => Or.inl ⟨hl.branches ▸ hb, rfl⟩

theorem Good.branched (h : host.Good) (name : Option String) {origin : Option LayerId}
    (ho : ∀ id, origin = some id → ∃ parent, host.log.branchOf id = some parent) :
    Good { host with log := host.log.branched name origin } := by
  refine h.adds (Adds.branched h.sound name origin ho) (by simp) (by simp) fun branch hb => ?_
  by_cases hnew : branch = host.log.nextBranch
  · subst hnew
    exact Or.inr (h.sound.view_branched name ho h.view)
  · refine Or.inl ⟨?_, rfl⟩
    simpa [Log.branched, hnew] using hb

theorem Good.push (h : host.Good) {branch : BranchId}
    (hb : (host.log.branches.lookup branch).isSome) (events : List DefEvent) :
    Good { host with log := after (push branch events host.log) } := by
  obtain ⟨view, hv⟩ := h.folds branch hb
  have hrun := push_run h.sound hb events hv
  cases ha : view.applyAll host.log.nextLayer events with
  | error err =>
    rw [ha] at hrun
    obtain ⟨log, hrun, hl⟩ := hrun
    rw [hrun]
    exact h.idle hl
  | ok next =>
    rw [ha] at hrun
    obtain ⟨log, hrun, hl⟩ := hrun
    rw [hrun, after_ok]
    refine h.adds hl.toAdds (by simp [Unmixed]) (by simp [Plain, LayerAuthor.isSource])
      fun other hother => ?_
    by_cases ho : other = branch
    · -- The layer that was validated is the one that landed.
      subst ho
      exact Or.inr ⟨next, hl.view_pushed h.sound hb hv ha⟩
    · exact Or.inl ⟨hl.branches ▸ hother, by simp [defCommits, Ne.symm ho]⟩

theorem Good.version_lt (h : host.Good) {path : ReadPath} {version : ClientVersion}
    {defs authority : DefView} {present : CellRef → Bool} {writes : List (CellRef × Value)}
    {plan : Plan} {events : List Event} (hd : host.log.viewAt path version = .ok defs)
    (hp : Plan.empty.putAll defs authority present writes = .ok plan)
    (hr : Records events plan.records) {event : Event} (he : event ∈ events) :
    event.version < host.log.nextLayer := by
  have hversioned : plan.Versioned defs := by
    refine Plan.Versioned.putAll ?_ hp
    exact fun record hm => by cases hm
  have hm : (event.at, event.value) ∈ plan.records := by
    rw [← hr.1]
    exact List.mem_map_of_mem he
  have hzero : (DefVersion.unversioned : LayerId) < host.log.nextLayer := h.sound.next_pos
  have hversion : event.version = defs.versionOf event.cell ∨ event.version = .unversioned :=
    hversioned _ hm
  rcases hversion with hv | hv
  · rcases versionOf_mem hd event.cell with hin | hun
    · have hlt : defs.versionOf event.cell < host.log.nextLayer := by
        obtain ⟨segment, _, ⟨commit, hc, _⟩, _⟩ :=
          h.sound.mem_defLayersAlong.1 ((List.takeWhile_sublist _).subset hin)
        exact (h.sound.commitAt_lt hc).2
      rw [hv]
      exact hlt
    · rw [hv, hun]
      exact hzero
  · rw [hv]
    exact hzero

theorem Good.write (h : host.Good) {branch : BranchId}
    (hb : (host.log.branches.lookup branch).isSome) (version : ClientVersion)
    (writes : List (CellRef × Value)) :
    Good { host with log := after (clientWrite branch version writes host.log) } := by
  obtain ⟨authority, ha⟩ := h.folds branch hb
  obtain ⟨defs, hd⟩ := viewAt_ok ha version
  have hrun := clientWrite_run h.sound hb ha hd writes
  cases hp : Plan.empty.putAll defs authority
      (host.log.present (host.log.readPath branch none)) writes with
  | error err =>
    rw [hp] at hrun
    obtain ⟨log, hrun, hl⟩ := hrun
    rw [hrun]
    exact h.idle hl
  | ok plan =>
    rw [hp] at hrun
    obtain ⟨session, log, events, hrun, _, _, hrecords, hl⟩ := hrun
    rw [hrun]
    refine h.adds hl.toAdds (by simp [Unmixed, Commit.client]) (fun entry hm => ?_)
      fun other hother => Or.inl ⟨hl.branches ▸ hother, by simp [defCommits, Commit.client]⟩
    rw [List.mem_singleton.1 hm]
    exact ⟨rfl, fun event he => ⟨(hrecords.2 event he).2, h.version_lt hd hp hrecords he⟩⟩

/-- A merge keeps every branch's definitions: the parent's fold with what it carries, and no other
branch sees it. -/
theorem Good.replayed (h : host.Good) {branch parent : BranchId} {since : LayerId} {mode : MergeMode}
    {reads : List CellRef} {landed : List (LayerId × Commit)} {log : Log}
    (ha : host.log.Anchored branch parent since)
    (hr : host.log.Replayed branch parent since mode reads landed log) : Good { host with log } := by
  obtain ⟨onBranch, hbranch⟩ := h.folds branch ha.registered.1
  obtain ⟨onParent, hparent⟩ := h.folds parent ha.registered.2
  obtain ⟨names, merged, rfl, _, hmerged, _⟩ := hr.view h.sound h.pushed ha hbranch hparent
  have hsource : ∀ source ∈ host.log.sourcesOf branch mode,
      host.log.commitAt source.1 = some source.2 := fun source hm => (mem_sourcesOf.1 hm).2
  refine h.adds hr.lands.toAdds (fun entry hm => ?_) (fun entry hm => ?_) fun other hother => ?_
  · obtain ⟨source, hs, rfl⟩ := List.mem_map.1 hm
    exact h.unmixed source.1 source.2 (hsource source hs)
  · have hfresh := hr.lands.fresh entry hm
    obtain ⟨source, hs, rfl⟩ := List.mem_map.1 hm
    refine ⟨rfl, fun event he => ⟨((h.plain _ _ (hsource source hs)).2 event he).1, ?_⟩⟩
    have hlt := (h.sound.commitAt_lt (hsource source hs)).2
    exact Nat.lt_of_lt_of_le (Nat.lt_trans ((h.plain _ _ (hsource source hs)).2 event he).2 hlt) hfresh
  · by_cases ho : other = parent
    · subst ho
      exact Or.inr ⟨merged, hmerged⟩
    · exact Or.inl ⟨hr.lands.branches ▸ hother, defCommits_landed_other ho rfl⟩

/-! ### Every call -/

/-- **Every call keeps a host good.** -/
theorem Call.good (h : host.Good) (hc : Call host host') : host'.Good := by
  cases hc with
  | createRoot name =>
    rw [createRoot_run h.sound]
    exact h.branched name nofun
  | fork parent origin name =>
    by_cases hp : host.log.branchOf origin = some parent
    · rw [fork_run h.sound hp]
      exact h.branched name fun id hid => ⟨parent, by cases hid; exact hp⟩
    · obtain ⟨err, he⟩ := fork_error hp name
      rw [he]
      exact h
  | push branch events hb => exact h.push hb events
  | write branch version writes hb => exact h.write hb version writes
  | merge child mode =>
    rcases merge_run h.sound h.unmixed child mode with
      ⟨err, he⟩ | ⟨parent, origin, landed, log, ho, hrun, hr⟩
    · rw [he]
      exact h
    · rw [hrun]
      exact h.replayed (h.sound.anchored_of_outward ho) hr
  | txBegin branch name tx log hb ht =>
    obtain ⟨owner, _, rfl, hp, _⟩ := txBegin_ok h.sound ht
    have hbranched := @Good.branched host h name (some tx.forkPoint) fun id hid =>
      ⟨owner, by cases hid; exact hp⟩
    refine ⟨hbranched.sound, hbranched.unmixed, hbranched.plain, hbranched.folds, fun other hm => ?_⟩
    rcases List.mem_cons.1 hm with rfl | hm
    · exact (h.sound.anchored_txBegin hb ht).2
    · exact hbranched.anchored other hm
  | txMerge tx reads writes mode ht =>
    have ha := h.anchored tx ht
    rcases replay_run h.sound ha.registered.2 h.unmixed tx.forkPoint mode
      (Transaction.guards { tx with reads, writes }) with ⟨err, he⟩ | ⟨landed, log, hrun, hr⟩
    · rw [mergeTransaction, he]
      exact h
    · rw [mergeTransaction, hrun]
      exact h.replayed ha hr

theorem Reachable.good (h : host.Reachable) : host.Good := by
  induction h with
  | refl => exact good_new
  | tail _ hc ih => exact hc.good ih

/-- **Definitions never brick a branch.**  However a log was built, the definitions fold on every
branch, and at every ceiling. -/
theorem defs_fold (h : host.Reachable) (branch : BranchId) :
    (∃ view, host.log.view (host.log.readPath branch none) = .ok view) ∧
      ∀ ceiling, ∃ view, host.log.viewAt (host.log.readPath branch none) ceiling = .ok view := by
  obtain ⟨view, hv⟩ := h.good.view branch
  exact ⟨⟨view, hv⟩, viewAt_ok hv⟩

/-- A field is declared on a root, a second one on a fork of it, and the fork is merged. -/
def merged : Host :=
  let root : Host := ⟨after (createRoot none Log.new), []⟩
  let declared := { root with
    log := after (Log.push 1 [.declareField "Doc" "title" .string 1 .source] root.log) }
  let forked := { declared with log := after (Log.fork 1 1 none declared.log) }
  let extended := { forked with
    log := after (Log.push 2 [.declareField "Doc" "size" .int 1 .source] forked.log) }
  { extended with log := after (Log.merge 2 .defAndData extended.log) }

theorem merged_reachable : merged.Reachable :=
  .tail (.tail (.tail (.tail (.tail .refl (.createRoot none)) (.push 1 _ (by decide +kernel)))
    (.fork 1 1 none)) (.push 2 _ (by decide +kernel))) (.merge 2 .defAndData)

theorem defs_fold_merged :
    (merged.log.layers.lookup 3).map Layer.state = some .committed ∧
      (∃ view, merged.log.view (merged.log.readPath 1 none) = .ok view) ∧
      ∀ ceiling, ∃ view, merged.log.viewAt (merged.log.readPath 1 none) ceiling = .ok view :=
  ⟨by decide +kernel, defs_fold merged_reachable 1⟩

end Host

end BorgCore
