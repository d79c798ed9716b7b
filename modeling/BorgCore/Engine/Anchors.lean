import BorgCore.Engine.Replay
import BorgCore.Engine.Transactions

/-!
# Branches that stand on others

A branch forked for a merge stands on its parent as the parent was at a layer: it sees the def layers
the parent had then, and the parent has moved some fields since.  A merge refuses def events about
those, and that is enough for the parent to accept all the others, since a field's life depends on
nothing but its own events.
-/

namespace BorgCore

namespace Log

variable {start log log' : Log} {branch child parent : BranchId} {origin since : LayerId}

/-! ### What a branch was forked with -/

/-- A branch that stands on another one as that stood at a layer: forked from it, or, where it had no
layer of its own to fork, from the branch it was itself forked from. -/
structure Anchored (log : Log) (branch parent : BranchId) (since : LayerId) : Prop where
  registered : (log.branches.lookup branch).isSome ∧ (log.branches.lookup parent).isSome
  anchor : ∃ owner, log.outward branch = some (owner, since) ∧
    (owner = parent ∨ log.outward parent = some (owner, since))

theorem Anchored.grows (ha : log.Anchored branch parent since) (hg : Grows log log') (h : log.Sound) :
    log'.Anchored branch parent since := by
  obtain ⟨⟨hb, hp⟩, owner, ho, howner⟩ := ha
  refine ⟨⟨hg.registered hb, hg.registered hp⟩, owner, by rw [hg.outward hb h, ho], ?_⟩
  rw [hg.outward hp h]
  exact howner

theorem Sound.anchored_of_outward (h : log.Sound) (ho : log.outward child = some (parent, origin)) :
    log.Anchored child parent origin := by
  obtain ⟨found, hf, _, _⟩ := outward_eq_some ho
  exact ⟨⟨by rw [hf]; rfl, h.outward_registered ho⟩, parent, ho, Or.inl rfl⟩

/-- The parent's stream is what the branch was forked with and what the parent landed since. -/
theorem Sound.defLayersAlong_anchored (h : log.Sound) (ha : log.Anchored branch parent since) :
    log.defLayersAlong (log.readPath parent none) =
      log.inherited branch ++ (log.ownDefs parent).filter (since < ·) := by
  obtain ⟨_, owner, ho, howner⟩ := ha
  have hinherited : log.inherited branch = log.defLayersAlong (log.readPath owner (some since)) := by
    rw [inherited, ho]
  obtain ⟨_, _, _, hlayer⟩ := outward_eq_some ho
  rw [h.defLayersAlong_none]
  rcases howner with rfl | howner
  · rw [hinherited, h.defLayersAlong_some hlayer, List.append_assoc,
      filter_append_filter h.ownDefs_sorted]
  · have hall : (log.ownDefs parent).filter (since < ·) = log.ownDefs parent := by
      refine List.filter_eq_self.2 fun id hid => decide_eq_true ?_
      obtain ⟨found, hf, hfo, _⟩ := outward_eq_some howner
      obtain ⟨commit, hc, hb, _⟩ := h.mem_ownDefs.1 hid
      exact h.origin_lt ⟨commit, hc, hb⟩ hf hfo
    rw [hall, hinherited, inherited, howner]

theorem Sound.inherited_le_anchor (h : log.Sound) (ha : log.Anchored branch parent since)
    {id : LayerId} (hid : id ∈ log.inherited branch) : id ≤ since := by
  obtain ⟨_, owner, ho, _⟩ := ha
  obtain ⟨next, hn, hle⟩ := h.inherited_le hid
  rw [ho] at hn
  cases hn
  exact hle

theorem Sound.anchor_lt (h : log.Sound) (ha : log.Anchored branch parent since) {id : LayerId}
    (hc : log.CommittedOn branch id) : since < id := by
  obtain ⟨_, owner, ho, _⟩ := ha
  obtain ⟨found, hf, hfo, _⟩ := outward_eq_some ho
  exact h.origin_lt hc hf hfo

/-! ### Merging definitions -/

/-- A def layer is a source layer: definitions are pushed and merged, never derived. -/
def Pushed (_ : LayerId) (commit : Commit) : Prop := commit.kind = .defs → commit.author.isSource

variable {mode : MergeMode} {reads : List CellRef} {landed : List (LayerId × Commit)}
  {names : LayerId → LayerId}

/-- The def layers of a branch are among the layers any merge of it replays. -/
theorem Sound.ownDefs_eq (h : log.Sound) (hpushed : log.All Pushed) (mode : MergeMode) :
    log.ownDefs child =
      ((log.sourcesOf child mode).filter fun source => source.2.kind = .defs).map Prod.fst := by
  have hsub : (((log.sourcesOf child mode).filter fun source => source.2.kind = .defs).map
      Prod.fst).Sublist (log.replayableLayers child mode) := by
    rw [← h.sourcesOf_fst]
    exact List.filter_sublist.map _
  refine sorted_ext h.ownDefs_sorted ((h.replayableLayers_sorted mode).sublist hsub) fun id => ?_
  simp only [h.mem_ownDefs, DefOn, List.mem_map, List.mem_filter, mem_sourcesOf,
    h.mem_replayableLayers, decide_eq_true_eq]
  constructor
  · rintro ⟨commit, hc, hb, hk⟩
    exact ⟨(id, commit), ⟨⟨⟨commit, hc, hb, hpushed id commit hc hk, fun _ => hk⟩, hc⟩, hk⟩, rfl⟩
  · rintro ⟨source, ⟨⟨⟨commit, hc, hb, _⟩, hc'⟩, hk⟩, rfl⟩
    rw [hc] at hc'
    cases hc'
    exact ⟨_, hc, hb, hk⟩

theorem Sound.eventsOf_ownDefs (h : log.Sound) (hpushed : log.All Pushed) (mode : MergeMode) :
    log.eventsOf (log.ownDefs child) =
      streamOf ((log.sourcesOf child mode).filter fun source => source.2.kind = .defs) := by
  rw [h.ownDefs_eq hpushed mode, eventsOf, streamOf, List.flatMap_map]
  refine List.flatMap_congr fun source hm => ?_
  rw [readDefLayer_eq (mem_sourcesOf.1 (List.mem_of_mem_filter hm)).2]

/-- A merge lands the child's def events under new names. -/
theorem streamOf_landed {sources : List (LayerId × Commit)}
    (hl : landed = sources.map fun source => (names source.1, source.2.onto parent)) :
    streamOf (defCommits parent landed) =
      (streamOf (sources.filter fun source => source.2.kind = .defs)).map
        fun entry => (names entry.1, entry.2) := by
  subst hl
  induction sources with
  | nil => rfl
  | cons source rest ih =>
    by_cases hk : source.2.kind = .defs
    · simp only [defCommits, streamOf, Commit.onto, List.map_cons, List.filter_cons, hk, and_self,
        decide_true, if_true, List.flatMap_cons, List.map_append, List.map_map] at ih ⊢
      rw [ih]
      rfl
    · simp only [defCommits, streamOf, Commit.onto, List.map_cons, List.filter_cons, hk, and_false,
        decide_false, Bool.false_eq_true, if_false] at ih ⊢
      exact ih

/-- Only a branch's own parent sees what a merge landed. -/
theorem defCommits_landed_other {sources : List (LayerId × Commit)} (hb : branch ≠ parent)
    (hl : landed = sources.map fun source => (names source.1, source.2.onto parent)) :
    defCommits branch landed = [] := by
  subst hl
  refine List.filter_eq_nil_iff.2 fun entry hm => ?_
  obtain ⟨source, _, rfl⟩ := List.mem_map.1 hm
  simp [Commit.onto, Ne.symm hb]

/-- **A merge never bricks.**  The parent has moved none of the fields the child's def events are
about, so it accepts them as the child did, and then declares those fields as the child does. -/
theorem Replayed.view (hr : log.Replayed branch parent since mode reads landed log') (h : log.Sound)
    (hpushed : log.All Pushed) (ha : log.Anchored branch parent since) {onBranch onParent : DefView}
    (hbranch : log.view (log.readPath branch none) = .ok onBranch)
    (hparent : log.view (log.readPath parent none) = .ok onParent) :
    ∃ names merged, landed = (log.sourcesOf branch mode).map
        (fun source => (names source.1, source.2.onto parent)) ∧
      (∀ id ∉ log.replayableLayers branch mode, names id = id) ∧
      log'.view (log'.readPath parent none) = .ok merged ∧
      DefView.Agree names (fun key => ¬ log.Moved parent since key) onBranch merged := by
  obtain ⟨names, hlanded, hnames⟩ := hr.names h
  -- The stream both branches start with, and what each of them has added to it.
  unfold Log.view at hbranch hparent
  rw [foldDefs_eq, h.defLayersAlong_none, eventsOf, List.flatMap_append] at hbranch
  rw [foldDefs_eq, h.defLayersAlong_anchored ha, eventsOf, List.flatMap_append] at hparent
  obtain ⟨forked, hforked, hown⟩ := DefView.foldEvents_append_ok.1 hbranch
  obtain ⟨forked', hforked', hsince⟩ := DefView.foldEvents_append_ok.1 hparent
  rw [hforked] at hforked'
  cases hforked'
  have hagree : DefView.Agree names (fun key => ¬ log.Moved parent since key) forked onParent := by
    intro key hkey
    have hkept : onParent.declared key = forked.declared key := by
      refine DefView.foldEvents_kept hsince fun entry hm ht => hkey ?_
      obtain ⟨id, hid, hentry⟩ := List.mem_flatMap.1 hm
      obtain ⟨hid, hlt⟩ := List.mem_filter.1 hid
      obtain ⟨commit, hc, hb, hk⟩ := h.mem_ownDefs.1 hid
      rw [readDefLayer_eq hc] at hentry
      obtain ⟨event, he, rfl⟩ := List.mem_map.1 hentry
      exact ⟨id, commit, hc, hb, hk, of_decide_eq_true hlt, event, he, ht⟩
    rw [hkept]
    cases hd : forked.declared key with
    | none => rfl
    | some declared =>
      have hle : declared.version ≤ since := by
        refine DefView.foldEvents_version (p := (· ≤ since)) hforked (fun entry hm => ?_)
          (fun _ _ hnone => by cases hnone) key declared hd
        obtain ⟨id, hid, hentry⟩ := List.mem_flatMap.1 hm
        obtain ⟨_, _, rfl⟩ := List.mem_map.1 hentry
        exact h.inherited_le_anchor ha hid
      have hname : names declared.version = declared.version := by
        refine hnames _ fun hm => ?_
        obtain ⟨commit, hc, hb, _⟩ := h.mem_replayableLayers.1 hm
        exact absurd (h.anchor_lt ha ⟨commit, hc, hb⟩) (Nat.not_lt.2 hle)
      rw [Option.map_some, FieldDef.rename, hname]
  -- The branch's own events, accepted by the parent under their new names.
  have hstream : log.eventsOf (log.ownDefs branch) = _ := h.eventsOf_ownDefs hpushed mode
  rw [eventsOf] at hstream
  rw [hstream] at hown
  obtain ⟨merged, hmerged, hagree'⟩ := hagree.foldEvents (fun entry hm key ht => by
    obtain ⟨source, hs, hentry⟩ := List.mem_flatMap.1 hm
    obtain ⟨event, he, rfl⟩ := List.mem_map.1 hentry
    exact (hr.validated source (List.mem_of_mem_filter hs)).diverged event he key ht) hown
  refine ⟨names, merged, hlanded, hnames, ?_, hagree'⟩
  unfold Log.view
  rw [foldDefs_eq, hr.lands.eventsOf h ha.registered.2, streamOf_landed hlanded,
    h.defLayersAlong_anchored ha, eventsOf, List.flatMap_append]
  exact DefView.foldEvents_append_ok.2 ⟨onParent, DefView.foldEvents_append_ok.2 ⟨forked, hforked, hsince⟩, hmerged⟩

/-! ### Streams of branches that are left alone -/

theorem Adds.view_same {commits : List (LayerId × Commit)} (hl : Adds start commits log)
    (h : start.Sound) (hb : (start.branches.lookup branch).isSome)
    (hnone : defCommits branch commits = []) :
    log.view (log.readPath branch none) = start.view (start.readPath branch none) := by
  unfold Log.view
  rw [foldDefs_eq, foldDefs_eq, hl.eventsOf h hb, hnone, streamOf, List.flatMap_nil, List.append_nil]

theorem Lands.view_pushed {id : LayerId} {events : List DefEvent} {view next : DefView}
    (hl : Lands start [(id, ⟨branch, .defs, .source, [], [], events⟩)] log) (h : start.Sound)
    (hb : (start.branches.lookup branch).isSome) (hv : start.view (start.readPath branch none) = .ok view)
    (ha : view.applyAll id events = .ok next) : log.view (log.readPath branch none) = .ok next := by
  unfold Log.view at hv ⊢
  rw [foldDefs_eq] at hv
  rw [foldDefs_eq, hl.eventsOf h hb]
  rw [DefView.applyAll_eq] at ha
  exact DefView.foldEvents_append_ok.2 ⟨view, hv, by simpa [defCommits, streamOf] using ha⟩

theorem Sound.view_unregistered (h : log.Sound) (hb : log.branches.lookup branch = none) :
    log.view (log.readPath branch none) = .ok .empty := by
  have hout : log.outward branch = none := by simp [outward, Log.branch, hb]
  have hown : log.ownDefs branch = [] := by
    refine List.eq_nil_iff_forall_not_mem.2 fun id hid => ?_
    obtain ⟨commit, hc, hbr, _⟩ := h.mem_ownDefs.1 hid
    obtain ⟨layer, hl, _, hbr', _⟩ := commitAt_eq_some hc
    obtain ⟨found, hf, _⟩ := h.layer_branch hl
    rw [← hbr', hbr, hb] at hf
    cases hf
  unfold Log.view
  rw [h.defLayersAlong_none, hown, inherited, hout]
  rfl

theorem Sound.view_some (h : log.Sound) {layer : LayerId} (hb : log.branchOf layer = some branch)
    {view : DefView} (hv : log.view (log.readPath branch none) = .ok view) :
    ∃ view', log.view (log.readPath branch (some layer)) = .ok view' := by
  unfold Log.view at hv ⊢
  rw [foldDefs_eq, h.defLayersAlong_none, ← filter_append_filter h.ownDefs_sorted layer,
    ← List.append_assoc, eventsOf, List.flatMap_append] at hv
  obtain ⟨view', hv', _⟩ := DefView.foldEvents_append_ok.1 hv
  exact ⟨view', by rw [foldDefs_eq, h.defLayersAlong_some hb]; exact hv'⟩

theorem Sound.view_branched (h : log.Sound) (name : Option String) {forkAt : Option LayerId}
    (ho : ∀ id, forkAt = some id → ∃ parent, log.branchOf id = some parent)
    (hfolds : ∀ branch, ∃ view, log.view (log.readPath branch none) = .ok view) :
    ∃ view, (log.branched name forkAt).view ((log.branched name forkAt).readPath log.nextBranch none) =
      .ok view := by
  have hl := Adds.branched h name forkAt ho
  have hfound : (log.branched name forkAt).branches.lookup log.nextBranch =
      some ⟨log.nextBranch, name, forkAt⟩ := AList.lookup_insert _
  have hown : (log.branched name forkAt).ownDefs log.nextBranch = [] := by
    refine List.eq_nil_iff_forall_not_mem.2 fun id hid => ?_
    obtain ⟨commit, hc, hbr, _⟩ := hl.sound.mem_ownDefs.1 hid
    obtain ⟨layer, hlayer, _, hbr', _⟩ := commitAt_eq_some hc
    obtain ⟨found, hf, _⟩ := h.layer_branch hlayer
    have := (h.branch_id hf).2.1
    rw [← hbr', hbr] at this
    exact absurd this (Nat.lt_irrefl _)
  unfold Log.view
  rw [hl.sound.defLayersAlong_none, hown, List.append_nil]
  cases forkAt with
  | none =>
    have hout : (log.branched name none).outward log.nextBranch = none := by
      simp [outward, Log.branch, hfound]
    exact ⟨.empty, by rw [inherited, hout]; rfl⟩
  | some origin =>
    obtain ⟨parent, hp⟩ := ho origin rfl
    obtain ⟨layer, hlayer, hbr⟩ := Option.map_eq_some_iff.1 hp
    obtain ⟨found, hf, _⟩ := h.layer_branch hlayer
    have hregistered : (log.branches.lookup parent).isSome := by
      rw [← hbr, hf]
      rfl
    have hout := outward_of hfound rfl (hl.grows.branchOf hp)
    obtain ⟨onParent, hparent⟩ := hfolds parent
    obtain ⟨view, hv⟩ := h.view_some hp hparent
    refine ⟨view, ?_⟩
    rw [inherited, hout]
    simp only
    have hsame := hl.defLayersAlong_some h hregistered (h.layer_id hlayer).2.2
    rw [hsame, foldDefs_eq, hl.eventsOf_old, ← foldDefs_eq]
    · exact hv
    · intro id hid
      obtain ⟨segment, _, hd, _⟩ := h.mem_defLayersAlong.1 hid
      exact ⟨segment.1, hd⟩

/-! ### Transactions -/

theorem ceiling_some (layer : LayerId) : (log.readPath branch (some layer)).ceiling = layer := by
  have hle : ∀ bounds : List LayerId, (∀ bound ∈ bounds, bound ≤ layer) → bounds.foldr max 0 ≤ layer := by
    intro bounds hall
    induction bounds with
    | nil => exact Nat.zero_le _
    | cons bound rest ih =>
      exact Nat.max_le.2 ⟨hall bound List.mem_cons_self, ih fun b hb => hall b (List.mem_cons_of_mem _ hb)⟩
  have hall : ∀ bound ∈ (log.readPath branch (some layer)).segments.map Prod.snd, bound ≤ layer := by
    intro bound hb
    obtain ⟨segment, hs, rfl⟩ := List.mem_map.1 hb
    exact segmentsFrom_bound_le (Nat.le_refl _) hs
  refine Nat.le_antisymm (hle _ hall) ?_
  unfold ReadPath.ceiling readPath
  rw [segmentsFrom_succ]
  exact Nat.le_max_left _ _

theorem Sound.ceiling_none (h : log.Sound) :
    (log.readPath branch none).ceiling =
      ((log.head branch).or ((log.outward branch).map Prod.snd)).getD 0 := by
  unfold ReadPath.ceiling
  rw [h.readPath_none]
  cases ho : log.outward branch with
  | none => cases log.head branch <;> simp
  | some next =>
    obtain ⟨parent, origin⟩ := next
    have hrest : (log.readPath parent (some origin)).ceiling = origin := ceiling_some origin
    unfold ReadPath.ceiling at hrest
    simp only [List.map_cons, List.foldr_cons, hrest]
    cases hh : log.head branch with
    | none => simp
    | some top =>
      obtain ⟨found, hf, hfo, _⟩ := outward_eq_some ho
      have hlt := h.origin_lt ((h.projected.heads_iff branch top).1 hh).1 hf hfo
      exact Nat.max_eq_left (Nat.le_of_lt hlt)

theorem txBegin_ok (h : log.Sound) {name : Option String} {tx : Transaction}
    (ht : txBegin branch name log = .ok tx log') :
    ∃ owner, tx = .new log.nextBranch branch tx.forkPoint ∧
      log' = log.branched name (some tx.forkPoint) ∧ log.branchOf tx.forkPoint = some owner ∧
      (owner = branch ∨ log.outward branch = some (owner, tx.forkPoint)) ∧
      (log.readPath branch none).ceiling = tx.forkPoint ∧ tx.forkPoint ≠ 0 := by
  rw [txBegin, Calls.bind_ok Calls.get_run] at ht
  unfold forkPointOf at ht
  by_cases hzero : (log.readPath branch none).ceiling ≠ 0
  · simp only [if_pos hzero] at ht
    cases hlayer : log.layer (log.readPath branch none).ceiling with
    | none =>
      have hask : ask (fun log' => log'.ownerOf (log.readPath branch none).ceiling) log =
          .error (.storage s!"unknown layer L{(log.readPath branch none).ceiling}") log := by
        simp only [ask, ownerOf, hlayer]
      rw [Calls.bind_error hask] at ht
      cases ht
    | some layer =>
      have hask : ask (fun log' => log'.ownerOf (log.readPath branch none).ceiling) log =
          .ok layer.branch log := by
        simp only [ask, ownerOf, hlayer]
      have hp : log.branchOf (log.readPath branch none).ceiling = some layer.branch := by
        simp [branchOf, hlayer]
      rw [Calls.bind_ok hask, Calls.bind_ok (fork_run h hp name)] at ht
      cases ht
      refine ⟨layer.branch, rfl, rfl, hp, ?_, rfl, hzero⟩
      simp only [Transaction.new]
      rw [h.ceiling_none] at hp hzero ⊢
      cases hh : log.head branch with
      | some top =>
        rw [hh] at hp
        obtain ⟨commit, hc, hb⟩ := ((h.projected.heads_iff branch top).1 hh).1
        obtain ⟨stored, hl, _, hbr, _⟩ := commitAt_eq_some hc
        simp only [branchOf, Log.layer, Option.some_or, Option.getD_some, hl, Option.map_some,
          Option.some.injEq] at hp
        exact Or.inl (by rw [← hp, ← hbr, hb])
      | none =>
        cases ho : log.outward branch with
        | none => simp [hh, ho] at hzero
        | some next =>
          obtain ⟨owner, origin⟩ := next
          obtain ⟨_, _, _, hp'⟩ := outward_eq_some ho
          simp only [hh, ho, Option.none_or, Option.map_some, Option.getD_some] at hp ⊢
          rw [hp'] at hp
          cases hp
          exact Or.inr rfl
  · rw [if_neg hzero] at ht
    cases ht

/-- A transaction's branch stands on the branch it was opened on. -/
theorem Sound.anchored_txBegin (h : log.Sound) (hb : (log.branches.lookup branch).isSome)
    {name : Option String} {tx : Transaction} (ht : txBegin branch name log = .ok tx log') :
    Adds log [] log' ∧ log'.Anchored tx.branch tx.parent tx.forkPoint := by
  obtain ⟨owner, htx, rfl, hp, howner, _, _⟩ := txBegin_ok h ht
  have hl := Adds.branched h name (some tx.forkPoint) fun id hid => ⟨owner, by cases hid; exact hp⟩
  have hfound : (log.branched name (some tx.forkPoint)).branches.lookup log.nextBranch =
      some ⟨log.nextBranch, name, some tx.forkPoint⟩ := AList.lookup_insert _
  have hbranch : tx.branch = log.nextBranch := by rw [htx]; rfl
  have hparent : tx.parent = branch := by rw [htx]; rfl
  refine ⟨hl, ?_⟩
  rw [hbranch, hparent]
  refine ⟨⟨by rw [hfound]; rfl, hl.grows.registered hb⟩, owner,
    outward_of hfound rfl (hl.grows.branchOf hp), ?_⟩
  rw [hl.grows.outward hb h]
  exact howner

end Log

end BorgCore
