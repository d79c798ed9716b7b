import BorgCore.Engine.Fold
import BorgCore.Engine.Sessions

/-!
# The def events a branch sees

A branch sees the def layers its parent had at the fork point, and then its own: two stretches of one
stream in the order of layer ids.  Landing a layer appends to the stream of its own branch and leaves
every other branch's stream alone.
-/

namespace BorgCore

namespace Log

variable {start log log' : Log} {branch parent : BranchId} {origin : LayerId}
  {commits : List (LayerId × Commit)}

/-! ### The stream along a path -/

/-- The def events of some layers, each with its layer. -/
def eventsOf (log : Log) (layers : List LayerId) : List (LayerId × DefEvent) :=
  layers.flatMap fun layer => (log.storage.readDefLayer layer).map fun event => (layer, event)

theorem foldDefs_eq (layers : List LayerId) (view : DefView) :
    log.foldDefs layers view = DefView.foldEvents (log.eventsOf layers) view := by
  induction layers generalizing view with
  | nil => rfl
  | cons layer rest ih =>
    rw [eventsOf, List.flatMap_cons, DefView.foldEvents_append, ← DefView.applyAll_eq]
    simp only [foldDefs, bind]
    cases view.applyAll layer (log.storage.readDefLayer layer) with
    | error err => rfl
    | ok next => exact ih next

/-- The definitions at a ceiling fold wherever the definitions do. -/
theorem viewAt_ok {path : ReadPath} {view : DefView} (h : log.view path = .ok view)
    (ceiling : LayerId) : ∃ view', log.viewAt path ceiling = .ok view' := by
  obtain ⟨rest, hrest⟩ := List.takeWhile_prefix (l := log.defLayersAlong path) (· ≤ ceiling)
  unfold Log.view at h
  rw [← hrest, foldDefs_eq, eventsOf, List.flatMap_append] at h
  obtain ⟨middle, hm, _⟩ := DefView.foldEvents_append_ok.1 h
  exact ⟨middle, by rw [viewAt, foldDefs_eq]; exact hm⟩

theorem versionOf_mem {layers : List LayerId} {view : DefView}
    (h : log.foldDefs layers .empty = .ok view) (cell : CellRef) :
    view.versionOf cell ∈ layers ∨ view.versionOf cell = .unversioned := by
  rw [foldDefs_eq] at h
  have hversion := DefView.foldEvents_version (p := (· ∈ layers)) h (fun entry hm => by
    obtain ⟨id, hid, hentry⟩ := List.mem_flatMap.1 hm
    obtain ⟨_, _, rfl⟩ := List.mem_map.1 hentry
    exact hid) (fun _ _ hnone => by cases hnone)
  unfold DefView.versionOf
  cases hf : view.field cell with
  | none => exact Or.inr rfl
  | some declared =>
    refine Or.inl ?_
    obtain ⟨buffer, key⟩ := cell
    cases buffer with
    | objectProp structName field => exact hversion (structName, field) declared hf
    | _ => cases hf

theorem sorted_ext {xs ys : List LayerId} (hx : xs.Pairwise (· < ·)) (hy : ys.Pairwise (· < ·))
    (h : ∀ id, id ∈ xs ↔ id ∈ ys) : xs = ys :=
  ((List.perm_ext_iff_of_nodup (hx.imp Nat.ne_of_lt) (hy.imp Nat.ne_of_lt)).2 h).eq_of_pairwise
    (fun _ _ _ _ hab hba => absurd hba (Nat.lt_asymm hab)) hx hy

theorem Sound.mem_defLayersAlong (h : log.Sound) {path : ReadPath} {id : LayerId} :
    id ∈ log.defLayersAlong path ↔
      ∃ segment ∈ path.segments, log.DefOn segment.1 id ∧ id ≤ segment.2 := by
  simp only [defLayersAlong, List.mem_insertionSort, List.mem_flatMap, defLayersOf, List.mem_filter,
    decide_eq_true_eq, h.projected.defs_iff]

theorem defOn_branch {branch' : BranchId} {id : LayerId} (h : log.DefOn branch id)
    (h' : log.DefOn branch' id) : branch = branch' := by
  obtain ⟨commit, hc, hb, _⟩ := h
  obtain ⟨commit', hc', hb', _⟩ := h'
  rw [hc] at hc'
  cases hc'
  rw [← hb, hb']

theorem Sound.defLayersAlong_sorted (h : log.Sound) {path : ReadPath}
    (hpath : (path.segments.map Prod.fst).Nodup) : (log.defLayersAlong path).Pairwise (· < ·) := by
  have hnodup : (path.segments.flatMap fun segment => log.defLayersOf segment.1 segment.2).Nodup := by
    refine List.nodup_flatMap.2 ⟨fun segment _ => ?_, ?_⟩
    · exact ((h.projected.defs_nodup segment.1).filter _).perm (List.perm_insertionSort _ _).symm
    · refine (List.pairwise_map.1 hpath).imp fun {segment segment'} hne id hid hid' => hne ?_
      simp only [defLayersOf, List.mem_insertionSort, List.mem_filter, h.projected.defs_iff] at hid hid'
      exact defOn_branch hid.1 hid'.1
  have hsorted := List.pairwise_insertionSort (· ≤ ·)
    (path.segments.flatMap fun segment => log.defLayersOf segment.1 segment.2)
  have hnodup' := hnodup.perm (List.perm_insertionSort (· ≤ ·) _).symm
  exact hsorted.imp₂ (fun _ _ hle hne => Nat.lt_of_le_of_ne hle hne) hnodup'

/-! ### Its two stretches -/

/-- The def layers a branch landed itself, oldest first. -/
def ownDefs (log : Log) (branch : BranchId) : List LayerId :=
  log.defLayersOf branch ((log.head branch).getD 0)

/-- The def layers a branch was forked with. -/
def inherited (log : Log) (branch : BranchId) : List LayerId :=
  match log.outward branch with
  | none => []
  | some (parent, origin) => log.defLayersAlong (log.readPath parent (some origin))

theorem Sound.le_head (h : log.Sound) {id : LayerId} (hc : log.CommittedOn branch id) :
    id ≤ (log.head branch).getD 0 := by
  have hlt : ∀ other, log.CommittedOn branch other → other < log.nextLayer := by
    rintro other ⟨commit, hc, _⟩
    exact (h.commitAt_lt hc).2
  obtain ⟨top, htop⟩ := exists_isTop hlt hc
  rw [head, (h.projected.heads_iff branch top).2 htop]
  exact htop.2 id hc

theorem Sound.mem_ownDefs (h : log.Sound) {id : LayerId} :
    id ∈ log.ownDefs branch ↔ log.DefOn branch id := by
  simp only [ownDefs, defLayersOf, List.mem_insertionSort, List.mem_filter, decide_eq_true_eq,
    h.projected.defs_iff]
  refine and_iff_left_of_imp fun hd => h.le_head ?_
  obtain ⟨commit, hc, hb, _⟩ := hd
  exact ⟨commit, hc, hb⟩

theorem Sound.ownDefs_sorted (h : log.Sound) : (log.ownDefs branch).Pairwise (· < ·) := by
  have hnodup : (log.ownDefs branch).Nodup :=
    ((h.projected.defs_nodup branch).filter _).perm (List.perm_insertionSort _ _).symm
  exact (List.pairwise_insertionSort (· ≤ ·) _).imp₂
    (fun _ _ hle hne => Nat.lt_of_le_of_ne hle hne) hnodup

theorem Sound.inherited_le (h : log.Sound) {id : LayerId} (hid : id ∈ log.inherited branch) :
    ∃ next, log.outward branch = some next ∧ id ≤ next.2 := by
  unfold inherited at hid
  cases ho : log.outward branch with
  | none =>
    rw [ho] at hid
    cases hid
  | some next =>
    rw [ho] at hid
    obtain ⟨segment, hs, _, hle⟩ := h.mem_defLayersAlong.1 hid
    exact ⟨next, rfl, Nat.le_trans hle (segmentsFrom_bound_le (Nat.le_refl _) hs)⟩

theorem Sound.inherited_sorted (h : log.Sound) : (log.inherited branch).Pairwise (· < ·) := by
  unfold inherited
  cases log.outward branch with
  | none => exact List.Pairwise.nil
  | some next => exact h.defLayersAlong_sorted h.segmentsFrom_nodup

theorem Sound.inherited_lt (h : log.Sound) {id own : LayerId} (hid : id ∈ log.inherited branch)
    (hown : log.DefOn branch own) : id < own := by
  obtain ⟨next, ho, hle⟩ := h.inherited_le hid
  obtain ⟨found, hf, hfo, _⟩ := outward_eq_some ho
  obtain ⟨commit, hc, hb, _⟩ := hown
  exact Nat.lt_of_le_of_lt hle (h.origin_lt ⟨commit, hc, hb⟩ hf hfo)

/-- **The stream of a branch** is what it was forked with and then its own layers. -/
theorem Sound.defLayersAlong_none (h : log.Sound) :
    log.defLayersAlong (log.readPath branch none) = log.inherited branch ++ log.ownDefs branch := by
  refine sorted_ext (h.defLayersAlong_sorted h.segmentsFrom_nodup) ?_ fun id => ?_
  · exact List.pairwise_append.2 ⟨h.inherited_sorted, h.ownDefs_sorted,
      fun id hid own hown => h.inherited_lt hid (h.mem_ownDefs.1 hown)⟩
  · rw [h.mem_defLayersAlong, h.readPath_none, List.mem_append, h.mem_ownDefs, List.exists_mem_cons_iff]
    have hown : (log.DefOn branch id ∧ id ≤ (log.head branch).getD 0) ↔ log.DefOn branch id :=
      and_iff_left_of_imp fun ⟨commit, hc, hb, _⟩ => h.le_head ⟨commit, hc, hb⟩
    rw [hown, or_comm]
    refine or_congr_left ?_
    unfold inherited
    cases log.outward branch with
    | none => simp
    | some next => exact h.mem_defLayersAlong.symm

/-- At one of its own layers, a branch sees its own layers up to there. -/
theorem Sound.defLayersAlong_some (h : log.Sound) {layer : LayerId}
    (hb : log.branchOf layer = some branch) :
    log.defLayersAlong (log.readPath branch (some layer)) =
      log.inherited branch ++ (log.ownDefs branch).filter (· ≤ layer) := by
  refine sorted_ext (h.defLayersAlong_sorted h.segmentsFrom_nodup) ?_ fun id => ?_
  · exact List.pairwise_append.2 ⟨h.inherited_sorted, h.ownDefs_sorted.filter _,
      fun id hid own hown => h.inherited_lt hid (h.mem_ownDefs.1 (List.mem_filter.1 hown).1)⟩
  · rw [h.mem_defLayersAlong, h.readPath_some hb, List.mem_append, List.mem_filter, h.mem_ownDefs,
      List.exists_mem_cons_iff, or_comm, decide_eq_true_eq]
    refine or_congr_left ?_
    unfold inherited
    cases log.outward branch with
    | none => simp
    | some next => exact h.mem_defLayersAlong.symm

theorem filter_append_filter {ids : List LayerId} (hs : ids.Pairwise (· < ·)) (bound : LayerId) :
    ids.filter (· ≤ bound) ++ ids.filter (bound < ·) = ids := by
  refine sorted_ext (List.pairwise_append.2 ⟨hs.filter _, hs.filter _, ?_⟩) hs fun id => ?_
  · intro id hid id' hid'
    exact Nat.lt_of_le_of_lt (by simpa using (List.mem_filter.1 hid).2)
      (by simpa using (List.mem_filter.1 hid').2)
  · simp only [List.mem_append, List.mem_filter, decide_eq_true_eq]
    have := Nat.lt_or_ge bound id
    lia

/-! ### What landing a layer adds -/

theorem readDefLayer_eq {id : LayerId} {commit : Commit}
    (hc : log.commitAt id = some commit) : log.storage.readDefLayer id = commit.defs := by
  obtain ⟨_, _, _, _, _, _, _, _, hd⟩ := commitAt_eq_some hc
  exact hd.symm

/-- The def layers among some commits to a branch. -/
def defCommits (branch : BranchId) (commits : List (LayerId × Commit)) : List (LayerId × Commit) :=
  commits.filter fun landed => landed.2.branch = branch ∧ landed.2.kind = .defs

theorem defCommits_subset {landed : LayerId × Commit} (h : landed ∈ defCommits branch commits) :
    landed ∈ commits := List.mem_of_mem_filter h

def streamOf (commits : List (LayerId × Commit)) : List (LayerId × DefEvent) :=
  commits.flatMap fun landed => landed.2.defs.map fun event => (landed.1, event)

theorem Adds.defOn (h : Adds start commits log) {id : LayerId} :
    log.DefOn branch id ↔ start.DefOn branch id ∨ id ∈ (defCommits branch commits).map Prod.fst := by
  simp only [DefOn, h.commits_iff, List.mem_map, defCommits, List.mem_filter, decide_eq_true_eq]
  constructor
  · rintro ⟨commit, hc | hm, hb, hk⟩
    · exact Or.inl ⟨commit, hc, hb, hk⟩
    · exact Or.inr ⟨(id, commit), ⟨hm, hb, hk⟩, rfl⟩
  · rintro (⟨commit, hc, hb, hk⟩ | ⟨⟨id, commit⟩, ⟨hm, hb, hk⟩, rfl⟩)
    · exact ⟨commit, Or.inl hc, hb, hk⟩
    · exact ⟨commit, Or.inr hm, hb, hk⟩

theorem Adds.ownDefs (h : Adds start commits log) (hs : start.Sound) :
    log.ownDefs branch = start.ownDefs branch ++ (defCommits branch commits).map Prod.fst := by
  have hsub : ((defCommits branch commits).map Prod.fst).Sublist (commits.map Prod.fst) :=
    List.filter_sublist.map _
  refine sorted_ext h.sound.ownDefs_sorted ?_ fun id => ?_
  · refine List.pairwise_append.2 ⟨hs.ownDefs_sorted, h.sorted.sublist hsub, fun id hid id' hid' => ?_⟩
    obtain ⟨commit, hc, _⟩ := hs.mem_ownDefs.1 hid
    obtain ⟨landed, hm, rfl⟩ := List.mem_map.1 (hsub.subset hid')
    exact Nat.lt_of_lt_of_le (hs.commitAt_lt hc).2 (h.fresh landed hm)
  · rw [List.mem_append, h.sound.mem_ownDefs, hs.mem_ownDefs, h.defOn]

/-- A path bounded at a layer sees the same def layers for ever, when nothing lands below. -/
theorem Adds.defLayersAlong_some (h : Adds start commits log) (hs : start.Sound)
    (hb : (start.branches.lookup branch).isSome) {layer : LayerId} (hl : layer < start.nextLayer) :
    log.defLayersAlong (log.readPath branch (some layer)) =
      start.defLayersAlong (start.readPath branch (some layer)) := by
  have hpath := h.grows.readPath_some hs hb layer
  refine sorted_ext (h.sound.defLayersAlong_sorted h.sound.segmentsFrom_nodup)
    (hs.defLayersAlong_sorted hs.segmentsFrom_nodup) fun id => ?_
  rw [h.sound.mem_defLayersAlong, hs.mem_defLayersAlong, hpath]
  refine exists_congr fun segment => and_congr_right fun hseg => and_congr_left fun hle => ?_
  rw [h.defOn]
  refine or_iff_left fun hnew => ?_
  obtain ⟨landed, hm, rfl⟩ := List.mem_map.1 hnew
  have hfresh := h.fresh landed (defCommits_subset hm)
  have hbound : segment.2 ≤ layer := segmentsFrom_bound_le (Nat.le_refl _) hseg
  exact absurd (Nat.lt_of_le_of_lt (Nat.le_trans hle hbound) hl) (Nat.not_lt.2 hfresh)

theorem Sound.outward_lt_next (h : log.Sound) (ho : log.outward branch = some (parent, origin)) :
    origin < log.nextLayer := by
  obtain ⟨_, _, _, hp⟩ := outward_eq_some ho
  obtain ⟨layer, hl, _⟩ := Option.map_eq_some_iff.1 hp
  exact (h.layer_id hl).2.2

theorem Adds.inherited (h : Adds start commits log) (hs : start.Sound)
    (hb : (start.branches.lookup branch).isSome) : log.inherited branch = start.inherited branch := by
  unfold Log.inherited
  rw [h.grows.outward hb hs]
  cases ho : start.outward branch with
  | none => rfl
  | some next =>
    exact h.defLayersAlong_some hs (hs.outward_registered ho) (hs.outward_lt_next ho)

theorem Adds.eventsOf_old (h : Adds start commits log) {ids : List LayerId}
    (hids : ∀ id ∈ ids, ∃ branch, start.DefOn branch id) : log.eventsOf ids = start.eventsOf ids := by
  refine List.flatMap_congr fun id hid => ?_
  obtain ⟨branch, commit, hc, _⟩ := hids id hid
  rw [readDefLayer_eq hc, readDefLayer_eq (h.grows.commits hc)]

theorem Adds.eventsOf_new (h : Adds start commits log) {new : List (LayerId × Commit)}
    (hnew : ∀ landed ∈ new, landed ∈ commits) : log.eventsOf (new.map Prod.fst) = streamOf new := by
  rw [eventsOf, streamOf, List.flatMap_map]
  refine List.flatMap_congr fun landed hm => ?_
  rw [readDefLayer_eq (h.mem (hnew landed hm))]

/-- **Landing appends to the stream of a branch** the def events that landed there. -/
theorem Adds.eventsOf (h : Adds start commits log) (hs : start.Sound)
    (hb : (start.branches.lookup branch).isSome) :
    log.eventsOf (log.defLayersAlong (log.readPath branch none)) =
      start.eventsOf (start.defLayersAlong (start.readPath branch none)) ++
        streamOf (defCommits branch commits) := by
  have hold : ∀ id ∈ start.inherited branch ++ start.ownDefs branch,
      ∃ branch, start.DefOn branch id := by
    intro id hid
    rw [← hs.defLayersAlong_none] at hid
    obtain ⟨segment, _, hd, _⟩ := hs.mem_defLayersAlong.1 hid
    exact ⟨segment.1, hd⟩
  rw [h.sound.defLayersAlong_none, hs.defLayersAlong_none, h.ownDefs hs, h.inherited hs hb,
    ← List.append_assoc, ← h.eventsOf_old hold, ← h.eventsOf_new fun _ => defCommits_subset]
  simp only [Log.eventsOf, List.flatMap_append]

end Log

end BorgCore
