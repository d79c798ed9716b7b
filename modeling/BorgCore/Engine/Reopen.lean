import BorgCore.Engine.Projections
import BorgCore.Engine.Rounds
import BorgCore.Lib.Peaks

/-!
# Reopening a store

Everything the log holds in memory is rebuilt from the store: every layer with metadata is restored,
and the projections are brought to head from nothing.  A live log folds in the order layers commit and
a rebuild in the order of their ids, so the two do not hold the same lists; they give the same answers,
because each answer is a fact about the timeline.
-/

namespace BorgCore

namespace Log

/-- Reinstate a layer read back from storage.  One that is not committed has no owner any more, and
is aborted. -/
def restore (log : Log) (layer : Layer) : Log :=
  let layer :=
    if layer.state = .committed ∨ layer.state = .aborted then layer
    else { layer with state := .aborted }
  { log with
    heads :=
      if layer.state = .committed then
        log.heads.insert layer.branch (max layer.id ((log.head layer.branch).getD layer.id))
      else log.heads
    defLayers :=
      if layer.state = .committed ∧ layer.kind = .defs then
        log.defLayers.insert layer.branch (log.defLayers.getD layer.branch [] ++ [layer.id])
      else log.defLayers
    layers := log.layers.insert layer.id layer }

def highestBranch (known : List Layer) : BranchId := ((known.map Layer.branch).max?).getD 0

/-- Open a store: its layers and its branches, in whatever order the rows come, and the projections
brought to head from nothing. -/
def reopen (storage : MemoryStorage) (known : List Layer) (branches : List Branch) :
    Except BorgError Log := do
  let highest := ((known.map Layer.id).max?).getD 0
  let registered := branches.foldl (fun found branch => found.insert branch.id branch) ∅
  let next := (branches.map fun branch => branch.id + 1).foldl max (highestBranch known + 1)
  let log : Log :=
    { storage, nextLayer := highest + 1, nextBranch := next, layers := ∅, heads := ∅,
      branches := registered, defLayers := ∅, touches := .new, frontier := .new }
  let restored := known.foldl restore log
  let (projections, _) ← Projections.new.bringToHead storage known
  return { restored with touches := projections.touches, frontier := projections.frontier }

variable {log log' : Log}

/-- What a commit does to the log is what the live fold does to its projections. -/
theorem project_eq_committed (layer : Layer) (index : DependencyIndex)
    (position : Projection → LayerId) :
    project layer log =
      match Projections.committed ⟨log.touches, index, log.frontier, position⟩ log.storage layer with
      | .ok projections => .ok () { log with
          touches := projections.touches, frontier := projections.frontier }
      | .error err => .error err log := by
  obtain ⟨id, branch, kind, author, state, parent, guards⟩ := layer
  cases author with
  | source =>
    have hwants : Projections.members.any (fun member => Projections.wants member
        ⟨id, branch, kind, .source, state, parent, guards⟩) = true := rfl
    simp only [project, Projections.committed, hwants, LayerAuthor.isSource, Bool.and_self, if_true]
    cases log.storage.readLayer id <;> rfl
  | derived producer reflects => rfl

/-! ### The same timeline gives the same answers -/

section Answers

variable (h : log.Projected) (h' : log'.Projected) (hc : ∀ id, log'.commitAt id = log.commitAt id)

include h h' hc

theorem Projected.head_eq (branch : BranchId) : log'.head branch = log.head branch := by
  refine Option.ext fun top => ?_
  unfold head
  rw [h.heads_iff, h'.heads_iff]
  simp only [IsTop, CommittedOn, hc]

theorem Projected.defLayersOf_eq (branch : BranchId) (bound : LayerId) :
    log'.defLayersOf branch bound = log.defLayersOf branch bound := by
  have hperm : (log'.defLayers.getD branch []).Perm (log.defLayers.getD branch []) := by
    refine (List.perm_ext_iff_of_nodup (h'.defs_nodup branch) (h.defs_nodup branch)).2 fun id => ?_
    rw [h.defs_iff, h'.defs_iff]
    simp only [DefOn, hc]
  unfold defLayersOf
  refine List.Perm.eq_of_pairwise (fun id other _ _ => Nat.le_antisymm)
    (List.pairwise_insertionSort _ _) (List.pairwise_insertionSort _ _) ?_
  exact (List.perm_insertionSort _ _).trans ((hperm.filter _).trans (List.perm_insertionSort _ _).symm)

theorem Projected.movedSince_eq (path : ReadPath) (since : LayerId) :
    log'.touches.movedSince path since = log.touches.movedSince path since := by
  have hhighest : ∀ branch, log'.touches.highest.lookup branch = log.touches.highest.lookup branch := by
    intro branch
    refine Option.ext fun top => ?_
    rw [h.highest_iff, h'.highest_iff]
    simp only [IsTop, SourceOn, hc]
  unfold CellTouchIndex.movedSince
  simp only [hhighest]

theorem Projected.firstTouchedSince_eq (path : ReadPath) (cells : List CellRef) (since : LayerId) :
    log'.touches.firstTouchedSince path cells since = log.touches.firstTouchedSince path cells since := by
  have hlookup : ∀ cell, log'.touches.lookup path cell since = log.touches.lookup path cell since := by
    intro cell
    unfold CellTouchIndex.lookup
    refine Option.ext fun earliest => ?_
    rw [List.min?_eq_some_iff, List.min?_eq_some_iff]
    simp only [List.mem_flatMap, List.mem_filter, h.touched_iff, h'.touched_iff, TouchedOn, hc]
  unfold CellTouchIndex.firstTouchedSince
  simp only [hlookup]

end Answers

/-! ### What is restored -/

theorem restore_committed {layer : Layer} (hs : layer.state = .committed) :
    log.restore layer = { log with
      heads := Peaks.raise log.heads layer.branch layer.id
      defLayers :=
        if layer.kind = .defs then
          log.defLayers.insert layer.branch (log.defLayers.getD layer.branch [] ++ [layer.id])
        else log.defLayers
      layers := log.layers.insert layer.id layer } := by
  simp [restore, hs]
  rfl

section Restored

variable {known : List Layer} (hall : ∀ layer ∈ known, layer.state = .committed)

include hall

theorem restored_storage : (known.foldl restore log).storage = log.storage := by
  induction known generalizing log with
  | nil => rfl
  | cons layer rest ih =>
    rw [List.foldl_cons, ih fun l hl => hall l (List.mem_cons_of_mem _ hl),
      restore_committed (hall layer List.mem_cons_self)]

/-- What is restored is layers, and what follows from them. -/
theorem restored_kept :
    (known.foldl restore log).branches = log.branches ∧
      (known.foldl restore log).nextLayer = log.nextLayer ∧
      (known.foldl restore log).nextBranch = log.nextBranch := by
  induction known generalizing log with
  | nil => exact ⟨rfl, rfl, rfl⟩
  | cons layer rest ih =>
    rw [List.foldl_cons]
    obtain ⟨hb, hl, hn⟩ := @ih (log.restore layer) fun l hl => hall l (List.mem_cons_of_mem _ hl)
    rw [hb, hl, hn, restore_committed (hall layer List.mem_cons_self)]
    exact ⟨rfl, rfl, rfl⟩

theorem restored_heads :
    (known.foldl restore log).heads =
      (known.map fun layer => (layer.branch, layer.id)).foldl
        (fun heads entry => Peaks.raise heads entry.1 entry.2) log.heads := by
  induction known generalizing log with
  | nil => rfl
  | cons layer rest ih =>
    rw [List.foldl_cons, ih fun l hl => hall l (List.mem_cons_of_mem _ hl),
      restore_committed (hall layer List.mem_cons_self)]
    rfl

theorem restored_defLayers (branch : BranchId) :
    (known.foldl restore log).defLayers.getD branch [] =
      log.defLayers.getD branch [] ++
        (known.filter fun layer => layer.kind = .defs ∧ layer.branch = branch).map Layer.id := by
  induction known generalizing log with
  | nil => simp
  | cons layer rest ih =>
    rw [List.foldl_cons, ih fun l hl => hall l (List.mem_cons_of_mem _ hl),
      restore_committed (hall layer List.mem_cons_self)]
    by_cases hk : layer.kind = .defs
    · by_cases hb : layer.branch = branch
      · subst hb
        simp [hk, AssocMap.getD_insert]
      · simp [hk, AssocMap.getD_insert, hb, Ne.symm hb]
    · simp [hk]

theorem restored_layers (hn : (known.map Layer.id).Nodup) {id : LayerId} {layer : Layer} :
    (known.foldl restore log).layers.lookup id = some layer ↔
      layer ∈ known ∧ layer.id = id ∨
        id ∉ known.map Layer.id ∧ log.layers.lookup id = some layer := by
  have hfold : (known.foldl restore log).layers =
      known.foldl (fun layers layer => layers.insert layer.id layer) log.layers := by
    clear hn
    induction known generalizing log with
    | nil => rfl
    | cons head rest ih =>
      rw [List.foldl_cons, ih fun l hl => hall l (List.mem_cons_of_mem _ hl),
        restore_committed (hall head List.mem_cons_self)]
      rfl
  rw [hfold, AssocMap.lookup_foldl_insert hn]

end Restored

end Log

/-! ### What is folded -/

namespace CellTouchIndex

variable {touches : CellTouchIndex} {contents : LayerId → List Event}

theorem mem_foldl_apply {layers : List Layer} {branch : BranchId} {cell : CellRef} {id : LayerId} :
    id ∈ (layers.foldl (fun touches layer => touches.apply layer (contents layer.id))
        touches).cells.getD (branch, cell) [] ↔
      id ∈ touches.cells.getD (branch, cell) [] ∨
        ∃ layer ∈ layers, layer.author.isSource ∧ layer.branch = branch ∧ layer.id = id ∧
          ∃ event ∈ contents id, event.cell = cell := by
  induction layers generalizing touches with
  | nil => simp
  | cons layer rest ih =>
    rw [List.foldl_cons, ih]
    have hstep : id ∈ (touches.apply layer (contents layer.id)).cells.getD (branch, cell) [] ↔
        id ∈ touches.cells.getD (branch, cell) [] ∨ layer.author.isSource ∧ layer.branch = branch ∧
          layer.id = id ∧ ∃ event ∈ contents id, event.cell = cell := by
      unfold apply
      split
      · rename_i hs
        rw [mem_record]
        simp only [hs, List.mem_map]
        constructor
        · rintro (hm | ⟨rfl, rfl, he⟩)
          · exact Or.inl hm
          · exact Or.inr ⟨trivial, rfl, rfl, he⟩
        · rintro (hm | ⟨_, rfl, rfl, he⟩)
          · exact Or.inl hm
          · exact Or.inr ⟨rfl, rfl, he⟩
      · rename_i hs
        simp [hs]
    rw [hstep, or_assoc, List.exists_mem_cons_iff]

theorem highest_foldl_apply (layers : List Layer) :
    (layers.foldl (fun touches layer => touches.apply layer (contents layer.id)) touches).highest =
      ((layers.filter fun layer => layer.author.isSource).map fun layer => (layer.branch, layer.id)).foldl
        (fun highest entry => Peaks.raise highest entry.1 entry.2) touches.highest := by
  induction layers generalizing touches with
  | nil => rfl
  | cons layer rest ih =>
    rw [List.foldl_cons, ih]
    by_cases hs : layer.author.isSource = true
    · simp [apply, hs]
      rfl
    · simp [apply, hs]

end CellTouchIndex

namespace Projections

variable {storage : MemoryStorage}

theorem foldLayer_run (hs : storage.Sound) {projections : Projections} {layer : Layer}
    (hb : ∀ member, projections.position member < layer.id) (folded : Nat) :
    ∃ next, foldLayer storage (projections, folded) layer = .ok (next, folded + 1) ∧
      next.touches = projections.touches.apply layer (storage.contents layer.id) ∧
      ∀ member, next.position member = layer.id := by
  have hbehind : members.filter (fun member => projections.position member < layer.id) = members := by
    refine List.filter_eq_self.2 fun member _ => ?_
    simpa using hb member
  have hwants : members.any (fun member => wants member layer) = true := by
    simp [members, wants]
  refine ⟨members.foldl (fun projections member =>
    projections.apply member layer (storage.contents layer.id)) projections, ?_, ?_, fun member => ?_⟩
  · simp only [foldLayer, hbehind, hwants, hs.readLayer]
    rfl
  · obtain ⟨id, branch, kind, author, state, parent, guards⟩ := layer
    cases author <;> rfl
  · have hlt := Nat.le_of_lt (hb member)
    cases member <;> simp [members, hlt]

theorem foldLayers_run (hs : storage.Sound) {layers : List Layer} {projections : Projections}
    (hsorted : layers.Pairwise fun layer other => layer.id < other.id)
    (hb : ∀ layer ∈ layers, ∀ member, projections.position member < layer.id) (folded : Nat) :
    ∃ next count, layers.foldlM (foldLayer storage) (projections, folded) = .ok (next, count) ∧
      next.touches = layers.foldl (fun touches layer => touches.apply layer (storage.contents layer.id))
        projections.touches := by
  induction layers generalizing projections folded with
  | nil => exact ⟨projections, folded, rfl, rfl⟩
  | cons layer rest ih =>
    obtain ⟨hlt, hsorted⟩ := List.pairwise_cons.1 hsorted
    obtain ⟨middle, hrun, htouches, hposition⟩ := foldLayer_run hs (hb layer List.mem_cons_self) folded
    obtain ⟨next, count, hrest, hfold⟩ := ih hsorted
      (fun other hm member => by rw [hposition]; exact hlt other hm) (folded + 1)
    refine ⟨next, count, ?_, by rw [hfold, htouches, List.foldl_cons]⟩
    rw [List.foldlM_cons, hrun]
    exact hrest

end Projections

namespace Log

variable {log : Log} {known : List Layer}

/-! ### The rebuild -/

/-- What a log opened from the store of another one has of it. -/
structure Reopened (log : Log) (known : List Layer) (branches : List Branch) (reopened : Log) :
    Prop where
  projected : reopened.Projected
  commits : ∀ id, reopened.commitAt id = log.commitAt id
  storage : reopened.storage = log.storage
  layers_iff : ∀ {id layer}, reopened.layers.lookup id = some layer ↔
    log.layers.lookup id = some layer ∧ layer.state = .committed
  branches_eq : reopened.branches = branches.foldl (fun found branch => found.insert branch.id branch) ∅
  nextLayer_eq : reopened.nextLayer = ((known.map Layer.id).max?).getD 0 + 1
  nextBranch_eq : reopened.nextBranch =
    (branches.map fun branch => branch.id + 1).foldl max (highestBranch known + 1)

/-- The log a store opens to before any layer is restored. -/
def blank (storage : MemoryStorage) (known : List Layer) (branches : List Branch) : Log where
  storage := storage
  nextLayer := ((known.map Layer.id).max?).getD 0 + 1
  nextBranch := (branches.map fun branch => branch.id + 1).foldl max (highestBranch known + 1)
  layers := ∅
  heads := ∅
  branches := branches.foldl (fun found branch => found.insert branch.id branch) ∅
  defLayers := ∅
  touches := .new
  frontier := .new

/-- The layers in the order a rebuild folds them. -/
def replayOrder (known : List Layer) : List Layer :=
  (known.filter fun layer => layer.state = .committed).insertionSort fun layer other => layer.id ≤ other.id

theorem replayOrder_perm (hall : ∀ layer ∈ known, layer.state = .committed) :
    (replayOrder known).Perm known := by
  refine (List.perm_insertionSort _ _).trans (List.Perm.of_eq (List.filter_eq_self.2 ?_))
  simpa using hall

theorem replayOrder_sorted (hall : ∀ layer ∈ known, layer.state = .committed)
    (hn : (known.map Layer.id).Nodup) :
    (replayOrder known).Pairwise fun layer other => layer.id < other.id := by
  have hnodup : ((replayOrder known).map Layer.id).Nodup :=
    (((replayOrder_perm hall).map Layer.id).nodup_iff).2 hn
  have : Std.Total fun layer other : Layer => layer.id ≤ other.id := ⟨fun a b => le_total a.id b.id⟩
  have : IsTrans Layer fun layer other => layer.id ≤ other.id := ⟨fun _ _ _ => le_trans⟩
  exact (List.pairwise_insertionSort (fun layer other : Layer => layer.id ≤ other.id) _).imp₂
    (fun _ _ hle hne => Nat.lt_of_le_of_ne hle hne) (List.pairwise_map.1 hnodup)

/-- A log with the store of another one and its committed layers has its timeline. -/
theorem commitAt_of_layers {reopened : Log} (hstorage : reopened.storage = log.storage)
    (hlayers : ∀ {id layer}, reopened.layers.lookup id = some layer ↔
      log.layers.lookup id = some layer ∧ layer.state = .committed) (id : LayerId) :
    reopened.commitAt id = log.commitAt id := by
  cases hl : log.layers.lookup id with
  | none =>
    have hnone : reopened.layers.lookup id = none := by
      refine Option.eq_none_iff_forall_ne_some.2 fun layer hr => ?_
      rw [(hlayers.1 hr).1] at hl
      cases hl
    simp only [commitAt, hl, hnone]
  | some layer =>
    by_cases hs : layer.state = .committed
    · simp only [commitAt, hlayers.2 ⟨hl, hs⟩, hl, hstorage]
    · have hnone : reopened.layers.lookup id = none := by
        refine Option.eq_none_iff_forall_ne_some.2 fun other hr => ?_
        obtain ⟨hr, hstate⟩ := hlayers.1 hr
        rw [hl] at hr
        cases hr
        exact hs hstate
      simp only [commitAt, hl, hnone, hs, if_false]

section Rebuild

variable (h : log.Sound) (hk : known.Perm log.storage.layerMeta.values)

include h hk

theorem Sound.mem_known {layer : Layer} :
    layer ∈ known ↔ log.layers.lookup layer.id = some layer ∧ layer.state = .committed := by
  rw [hk.mem_iff, AssocMap.mem_values]
  constructor
  · rintro ⟨id, hl⟩
    obtain ⟨hl, hs⟩ := h.meta_iff.1 hl
    obtain ⟨rfl, _⟩ := h.layer_id hl
    exact ⟨hl, hs⟩
  · rintro ⟨hl, hs⟩
    exact ⟨layer.id, h.meta_iff.2 ⟨hl, hs⟩⟩

theorem Sound.known_nodup : (known.map Layer.id).Nodup := by
  refine ((hk.map Layer.id).nodup_iff).2 ?_
  rw [AssocMap.map_values fun hl => (h.layer_id (h.meta_iff.1 hl).1).1]
  exact AList.keys_nodup _

/-- A committed layer that is picked by what it is, said of the layers with metadata. -/
theorem Sound.exists_known {p : Layer → Prop} {q : Commit → Prop} {id : LayerId}
    (hpq : ∀ layer, log.layers.lookup id = some layer → (p layer ↔ q ⟨layer.branch, layer.kind,
      layer.author, layer.guards, log.storage.contents id, log.storage.readDefLayer id⟩)) :
    (∃ layer ∈ known, layer.id = id ∧ p layer) ↔ ∃ commit, log.commitAt id = some commit ∧ q commit := by
  constructor
  · rintro ⟨layer, hm, rfl, hp⟩
    obtain ⟨hl, hs⟩ := (h.mem_known hk).1 hm
    exact ⟨_, commitAt_of_committed hl hs, (hpq layer hl).1 hp⟩
  · rintro ⟨commit, hc, hq⟩
    obtain ⟨layer, hl, hs, _⟩ := commitAt_eq_some hc
    rw [commitAt_of_committed hl hs, Option.some.injEq] at hc
    obtain ⟨rfl, _⟩ := h.layer_id hl
    exact ⟨layer, (h.mem_known hk).2 ⟨hl, hs⟩, rfl, (hpq layer hl).2 (hc ▸ hq)⟩

theorem Sound.known_committed : ∀ layer ∈ known, layer.state = .committed :=
  fun _ hm => ((h.mem_known hk).1 hm).2

theorem Sound.restored_layers_iff (branches : List Branch) {id : LayerId} {layer : Layer} :
    (known.foldl restore (blank log.storage known branches)).layers.lookup id = some layer ↔
      log.layers.lookup id = some layer ∧ layer.state = .committed := by
  refine (restored_layers (h.known_committed hk) (h.known_nodup hk)).trans ?_
  rw [h.mem_known hk]
  constructor
  · rintro (⟨hl, rfl⟩ | ⟨_, hl⟩)
    · exact hl
    · cases hl
  · rintro ⟨hl, hs⟩
    obtain ⟨rfl, _⟩ := h.layer_id hl
    exact Or.inl ⟨⟨hl, hs⟩, rfl⟩

/-- A log with the timeline of a live one, restored from its layers, is a projection of it. -/
theorem Sound.restored_projected {reopened : Log} (hstorage : reopened.storage = log.storage)
    (hc : ∀ id, reopened.commitAt id = log.commitAt id) (branches : List Branch)
    (hheads : reopened.heads = (known.foldl restore (blank log.storage known branches)).heads)
    (hdefs : reopened.defLayers = (known.foldl restore (blank log.storage known branches)).defLayers)
    (htouches : reopened.touches = (replayOrder known).foldl
      (fun touches layer => touches.apply layer (log.storage.contents layer.id)) .new) :
    reopened.Projected := by
  have hcommitted := h.known_committed hk
  have hordered := replayOrder_perm hcommitted
  have hwhere (q : Commit → Prop) (p : Layer → Prop) (id : LayerId)
      (hpq : ∀ layer, log.layers.lookup id = some layer → (p layer ↔ q ⟨layer.branch, layer.kind,
        layer.author, layer.guards, log.storage.contents id, log.storage.readDefLayer id⟩)) :
      (∃ commit, reopened.commitAt id = some commit ∧ q commit) ↔
        ∃ layer ∈ known, layer.id = id ∧ p layer := by
    simp only [hc]
    exact (h.exists_known hk hpq).symm
  have hdefs (branch : BranchId) : reopened.defLayers.getD branch [] =
      (known.filter fun layer => layer.kind = .defs ∧ layer.branch = branch).map Layer.id := by
    rw [hdefs, restored_defLayers hcommitted]
    simp only [blank, AssocMap.getD_empty, List.nil_append]
  exact {
    members_iff := fun id branch => by
      rw [hstorage, h.projected.members_iff]
      simp only [CommittedOn, hc]
    heads_iff := fun branch top => by
      have hmem (id : LayerId) : (branch, id) ∈ known.map (fun layer => (layer.branch, layer.id)) ↔
          reopened.CommittedOn branch id := by
        rw [CommittedOn, hwhere _ (·.branch = branch) id fun _ _ => Iff.rfl]
        simp only [List.mem_map, Prod.mk.injEq, and_comm]
      rw [hheads, restored_heads hcommitted]
      refine Peaks.lookup_raised_iff.trans ?_
      simp only [hmem, IsTop]
    defs_iff := fun branch id => by
      rw [hdefs, DefOn, hwhere _ (fun layer => layer.kind = .defs ∧ layer.branch = branch) id
        fun _ _ => and_comm]
      simp only [List.mem_map, List.mem_filter, decide_eq_true_eq, and_assoc, and_comm]
    defs_nodup := fun branch => by
      rw [hdefs]
      exact (h.known_nodup hk).sublist (List.filter_sublist.map _)
    touched_iff := fun branch cell id => by
      rw [htouches, CellTouchIndex.mem_foldl_apply, TouchedOn,
        hwhere _ (fun layer => layer.branch = branch ∧ layer.author.isSource ∧
          ∃ event ∈ log.storage.contents id, event.cell = cell) id fun _ _ => Iff.rfl]
      simp only [CellTouchIndex.new, AssocMap.getD_empty, List.not_mem_nil, false_or, hordered.mem_iff]
      refine exists_congr fun layer => and_congr_right fun _ => ?_
      tauto
    highest_iff := fun branch top => by
      have hmem (id : LayerId) : (branch, id) ∈
          ((replayOrder known).filter fun layer => layer.author.isSource).map
            (fun layer => (layer.branch, layer.id)) ↔ reopened.SourceOn branch id := by
        rw [SourceOn, hwhere _ (fun layer => layer.branch = branch ∧ layer.author.isSource) id
          fun _ _ => Iff.rfl]
        simp only [List.mem_map, List.mem_filter, Prod.mk.injEq, hordered.mem_iff]
        refine exists_congr fun layer => ?_
        tauto
      rw [htouches, CellTouchIndex.highest_foldl_apply]
      refine Peaks.lookup_raised_iff.trans ?_
      simp only [hmem, IsTop] }

/-- **A store opens**, and the log it opens to has the timeline of the live one and is a projection
of it. -/
theorem Sound.reopen_run (branches : List Branch) :
    ∃ reopened, reopen log.storage known branches = .ok reopened ∧
      log.Reopened known branches reopened := by
  have hcommitted := h.known_committed hk
  have hpos : ∀ layer ∈ replayOrder known, ∀ member, Projections.new.position member < layer.id :=
    fun layer hm _ => (h.layer_id ((h.mem_known hk).1 ((replayOrder_perm hcommitted).mem_iff.1 hm)).1).2.1
  obtain ⟨projections, count, hrun, htouches⟩ := Projections.foldLayers_run h.storage
    (replayOrder_sorted hcommitted (h.known_nodup hk)) hpos 0
  have hbring : Projections.new.bringToHead log.storage known = .ok (projections, count) := hrun
  let reopened : Log := { known.foldl restore (blank log.storage known branches) with
    touches := projections.touches, frontier := projections.frontier }
  have hstorage : reopened.storage = log.storage := restored_storage hcommitted
  have hlayers {id : LayerId} {layer : Layer} : reopened.layers.lookup id = some layer ↔
      log.layers.lookup id = some layer ∧ layer.state = .committed := h.restored_layers_iff hk branches
  have hc := commitAt_of_layers hstorage hlayers
  obtain ⟨hbranches, hnext, hnextBranch⟩ := @restored_kept (blank log.storage known branches) _ hcommitted
  refine ⟨reopened, ?_, h.restored_projected hk hstorage hc branches rfl rfl htouches, hc, hstorage, hlayers,
    hbranches, hnext, hnextBranch⟩
  simp only [reopen, hbring]
  rfl

end Rebuild

/-- **The live projections equal their rebuild.**  Whatever order layers committed in, the log a
reopened store gives answers as the live one does: the head of every branch, the def layers of a branch
under a bound, whether a path has moved since a layer, and the first of some cells to be touched since
one. -/
theorem reopen_answers (h : log.Reachable) (hk : known.Perm log.storage.layerMeta.values)
    (branches : List Branch) :
    ∃ reopened, reopen log.storage known branches = .ok reopened ∧
      (∀ branch, reopened.head branch = log.head branch) ∧
      (∀ branch bound, reopened.defLayersOf branch bound = log.defLayersOf branch bound) ∧
      (∀ path since, reopened.touches.movedSince path since = log.touches.movedSince path since) ∧
      ∀ path cells since, reopened.touches.firstTouchedSince path cells since =
        log.touches.firstTouchedSince path cells since := by
  obtain ⟨reopened, hrun, hr⟩ := h.sound.reopen_run hk branches
  have hlive := h.sound.projected
  exact ⟨reopened, hrun, hlive.head_eq hr.projected hr.commits,
    hlive.defLayersOf_eq hr.projected hr.commits, hlive.movedSince_eq hr.projected hr.commits,
    hlive.firstTouchedSince_eq hr.projected hr.commits⟩

theorem reopen_answers_overtaken :
    ∃ reopened, reopen overtaken.storage overtaken.storage.layerMeta.values.reverse [] = .ok reopened ∧
      (∀ branch, reopened.head branch = overtaken.head branch) ∧
      (∀ branch bound, reopened.defLayersOf branch bound = overtaken.defLayersOf branch bound) ∧
      (∀ path since, reopened.touches.movedSince path since = overtaken.touches.movedSince path since) ∧
      ∀ path cells since, reopened.touches.firstTouchedSince path cells since =
        overtaken.touches.firstTouchedSince path cells since :=
  reopen_answers overtaken_reachable (List.reverse_perm _) []

end Log

end BorgCore
