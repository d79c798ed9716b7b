import BorgCore.Engine.Paths

/-!
# Forks as snapshots

A fork bounds its ancestors at fixed ids, but a layer gets its id when it is opened and becomes
visible when it commits.  A layer under the bound that was still open at the fork can commit
afterwards, and the fork then sees it.  What a fork reads stays the same exactly when no such layer
comes in front of everything the fork saw of that record when it was made.
-/

namespace BorgCore

namespace Log

variable {log log' forked later : Log} {branch parent : BranchId} {origin : LayerId}
  {cell : CellRef} {version : DefVersion}

/-- A place along a branch's read path with a record of a cell at a version: how far out, and which
layer. -/
def Shows (log : Log) (branch : BranchId) (cell : CellRef) (version : DefVersion)
    (place : Nat × LayerId) : Prop :=
  Timeline.HoldsAt (log.recordAt cell version) (log.readPath branch none).segments place

/-- A place within the bounds a fork reads by as it was made, whose layer has committed since with a record of a cell
at a version. -/
def ShowsSince (forked later : Log) (branch : BranchId) (cell : CellRef) (version : DefVersion)
    (place : Nat × LayerId) : Prop :=
  forked.commitAt place.2 = none ∧
    Timeline.HoldsAt (later.recordAt cell version) (forked.readPath branch none).segments place

/-- A branch has no record of a cell at a version in a layer of its own. -/
def Unwritten (log : Log) (branch : BranchId) (cell : CellRef) (version : DefVersion) : Prop :=
  ∀ id, log.recordAt cell version branch id = none

theorem Grows.recordAt (hg : Grows log log') {id : LayerId} {event : Event}
    (h : log.recordAt cell version branch id = some event) :
    log'.recordAt cell version branch id = some event := by
  obtain ⟨commit, hc, he⟩ := Option.bind_eq_some_iff.1 h
  simp only [Log.recordAt, hg.commits hc, Option.bind_some, he]

/-- Only a layer that has been opened has a record. -/
theorem Sound.unwritten_of_lt (h : log.Sound)
    (hall : ∀ id < log.nextLayer, log.recordAt cell version branch id = none) :
    log.Unwritten branch cell version := by
  intro id
  cases hr : log.recordAt cell version branch id with
  | none => rfl
  | some event =>
    obtain ⟨commit, hc, -⟩ := recordAt_isSome_iff.1 (by rw [hr]; rfl)
    rw [← hr]
    exact hall id (h.commitAt_lt hc).2

theorem recordAt_branch {branch' : BranchId} {id : LayerId}
    (h : (log.recordAt cell version branch id).isSome)
    (h' : (log.recordAt cell version branch' id).isSome) : branch = branch' := by
  obtain ⟨commit, hc, hb, _⟩ := recordAt_isSome_iff.1 h
  obtain ⟨commit', hc', hb', _⟩ := recordAt_isSome_iff.1 h'
  rw [hc] at hc'
  cases hc'
  rw [← hb, hb']

/-- A run leaves a branch's path alone behind its first segment. -/
theorem Grows.readPath_none (hg : Grows log log') (h : log.Sound) (h' : log'.Sound)
    (hb : (log.branches.lookup branch).isSome) :
    ∃ outer, (log.readPath branch none).segments = (branch, (log.head branch).getD 0) :: outer ∧
      (log'.readPath branch none).segments = (branch, (log'.head branch).getD 0) :: outer := by
  rw [h.readPath_none, h'.readPath_none, hg.outward hb h]
  cases ho : log.outward branch with
  | none => exact ⟨[], rfl, rfl⟩
  | some next =>
    refine ⟨_, rfl, ?_⟩
    simp only
    rw [hg.readPath_some h (h.outward_registered ho)]

/-- An empty first timeline is as good at one bound as at another. -/
theorem nearest_rebound {read : BranchId → LayerId → Option Event}
    {outer : List (BranchId × LayerId)} (hnone : ∀ id, read branch id = none)
    (bound bound' : LayerId) :
    Timeline.nearest read ((branch, bound) :: outer) =
      Timeline.nearest read ((branch, bound') :: outer) := by
  have hempty (n : LayerId) : Timeline.latest (read branch) n = none :=
    Timeline.latest_eq_none_iff.2 fun id _ => hnone id
  simp only [Timeline.nearest, Timeline.firstOf, hempty]

/-- A place with a record now had it before, or its layer has committed since. -/
theorem Grows.holdsAt (hg : Grows log log') {path : List (BranchId × LayerId)} {place : Nat × LayerId}
    (h : Timeline.HoldsAt (log'.recordAt cell version) path place) :
    Timeline.HoldsAt (log.recordAt cell version) path place ∨ log.commitAt place.2 = none := by
  obtain ⟨segment, hs, hle, hr⟩ := h
  cases hc : log.commitAt place.2 with
  | none => exact Or.inr rfl
  | some commit =>
    refine Or.inl ⟨segment, hs, hle, ?_⟩
    obtain ⟨commit', hc', hrest⟩ := recordAt_isSome_iff.1 hr
    obtain rfl : commit = commit' := Option.some.inj ((hg.commits hc).symm.trans hc')
    exact recordAt_isSome_iff.2 ⟨commit, hc, hrest⟩

/-- What a branch resolves of a record it has not written moves exactly when a layer that has committed since comes in
front of all those that showed the record before. -/
theorem Grows.getCell_eq_iff (hg : Grows log log') (h : log.Sound) (h' : log'.Sound)
    (hb : (log.branches.lookup branch).isSome) (hown : log'.Unwritten branch cell version) :
    log'.storage.getCell (log'.readPath branch none) cell version =
        log.storage.getCell (log.readPath branch none) cell version ↔
      ∀ place, log.ShowsSince log' branch cell version place →
        ∃ old, log.Shows branch cell version old ∧ Timeline.AtOrBefore old place := by
  obtain ⟨outer, hp, hp'⟩ := hg.readPath_none h h' hb
  have hnodup : (((branch, (log.head branch).getD 0) :: outer).map Prod.fst).Nodup := by
    rw [← hp]
    exact h.segmentsFrom_nodup
  have hiff := Timeline.nearest_eq_iff hnodup
    (fun b i a (hr : log.recordAt cell version b i = some a) => hg.recordAt hr)
    (fun _ _ _ => recordAt_branch)
  have hinj : Function.Injective fun entry : LayerId × Event => (⟨entry.2, entry.1⟩ : Landed) :=
    fun entry entry' he => by cases entry; cases entry'; cases he; rfl
  rw [h.getCell, h'.getCell, Except.ok.injEq, (Option.map_injective hinj).eq_iff]
  unfold Shows ShowsSince
  rw [hp, hp', nearest_rebound hown _ ((log.head branch).getD 0), hiff]
  constructor
  · exact fun hall place hsince => hall place hsince.2
  · intro hall place hnow
    rcases hg.holdsAt hnow with hbefore | hsince
    · exact ⟨place, hbefore, Or.inr ⟨rfl, le_refl _⟩⟩
    · exact hall place ⟨hsince, hnow⟩

/-- **A fork as a snapshot.**  In every run after a fork, what the fork resolves of a record it has not written is
what it resolved when it was made, exactly when each layer that was uncommitted then, is within the bounds it read by
then and has committed since with the record is behind one that showed it the record then. -/
theorem fork_stable_iff {name : Option String} (hlog : log.Reachable)
    (hfork : fork parent origin name log = .ok branch forked) (hrun : Steps forked later)
    (hown : later.Unwritten branch cell version) :
    later.storage.getCell (later.readPath branch none) cell version =
        forked.storage.getCell (forked.readPath branch none) cell version ↔
      ∀ place, forked.ShowsSince later branch cell version place →
        ∃ old, forked.Shows branch cell version old ∧ Timeline.AtOrBefore old place := by
  have hforked : forked.Sound ∧ (forked.branches.lookup branch).isSome := by
    by_cases hp : log.branchOf origin = some parent
    · rw [fork_run hlog.sound hp] at hfork
      cases hfork
      refine ⟨hlog.sound.branched name (some origin) fun id hid => ⟨parent, by cases hid; exact hp⟩, ?_⟩
      simp [branched]
    · obtain ⟨err, he⟩ := fork_error hp name
      rw [hfork] at he
      cases he
  exact (Steps.grows hforked.1 hrun).getCell_eq_iff hforked.1 (Steps.sound hforked.1 hrun) hforked.2
    hown

/-! ### A layer that was open when the fork was made -/

def lateCell : CellRef := .existence "Doc" (.allocated .object 1 0 0)

/-- Two clients each open a layer on one branch. -/
def lateOpened : Log :=
  after (openLayer 1 .value .source (after (openLayer 1 .value .source (after (createRoot none new)))))

def lateHandle (id : LayerId) : LayerHandle := ⟨⟨id, 1, .value, .source, .open, none, []⟩⟩

/-- The second layer commits, and the branch is forked at it. -/
def lateCommitted : Log := after (commit (lateHandle 2) lateOpened)

def lateForked : Log := after (fork 1 2 none lateCommitted)

/-- The first layer commits after the fork. -/
def lateLanded : Log :=
  after (commit (lateHandle 1)
    (after (put (lateHandle 1) lateCell ⟨.bool true, 0, .source, none⟩ lateForked)))

theorem lateCommitted_reachable : lateCommitted.Reachable :=
  .tail (.tail (.tail (.tail .refl (.createRoot none)) (.openLayer 1 .value .source rfl))
    (.openLayer 1 .value .source rfl)) (.commit (lateHandle 2) ⟨_, rfl, rfl, rfl⟩)

theorem lateForked_eq : fork 1 2 none lateCommitted = .ok 2 lateForked := rfl

theorem lateLanded_steps : Steps lateForked lateLanded :=
  .tail (.tail .refl (.put (lateHandle 1) lateCell _ ⟨_, rfl, rfl, rfl⟩))
    (.commit (lateHandle 1) ⟨_, rfl, rfl, rfl⟩)

theorem lateLanded_unwritten : lateLanded.Unwritten 2 lateCell 0 :=
  (Steps.sound (Steps.sound lateCommitted_reachable.sound (.tail .refl (.fork 1 2 none)))
    lateLanded_steps).unwritten_of_lt
    (by decide +kernel)

/-- A fork resolves a record it did not resolve when it was made: a layer opened before the fork has
committed since. -/
theorem fork_unstable :
    lateCommitted.Reachable ∧ fork 1 2 none lateCommitted = .ok 2 lateForked ∧
      Steps lateForked lateLanded ∧ lateLanded.Unwritten 2 lateCell 0 ∧
      lateForked.storage.getCell (lateForked.readPath 2 none) lateCell 0 = .ok none ∧
      lateLanded.storage.getCell (lateLanded.readPath 2 none) lateCell 0 =
        .ok (some ⟨⟨1, lateCell, .bool true, 0, .source, none, 1⟩, 1⟩) :=
  ⟨lateCommitted_reachable, lateForked_eq, lateLanded_steps, lateLanded_unwritten, by rfl, by rfl⟩

/-- The same, where the second layer has a record of the cell itself. -/
def coveredCommitted : Log :=
  after (commit (lateHandle 2) (after (put (lateHandle 2) lateCell ⟨.bool false, 0, .source, none⟩ lateOpened)))

def coveredForked : Log := after (fork 1 2 none coveredCommitted)

def coveredLanded : Log :=
  after (commit (lateHandle 1)
    (after (put (lateHandle 1) lateCell ⟨.bool true, 0, .source, none⟩ coveredForked)))

theorem coveredCommitted_reachable : coveredCommitted.Reachable :=
  .tail (.tail (.tail (.tail (.tail .refl (.createRoot none)) (.openLayer 1 .value .source rfl))
    (.openLayer 1 .value .source rfl)) (.put (lateHandle 2) lateCell _ ⟨_, rfl, rfl, rfl⟩))
    (.commit (lateHandle 2) ⟨_, rfl, rfl, rfl⟩)

theorem coveredForked_eq : fork 1 2 none coveredCommitted = .ok 2 coveredForked := rfl

theorem coveredLanded_steps : Steps coveredForked coveredLanded :=
  .tail (.tail .refl (.put (lateHandle 1) lateCell _ ⟨_, rfl, rfl, rfl⟩))
    (.commit (lateHandle 1) ⟨_, rfl, rfl, rfl⟩)

theorem coveredLanded_unwritten : coveredLanded.Unwritten 2 lateCell 0 :=
  (Steps.sound (Steps.sound coveredCommitted_reachable.sound (.tail .refl (.fork 1 2 none)))
    coveredLanded_steps).unwritten_of_lt
    (by decide +kernel)

/-- The first layer lands behind the second, and the fork goes on resolving what it did. -/
theorem fork_stable_iff_covered :
    coveredLanded.storage.getCell (coveredLanded.readPath 2 none) lateCell 0 =
      coveredForked.storage.getCell (coveredForked.readPath 2 none) lateCell 0 := by
  refine (fork_stable_iff coveredCommitted_reachable coveredForked_eq coveredLanded_steps
    coveredLanded_unwritten).2 ?_
  rintro ⟨depth, id⟩ ⟨-, segment, hs, hle, hr⟩
  have hpath : (coveredForked.readPath 2 none).segments = [(2, 0), (1, 2)] := by decide +kernel
  refine ⟨(1, 2), ⟨(1, 2), by rw [hpath]; rfl, le_refl _, by decide +kernel⟩, ?_⟩
  rw [hpath] at hs
  match depth with
  | 0 =>
    cases hs
    rw [coveredLanded_unwritten id] at hr
    cases hr
  | 1 =>
    cases hs
    exact Or.inr ⟨rfl, hle⟩
  | depth + 2 => cases hs

end Log

end BorgCore
