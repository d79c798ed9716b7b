import BorgCore.Engine.Guards

/-!
# The cheap question and the full one

`movedSince` looks at one layer a branch, the highest that was recorded; `firstTouchedSince` looks at every
layer of a cell.  A segment that is bounded below its branch's highest layer still holds the layers under
that bound, and of those the cheap question knows nothing.
-/

namespace BorgCore

/-- One call: a layer of a branch wrote these cells. -/
structure Touch where
  branch : BranchId
  layer : LayerId
  cells : List CellRef
deriving DecidableEq

namespace CellTouchIndex

def run (history : List Touch) : CellTouchIndex :=
  history.foldl (fun touches touch => touches.record touch.branch touch.layer touch.cells) new

def Recorded (history : List Touch) (branch : BranchId) (layer : LayerId) : Prop :=
  ∃ touch ∈ history, touch.branch = branch ∧ touch.layer = layer

/-- A layer was recorded on a branch with a cell. -/
def Wrote (history : List Touch) (branch : BranchId) (cell : CellRef) (layer : LayerId) : Prop :=
  ∃ touch ∈ history, touch.branch = branch ∧ touch.layer = layer ∧ cell ∈ touch.cells

/-- Above a layer, and within the bound of a segment. -/
def Within (since : LayerId) (segment : BranchId × LayerId) (layer : LayerId) : Prop :=
  since < layer ∧ layer ≤ segment.2

variable {history : List Touch} {branch : BranchId} {layer top since : LayerId} {cell : CellRef}
  {path : ReadPath}

theorem run_snoc (history : List Touch) (touch : Touch) :
    run (history ++ [touch]) = (run history).record touch.branch touch.layer touch.cells := by
  unfold run
  rw [List.foldl_append, List.foldl_cons, List.foldl_nil]

theorem mem_run_cells :
    layer ∈ (run history).cells.getD (branch, cell) [] ↔ Wrote history branch cell layer := by
  induction history using List.reverseRecOn with
  | nil => simp [run, new, Wrote]
  | append_singleton history touch ih =>
    rw [run_snoc, mem_record, ih]
    unfold Wrote
    simp only [List.mem_append, List.mem_singleton, or_and_right, exists_or, exists_eq_left]
    refine or_congr_right ⟨?_, ?_⟩
    · rintro ⟨rfl, rfl, hc⟩
      exact ⟨rfl, rfl, hc⟩
    · rintro ⟨rfl, rfl, hc⟩
      exact ⟨rfl, rfl, hc⟩

theorem exists_bound (history : List Touch) : ∃ bound, ∀ branch layer, Recorded history branch layer →
    layer < bound := by
  induction history with
  | nil => exact ⟨0, fun branch layer ⟨touch, hm, _⟩ => by cases hm⟩
  | cons touch rest ih =>
    obtain ⟨bound, hb⟩ := ih
    refine ⟨max bound (touch.layer + 1), ?_⟩
    rintro branch layer ⟨other, hm, hbranch, hlayer⟩
    rcases List.mem_cons.1 hm with rfl | hm
    · exact hlayer ▸ Nat.lt_of_lt_of_le (Nat.lt_succ_self _) (Nat.le_max_right _ _)
    · exact Nat.lt_of_lt_of_le (hb branch layer ⟨other, hm, hbranch, hlayer⟩) (Nat.le_max_left _ _)

theorem lookup_run_highest :
    (run history).highest.lookup branch = some top ↔ Log.IsTop (Recorded history branch) top := by
  induction history using List.reverseRecOn generalizing top with
  | nil => simp [run, new, Log.IsTop, Recorded]
  | append_singleton history touch ih =>
    have hadd : Recorded (history ++ [touch]) branch =
        fun other => Recorded history branch other ∨ touch.branch = branch ∧ touch.layer = other := by
      funext other
      unfold Recorded
      simp only [List.mem_append, List.mem_singleton, or_and_right, exists_or, exists_eq_left]
    rw [run_snoc, highest_record, hadd]
    by_cases hb : branch = touch.branch
    · obtain ⟨bound, hbound⟩ := exists_bound history
      rw [if_pos hb, AssocMap.getD, ← hb, Log.isTop_add (hbound branch) fun top => ih]
      simp only [true_and, eq_comm]
    · rw [if_neg hb, ih]
      simp only [Ne.symm hb, false_and, or_false]

/-- **What the cheap question asks**: whether the highest layer recorded on a branch of the path is above
the given one and within the segment's bound. -/
theorem movedSince_run : (run history).movedSince path since = true ↔
    ∃ segment ∈ path.segments, ∃ top, Log.IsTop (Recorded history segment.1) top ∧ Within since segment top := by
  unfold movedSince
  rw [List.any_eq_true]
  refine exists_congr fun segment => and_congr_right fun _ => ?_
  cases hl : (run history).highest.lookup segment.1 with
  | none =>
    simp only [hl, Bool.false_eq_true, false_iff]
    rintro ⟨top, htop, -⟩
    rw [lookup_run_highest.2 htop] at hl
    cases hl
  | some found =>
    have hfound := lookup_run_highest.1 hl
    simp only [hl, decide_eq_true_eq]
    constructor
    · exact fun h => ⟨found, hfound, h⟩
    · rintro ⟨top, htop, hwithin⟩
      rw [Log.isTop_unique hfound htop]
      exact hwithin

/-- **What the full question asks**: whether any layer of the path, above the given one and within its
segment's bound, wrote one of the cells. -/
theorem firstTouchedSince_run {cells : List CellRef} :
    (run history).firstTouchedSince path cells since = none ↔
      ∀ cell ∈ cells, ∀ segment ∈ path.segments, ∀ layer, Wrote history segment.1 cell layer →
        ¬ Within since segment layer := by
  rw [firstTouchedSince_eq_none_iff]
  refine forall₂_congr fun cell _ => ?_
  rw [← Bool.not_eq_true, lookup_isSome_iff]
  simp only [mem_run_cells]
  unfold Within
  push Not
  rfl

/-- Every layer a segment of the path holds with a cell has, somewhere on the path, a branch whose highest
layer is within its segment's bound and no older. -/
def Covered (history : List Touch) (path : ReadPath) : Prop :=
  ∀ segment ∈ path.segments, ∀ cell layer, Wrote history segment.1 cell layer →
    0 < layer → layer ≤ segment.2 →
    ∃ other ∈ path.segments, ∃ top, Log.IsTop (Recorded history other.1) top ∧
      layer ≤ top ∧ top ≤ other.2

theorem Wrote.recorded (h : Wrote history branch cell layer) : Recorded history branch layer := by
  obtain ⟨touch, hm, hb, hl, -⟩ := h
  exact ⟨touch, hm, hb, hl⟩

/-- A branch that recorded a layer has a highest one. -/
theorem exists_top (h : Recorded history branch layer) :
    ∃ top, Log.IsTop (Recorded history branch) top ∧ layer ≤ top := by
  obtain ⟨bound, hbound⟩ := exists_bound history
  obtain ⟨top, htop⟩ := Log.exists_isTop (hbound branch) h
  exact ⟨top, htop, htop.2 layer h⟩

/-- **When the cheap negative may stand for the full check.**  At every layer it is asked about, exactly
where every layer the path holds is covered by a branch's highest that the path holds too; and at one
layer already where each segment that ends below its branch's highest ends at or below that layer. -/
theorem movedSince_negative_iff (history : List Touch) (path : ReadPath) :
    ((∀ since, (run history).movedSince path since = false →
        ∀ cells, (run history).firstTouchedSince path cells since = none) ↔ Covered history path) ∧
      ∀ since, (∀ segment ∈ path.segments, ∀ top, Log.IsTop (Recorded history segment.1) top →
          top ≤ segment.2 ∨ segment.2 ≤ since) →
        (run history).movedSince path since = false →
          ∀ cells, (run history).firstTouchedSince path cells since = none := by
  refine ⟨⟨?_, ?_⟩, ?_⟩
  · intro h segment hs cell layer hw hpos hle
    by_contra hnone
    -- asked right below the layer, the cheap question knows nothing of it
    have hcheap : (run history).movedSince path (layer - 1) = false := by
      rw [← Bool.not_eq_true, movedSince_run]
      rintro ⟨other, ho, top, htop, hlt, hbound⟩
      exact hnone ⟨other, ho, top, htop, Nat.le_of_pred_lt hlt, hbound⟩
    have hfull := firstTouchedSince_run.1 (h _ hcheap [cell]) cell (List.mem_singleton_self _) segment hs
    exact hfull layer hw ⟨Nat.sub_lt hpos Nat.one_pos, hle⟩
  · intro hcovered since hcheap cells
    refine firstTouchedSince_run.2 fun cell _ segment hs layer hw hwithin => ?_
    obtain ⟨other, ho, top, htop, hle, hbound⟩ :=
      hcovered segment hs cell layer hw (Nat.zero_lt_of_lt hwithin.1) hwithin.2
    rw [← Bool.not_eq_true, movedSince_run] at hcheap
    exact hcheap ⟨other, ho, top, htop, Nat.lt_of_lt_of_le hwithin.1 hle, hbound⟩
  · intro since hbounds hcheap cells
    refine firstTouchedSince_run.2 fun cell _ segment hs layer hw hwithin => ?_
    obtain ⟨top, htop, hle⟩ := exists_top hw.recorded
    rw [← Bool.not_eq_true, movedSince_run] at hcheap
    rcases hbounds segment hs top htop with hbound | hbound
    · exact hcheap ⟨segment, hs, top, htop, Nat.lt_of_lt_of_le hwithin.1 hle, hbound⟩
    · exact absurd hwithin.1 (Nat.not_lt.2 (hwithin.2.trans hbound))

namespace Sample

def name : CellRef := .prop "Company" "name" (.allocated .object 1 0 7)

/-- A cell is written at layers 5 and 9 of a branch, and at layer 8 of its fork. -/
def touched : List Touch := [⟨1, 5, [name]⟩, ⟨1, 9, [name]⟩, ⟨2, 8, [name]⟩]

/-- The read path of the fork, which left its parent at layer 7. -/
def fork : ReadPath := ⟨[(2, 8), (1, 7)]⟩

theorem covered : Covered touched fork := by
  intro segment hs cell layer _ _ hle
  have htop : Log.IsTop (Recorded touched 2) 8 := by
    refine ⟨⟨⟨2, 8, [name]⟩, by decide, rfl, rfl⟩, ?_⟩
    rintro id ⟨touch, hm, hb, rfl⟩
    simp only [touched, List.mem_cons, List.not_mem_nil, or_false] at hm
    rcases hm with rfl | rfl | rfl
    · exact absurd hb (by decide)
    · exact absurd hb (by decide)
    · exact Nat.le_refl 8
  refine ⟨(2, 8), by decide, 8, htop, ?_, by decide⟩
  simp only [fork, List.mem_cons, List.not_mem_nil, or_false] at hs
  rcases hs with rfl | rfl
  · exact hle
  · exact Nat.le_trans hle (by decide)

/-- The write of the fork covers the one of its parent, so the cheap negative can be trusted. -/
theorem movedSince_negative_iff_covered :
    ∀ since, (run touched).movedSince fork since = false →
      ∀ cells, (run touched).firstTouchedSince fork cells since = none :=
  (movedSince_negative_iff touched fork).1.2 covered

end Sample

/-- A cell of branch 1 is written at layers 5 and 9; branch 2 was forked off at layer 7. -/
theorem movedSince_misses_ancestor :
    ¬ ∀ (history : List Touch) (path : ReadPath) (since : LayerId),
      (run history).movedSince path since = false →
        ∀ cells, (run history).firstTouchedSince path cells since = none := by
  intro h
  have hcheap := h
    [⟨1, 5, [.prop "Company" "name" (.allocated .object 1 0 7)]⟩,
      ⟨1, 9, [.prop "Company" "name" (.allocated .object 1 0 7)]⟩]
    ⟨[(2, 8), (1, 7)]⟩ 4 (by decide) [.prop "Company" "name" (.allocated .object 1 0 7)]
  revert hcheap
  decide

end CellTouchIndex

end BorgCore
