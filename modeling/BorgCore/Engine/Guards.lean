import BorgCore.Engine.Replay

/-!
# Guards

A guard asks whether a client has touched a cell since a layer.  The question is asked of the touch
index, and the answer is a fact about the timeline: a committed source layer of the path, above that
layer, with an event on that cell.
-/

namespace BorgCore

namespace Log

variable {log : Log} {branch : BranchId} {since : LayerId} {cell : CellRef}

/-- A client has landed a write of this cell on this branch since. -/
def MovedOn (log : Log) (branch : BranchId) (since : LayerId) (cell : CellRef) : Prop :=
  ∃ id, since < id ∧ log.TouchedOn branch cell id

/-- A client has landed a write of this cell since, somewhere along the branch's read path. -/
def MovedAlong (log : Log) (branch : BranchId) (since : LayerId) (cell : CellRef) : Prop :=
  ∃ segment ∈ (log.readPath branch none).segments, ∃ id, since < id ∧ id ≤ segment.2 ∧
    log.TouchedOn segment.1 cell id

theorem TouchedOn.sourceOn {id : LayerId} (ht : log.TouchedOn branch cell id) : log.SourceOn branch id := by
  obtain ⟨commit, hc, hb, hs, _⟩ := ht
  exact ⟨commit, hc, hb, hs⟩

theorem SourceOn.committedOn {id : LayerId} (hs : log.SourceOn branch id) : log.CommittedOn branch id := by
  obtain ⟨commit, hc, hb, _⟩ := hs
  exact ⟨commit, hc, hb⟩

theorem Sound.head_mem_readPath (h : log.Sound) (branch : BranchId) :
    (branch, (log.head branch).getD 0) ∈ (log.readPath branch none).segments := by
  rw [h.readPath_none]
  exact List.mem_cons_self

theorem Sound.movedAlong (h : log.Sound) (hm : log.MovedOn branch since cell) :
    log.MovedAlong branch since cell := by
  obtain ⟨id, hlt, ht⟩ := hm
  exact ⟨_, h.head_mem_readPath branch, id, hlt, h.le_head ht.sourceOn.committedOn, ht⟩

theorem Sound.lookup_touches (h : log.Sound) :
    (log.touches.lookup (log.readPath branch none) cell since).isSome ↔
      log.MovedAlong branch since cell := by
  rw [CellTouchIndex.lookup_isSome_iff]
  simp only [h.projected.touched_iff, MovedAlong]
  constructor
  · rintro ⟨segment, hs, id, ht, hlt, hle⟩
    exact ⟨segment, hs, id, hlt, hle, ht⟩
  · rintro ⟨segment, hs, id, hlt, hle, ht⟩
    exact ⟨segment, hs, id, ht, hlt, hle⟩

/-- **A guard set passes when nobody has touched any of its cells.** -/
theorem Sound.checkReads_ok (h : log.Sound) {cells : List CellRef} :
    log.checkReads branch cells since = .ok () ↔ ∀ cell ∈ cells, ¬ log.MovedAlong branch since cell := by
  unfold checkReads checkTouched
  have hnone : log.touches.firstTouchedSince (log.readPath branch none) cells since = none ↔ _ :=
    CellTouchIndex.firstTouchedSince_eq_none_iff
  simp only [Bool.eq_false_iff, ne_eq, h.lookup_touches] at hnone
  rw [← hnone]
  cases log.touches.firstTouchedSince (log.readPath branch none) cells since <;> simp

theorem checkReads_error {cells : List CellRef} (hc : log.checkReads branch cells since ≠ .ok ()) :
    ∃ cell mutatedAt, log.checkReads branch cells since = .error (.guardViolated cell since mutatedAt) := by
  unfold checkReads checkTouched at hc ⊢
  cases hf : log.touches.firstTouchedSince (log.readPath branch none) cells since with
  | none => exact absurd (by simp [hf]) hc
  | some entry => exact ⟨entry.1, entry.2, rfl⟩

/-- Where a client has touched anything on the branch itself since, guards are looked at. -/
theorem Sound.touchedSince_of_movedOn (h : log.Sound) (hm : log.MovedOn branch since cell) :
    log.touchedSince branch since = true := by
  obtain ⟨id, hlt, ht⟩ := hm
  have hsource := ht.sourceOn
  have hbelow : ∀ other, log.SourceOn branch other → other < log.nextLayer := by
    rintro other ⟨commit, hc, _⟩
    exact (h.commitAt_lt hc).2
  obtain ⟨top, htop⟩ := exists_isTop hbelow hsource
  unfold touchedSince CellTouchIndex.movedSince
  refine List.any_eq_true.2 ⟨_, h.head_mem_readPath branch, ?_⟩
  simp only [(h.projected.highest_iff branch top).2 htop, decide_eq_true_eq]
  exact ⟨Nat.lt_of_lt_of_le hlt (htop.2 id hsource), h.le_head htop.1.committedOn⟩

end Log

end BorgCore
