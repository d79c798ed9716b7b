import BorgCore.Core.Layer

/-!
# Watermarks

A watermark is the source layer through which a producer has incorporated every input.
-/

namespace BorgCore

structure FrontierTracker where
  watermarks : AssocMap (BranchId × ProducerId) LayerId

namespace FrontierTracker

def new : FrontierTracker := ⟨∅⟩

/-- How far this producer has caught up; zero for one that has never run. -/
def watermark (frontier : FrontierTracker) (branch : BranchId) (producer : ProducerId) : LayerId :=
  frontier.watermarks.getD (branch, producer) 0

/-- Advance monotonically: a late run cannot un-catch-up a producer. -/
def advance (frontier : FrontierTracker) (branch : BranchId) (producer : ProducerId)
    (target : LayerId) : FrontierTracker :=
  ⟨frontier.watermarks.insert (branch, producer) (max (frontier.watermark branch producer) target)⟩

variable (frontier : FrontierTracker) (branch branch' : BranchId) (producer producer' : ProducerId)

@[simp] theorem watermark_new : new.watermark branch producer = 0 := AssocMap.getD_empty _ _

theorem watermark_advance (target : LayerId) :
    (frontier.advance branch producer target).watermark branch' producer' =
      if (branch', producer') = (branch, producer) then max (frontier.watermark branch producer) target
      else frontier.watermark branch' producer' :=
  AssocMap.getD_insert _ _ _ _ _

/-- Whoever is advanced has come that far, and nobody falls back. -/
theorem le_watermark_foldl (producers : List ProducerId) (target : LayerId) (h : producer' ∈ producers ∨
    target ≤ frontier.watermark branch producer') :
    target ≤ (producers.foldl (fun frontier producer => frontier.advance branch producer target) frontier).watermark
      branch producer' := by
  induction producers generalizing frontier with
  | nil => exact h.resolve_left List.not_mem_nil
  | cons first rest ih =>
    refine ih _ ?_
    rw [watermark_advance]
    split
    · exact Or.inr (Nat.le_max_right _ _)
    · rename_i hne
      refine h.imp_left fun hin => (List.mem_cons.1 hin).resolve_left fun he => hne ?_
      rw [he]

end FrontierTracker

end BorgCore
