import Mathlib.Order.Bounds.Basic
import BorgCore.Engine.Rounds

/-!
# What a dropped invocation takes with it

An invocation that read what another wrote cannot land where that other one does not.  `Round.cascade`
follows reads from the layers that failed; what it returns is the least set that holds these and is closed
under reading, whatever the reads and writes are.
-/

namespace BorgCore

namespace Round

variable {round : Round} {reader writer layer : LayerId} {failed failed' : List LayerId}

/-- A set of layers that may be dropped together: with a layer go those that consumed its output. -/
structure Swept (round : Round) (failed : List LayerId) (dropped : Set LayerId) : Prop where
  failed : ∀ layer ∈ failed, layer ∈ dropped
  consumed : ∀ writer ∈ dropped, ∀ reader, round.Consumes reader writer → reader ∈ dropped

theorem swept_cascade (round : Round) (failed : List LayerId) :
    round.Swept failed {layer | layer ∈ round.cascade failed} where
  failed layer hl := mem_cascade.2 ⟨layer, hl, .refl⟩
  consumed writer hw reader hr := by
    obtain ⟨other, hother, hleads⟩ := mem_cascade.1 hw
    exact mem_cascade.2 ⟨other, hother, hleads.tail (mem_consumers.2 hr)⟩

/-- Nothing is dropped that need not be. -/
theorem Swept.cascade_subset {dropped : Set LayerId} (h : round.Swept failed dropped)
    (hl : layer ∈ round.cascade failed) : layer ∈ dropped := by
  obtain ⟨other, hother, hleads⟩ := mem_cascade.1 hl
  clear hl
  -- Along the path from a failed layer: each step is a read of what the layer before it wrote.
  induction hleads with
  | refl => exact h.failed other hother
  | tail _ hstep ih => exact h.consumed _ ih _ (mem_consumers.1 hstep)

theorem Swept.anti {dropped : Set LayerId} (h : round.Swept failed' dropped)
    (hsub : ∀ layer ∈ failed, layer ∈ failed') : round.Swept failed dropped :=
  ⟨fun layer hl => h.failed layer (hsub layer hl), h.consumed⟩

/-- As many turns as there are failed layers and layers of the round are enough. -/
theorem cascade_ends (round : Round) (failed : List LayerId) :
    (Worklist.pop round.consumers)^[failed.length + round.layers.length] (failed.reverse, failed) =
      ([], round.cascade failed) := by
  have hlength : round.layers.length = round.invocations.keys.length := List.length_insertionSort _ _
  have hnext (a b : LayerId) (hb : b ∈ round.consumers a) : b ∈ round.layers := (mem_consumers.1 hb).1
  rw [Worklist.iterate_pop hnext, cascade, hlength]
  rw [List.length_reverse]
  exact Nat.add_le_add_left (List.length_filter_le _ _) _

/-- **The cascade is the exact closure.**  Its loop ends; it returns the least set that holds the failed
layers and every layer of the round that read what one of the set wrote; it drops more where more fails;
and what a merge applies has read nothing of what the merge dropped. -/
theorem cascade_least (round : Round) (failed : List LayerId) :
    ((Worklist.pop round.consumers)^[failed.length + round.layers.length] (failed.reverse, failed) =
        ([], round.cascade failed)) ∧
      IsLeast {dropped | round.Swept failed dropped} {layer | layer ∈ round.cascade failed} ∧
      (∀ more : List LayerId, failed ⊆ more → round.cascade failed ⊆ round.cascade more) ∧
      ∀ (log : Log) (dropped applied : List LayerId), log.droppedBy round = .ok dropped →
        log.appliedBy round = .ok applied →
          ∀ reader ∈ applied, ∀ writer ∈ dropped, ¬ round.Consumes reader writer := by
  refine ⟨cascade_ends round failed,
    ⟨swept_cascade round failed, fun dropped hs layer hl => hs.cascade_subset hl⟩,
    fun more hsub layer hl => ((swept_cascade round more).anti hsub).cascade_subset hl, ?_⟩
  intro log dropped applied hdropped happlied reader hr writer hw hconsumes
  unfold Log.droppedBy at hdropped
  unfold Log.appliedBy Log.droppedBy at happlied
  cases hrejected : log.rejectedBy round with
  | error err =>
    rw [hrejected] at hdropped
    cases hdropped
  | ok rejected =>
    rw [hrejected] at hdropped happlied
    cases hdropped
    cases happlied
    obtain ⟨-, hkept⟩ := List.mem_filter.1 hr
    refine of_decide_eq_true hkept ?_
    exact (swept_cascade round _).consumed writer hw reader hconsumes

end Round

end BorgCore
