import Mathlib.Data.List.Basic

/-!
# Reconciling with what stands

What is asked for is compared, piece by piece, with what stood before any of it, and the pieces that are not
met are put in place one after another.  Pieces may be asked for under one key: the last of them that was not
met is what is left there, and all that is asked for is met in the end only where that one meets the others.
-/

namespace BorgCore

namespace Reconcile

variable {K S W : Type*} [DecidableEq K] (key : W → K) (make : W → S) (met : Option S → W → Bool)

/-- What is not met by what stands. -/
def unmet (standing : K → Option S) (wishes : List W) : List W :=
  wishes.filter fun wish => !met (standing (key wish)) wish

/-- The last of the pieces under a key that are not met. -/
def lastUnmet (standing : K → Option S) (wishes : List W) (k : K) : Option W :=
  ((unmet key met standing wishes).filter fun wish => key wish = k).getLast?

/-- What stands under each key once pieces are put in place one after another. -/
def placed (standing : K → Option S) : List W → K → Option S
  | [] => standing
  | wish :: rest => placed (fun k => if k = key wish then some (make wish) else standing k) rest

variable {key make met} {standing : K → Option S} {wishes : List W} {k : K}

theorem placed_eq (wishes : List W) (standing : K → Option S) (k : K) :
    placed key make standing wishes k =
      ((wishes.filter fun wish => key wish = k).getLast?.map make).or (standing k) := by
  induction wishes generalizing standing with
  | nil => rfl
  | cons wish rest ih =>
    rw [placed, ih]
    by_cases hk : key wish = k
    · rw [List.filter_cons_of_pos (by simpa using hk), List.getLast?_cons, if_pos hk.symm]
      cases (rest.filter fun wish => key wish = k).getLast? <;> rfl
    · rw [List.filter_cons_of_neg (by simpa using hk), if_neg (Ne.symm hk)]

theorem lastUnmet_eq_none :
    lastUnmet key met standing wishes k = none ↔
      ∀ wish ∈ wishes, key wish = k → met (standing k) wish = true := by
  rw [lastUnmet, List.getLast?_eq_none_iff, List.filter_eq_nil_iff]
  constructor
  · intro h wish hm hk
    by_contra hmet
    refine h wish (List.mem_filter.2 ⟨hm, ?_⟩) (by simpa using hk)
    simpa [hk] using hmet
  · intro h wish hm hk
    obtain ⟨hmem, hunmet⟩ := List.mem_filter.1 hm
    have hk : key wish = k := by simpa using hk
    simp [hk, h wish hmem hk] at hunmet

/-- **Everything asked for is met in the end** exactly where each last piece that was not met meets what else is
asked for under its key. -/
theorem all_met_iff :
    (∀ wish ∈ wishes, met (placed key make standing (unmet key met standing wishes) (key wish)) wish = true) ↔
      ∀ wish ∈ wishes, ∀ last, lastUnmet key met standing wishes (key wish) = some last →
        met (some (make last)) wish = true := by
  refine forall₂_congr fun wish hm => ?_
  rw [placed_eq]
  change met (((lastUnmet key met standing wishes (key wish)).map make).or _) wish = true ↔ _
  cases hlast : lastUnmet key met standing wishes (key wish) with
  | none =>
    have hmet := lastUnmet_eq_none.1 hlast wish hm rfl
    simpa using hmet
  | some last => simp

end Reconcile

end BorgCore
