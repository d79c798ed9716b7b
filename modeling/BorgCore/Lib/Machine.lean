import Mathlib.Data.List.Basic
import Mathlib.Order.WellFounded

/-!
# Runs of a machine

A machine takes one input after another.  What a run preserves is what each of its steps preserves, where
the steps are taken.  A machine may answer as well, and two runs on the same inputs give the same answers
where the states they pass through stay related.
-/

namespace BorgCore

namespace Machine

variable {S I O : Type*} {next : S → I → S} {holds : S → I → Prop}

/-! ### What a run keeps -/

/-- Every step of a run is so, in the state it is taken in. -/
def Along (next : S → I → S) (holds : S → I → Prop) : S → List I → Prop
  | _, [] => True
  | s, i :: rest => holds s i ∧ Along next holds (next s i) rest

instance decidableAlong [∀ s i, Decidable (holds s i)] :
    ∀ (s : S) (inputs : List I), Decidable (Along next holds s inputs)
  | _, [] => isTrue trivial
  | s, i :: rest =>
    have := decidableAlong (next s i) rest
    inferInstanceAs (Decidable (holds s i ∧ Along next holds (next s i) rest))

theorem Along.and {also : S → I → Prop} {s : S} {inputs : List I} (h : Along next holds s inputs)
    (h' : Along next also s inputs) : Along next (fun s i => holds s i ∧ also s i) s inputs := by
  induction inputs generalizing s with
  | nil => trivial
  | cons i rest ih => exact ⟨⟨h.1, h'.1⟩, ih h.2 h'.2⟩

theorem along_of_forall {s : S} {inputs : List I} (h : ∀ s, ∀ i ∈ inputs, holds s i) :
    Along next holds s inputs := by
  induction inputs generalizing s with
  | nil => trivial
  | cons i rest ih => exact ⟨h s i (List.mem_cons_self ..), ih fun t j hj => h t j (List.mem_cons_of_mem _ hj)⟩

theorem foldl_keeps {P : S → Prop} (hstep : ∀ s i, P s → holds s i → P (next s i)) {s : S}
    {inputs : List I} (h : P s) (halong : Along next holds s inputs) : P (inputs.foldl next s) := by
  induction inputs generalizing s with
  | nil => exact h
  | cons i rest ih => exact ih (hstep s i h halong.1) halong.2

/-! ### Executions -/

def states (next : S → I → S) (s : S) (inputs : ℕ → I) : ℕ → S
  | 0 => s
  | n + 1 => next (states next s inputs n) (inputs n)

theorem states_keeps {P : S → Prop} (hstep : ∀ s i, P s → P (next s i)) {s : S} (h : P s) (inputs : ℕ → I) :
    ∀ n, P (states next s inputs n)
  | 0 => h
  | n + 1 => hstep _ _ (states_keeps hstep h inputs n)

/-- **What descends comes to rest**: a measure that every move lowers, and nothing else changes, leaves only
so many moves. -/
theorem comes_to_rest {M : Type*} {r : M → M → Prop} (hwf : WellFounded r) (measure : ℕ → M)
    (moves : ℕ → Prop) (hmove : ∀ n, moves n → r (measure (n + 1)) (measure n))
    (hstill : ∀ n, ¬ moves n → measure (n + 1) = measure n) : ∃ m, ∀ n, m ≤ n → ¬ moves n := by
  obtain ⟨_, ⟨m, rfl⟩, hmin⟩ := hwf.has_min (Set.range measure) ⟨measure 0, 0, rfl⟩
  -- the measure stays at its least value, so nothing moves any more
  have hconst : ∀ n, m ≤ n → measure n = measure m := by
    intro n hn
    induction n, hn using Nat.le_induction with
    | base => rfl
    | succ n _ ih =>
      by_cases hm : moves n
      · exact absurd (ih ▸ hmove n hm) (hmin _ ⟨n + 1, rfl⟩)
      · exact (hstill n hm).trans ih
  exact ⟨m, fun n hn hm => hmin _ ⟨n + 1, rfl⟩ (hconst n hn ▸ hmove n hm)⟩

/-! ### Machines that answer -/

variable (step : S → I → O × S)

/-- The answers to a sequence of inputs, and the state they leave. -/
def run : S → List I → List O × S
  | s, [] => ([], s)
  | s, i :: rest => ((step s i).1 :: (run (step s i).2 rest).1, (run (step s i).2 rest).2)

theorem run_state (s : S) (inputs : List I) :
    (run step s inputs).2 = inputs.foldl (fun s i => (step s i).2) s := by
  induction inputs generalizing s with
  | nil => rfl
  | cons i rest ih => exact ih (step s i).2

variable {step}

/-- Related states that answer alike and stay related answer alike all along. -/
theorem run_related {R : S → S → Prop} {holds : I → Prop}
    (hstep : ∀ s s' i, R s s' → holds i → (step s i).1 = (step s' i).1 ∧ R (step s i).2 (step s' i).2)
    {s s' : S} {inputs : List I} (h : R s s') (hall : ∀ i ∈ inputs, holds i) :
    (run step s inputs).1 = (run step s' inputs).1 ∧ R (run step s inputs).2 (run step s' inputs).2 := by
  induction inputs generalizing s s' with
  | nil => exact ⟨rfl, h⟩
  | cons i rest ih =>
    obtain ⟨hanswer, hnext⟩ := hstep s s' i h (hall i (List.mem_cons_self ..))
    obtain ⟨hanswers, hlast⟩ := ih hnext fun j hj => hall j (List.mem_cons_of_mem _ hj)
    refine ⟨?_, hlast⟩
    show (step s i).1 :: _ = (step s' i).1 :: _
    rw [hanswer, hanswers]

end Machine

end BorgCore
