import Mathlib.Data.List.Induction
import BorgCore.Engine.Index

/-!
# What the dependency index still answers

An index is the calls made on it.  An invocation depends, on a branch, on what its last record there listed,
until its producer is forgotten there.  The read-sets of the index say exactly that.  The forward edges say
less: forgetting a producer on one branch takes its edges on all of them.
-/

namespace BorgCore

/-- A call that changes the index. -/
inductive IndexCall where
  | record (branch : BranchId) (invocation : Invocation) (readSet writeSet : List CellAt)
  | forgetProducer (branch : BranchId) (producer : ProducerId)
deriving DecidableEq

namespace DependencyIndex

def call (index : DependencyIndex) : IndexCall → DependencyIndex
  | .record branch invocation readSet writeSet => index.record branch invocation readSet writeSet
  | .forgetProducer branch producer => index.forgetProducer branch producer

def run (calls : List IndexCall) : DependencyIndex := calls.foldl call new

/-- What an invocation's most recent record on a branch listed, and the calls that came later. -/
def lastRecord (branch : BranchId) (invocation : Invocation) :
    List IndexCall → Option (List CellAt × List IndexCall)
  | [] => none
  | .record home recorded readSet _ :: later =>
    (lastRecord branch invocation later).or
      (if (home, recorded) = (branch, invocation) then some (readSet, later) else none)
  | .forgetProducer .. :: later => lastRecord branch invocation later

/-- An invocation's most recent record on a branch listed a cell, and its producer has not been forgotten
since on any of these branches. -/
def Standing (calls : List IndexCall) (forgotten : BranchId → Prop) (branch : BranchId)
    (invocation : Invocation) (cell : CellAt) : Prop :=
  ∃ readSet later, lastRecord branch invocation calls = some (readSet, later) ∧ cell ∈ readSet ∧
    ∀ home, forgotten home → .forgetProducer home invocation.producer ∉ later

/-- An invocation depends on a cell on a branch: what happens to its producer elsewhere is not asked. -/
def Subscribed (calls : List IndexCall) (branch : BranchId) (invocation : Invocation) (cell : CellAt) : Prop :=
  Standing calls (· = branch) branch invocation cell

/-- An invocation's producer has been forgotten on another branch since its most recent record on this
one. -/
def ForgottenElsewhere (calls : List IndexCall) (branch : BranchId) (invocation : Invocation) : Prop :=
  ∃ readSet later, lastRecord branch invocation calls = some (readSet, later) ∧
    ∃ home, home ≠ branch ∧ .forgetProducer home invocation.producer ∈ later

variable {calls : List IndexCall} {branch home : BranchId} {invocation other : Invocation} {cell : CellAt}
  {forgotten : BranchId → Prop}

/-! ### One more call -/

theorem lastRecord_record (readSet writeSet : List CellAt) :
    lastRecord branch invocation (calls ++ [.record home other readSet writeSet]) =
      if (home, other) = (branch, invocation) then some (readSet, [])
      else (lastRecord branch invocation calls).map fun found =>
        (found.1, found.2 ++ [.record home other readSet writeSet]) := by
  induction calls with
  | nil => simp [lastRecord]
  | cons call rest ih =>
    cases call with
    | forgetProducer at' producer => simpa only [List.cons_append, lastRecord] using ih
    | record at' recorded listed written =>
      simp only [List.cons_append, lastRecord, ih]
      split
      · rfl
      · cases lastRecord branch invocation rest with
        | some found => rfl
        | none =>
          simp only [Option.map_none, Option.none_or]
          split <;> rfl

theorem lastRecord_forgetProducer (producer : ProducerId) :
    lastRecord branch invocation (calls ++ [.forgetProducer home producer]) =
      (lastRecord branch invocation calls).map fun found =>
        (found.1, found.2 ++ [.forgetProducer home producer]) := by
  induction calls with
  | nil => simp [lastRecord]
  | cons call rest ih =>
    cases call with
    | forgetProducer at' forgotten => simpa only [List.cons_append, lastRecord] using ih
    | record at' recorded listed written =>
      simp only [List.cons_append, lastRecord, ih]
      cases lastRecord branch invocation rest with
      | some found => rfl
      | none =>
        simp only [Option.map_none, Option.none_or]
        split <;> rfl

theorem standing_record {readSet writeSet : List CellAt} :
    Standing (calls ++ [.record home other readSet writeSet]) forgotten branch invocation cell ↔
      if (home, other) = (branch, invocation) then cell ∈ readSet
      else Standing calls forgotten branch invocation cell := by
  unfold Standing
  rw [lastRecord_record]
  split
  · simp
  · simp [Option.map_eq_some_iff]

/-- Forgetting ends what stands, where the branch it is done on counts. -/
theorem standing_forgetProducer {producer : ProducerId} :
    Standing (calls ++ [.forgetProducer home producer]) forgotten branch invocation cell ↔
      Standing calls forgotten branch invocation cell ∧ ¬ (forgotten home ∧ invocation.producer = producer) := by
  unfold Standing
  rw [lastRecord_forgetProducer]
  constructor
  · rintro ⟨readSet, later, hlast, hcell, hkept⟩
    obtain ⟨⟨listed, after⟩, hfound, he⟩ := Option.map_eq_some_iff.1 hlast
    cases he
    refine ⟨⟨listed, after, hfound, hcell, fun at' ha hm => hkept at' ha (List.mem_append_left _ hm)⟩, ?_⟩
    rintro ⟨hhome, rfl⟩
    exact hkept home hhome (List.mem_append_right _ (List.mem_singleton_self _))
  · rintro ⟨⟨readSet, later, hlast, hcell, hkept⟩, hspared⟩
    refine ⟨readSet, _, by rw [hlast]; rfl, hcell, fun at' ha hm => ?_⟩
    rcases List.mem_append.1 hm with hm | hm
    · exact hkept at' ha hm
    · cases List.mem_singleton.1 hm
      exact hspared ⟨ha, rfl⟩

theorem Standing.mono {fewer : BranchId → Prop} (h : Standing calls forgotten branch invocation cell)
    (hsub : ∀ home, fewer home → forgotten home) : Standing calls fewer branch invocation cell := by
  obtain ⟨readSet, later, hlast, hcell, hkept⟩ := h
  exact ⟨readSet, later, hlast, hcell, fun home hf => hkept home (hsub home hf)⟩

/-! ### What the maps hold -/

/-- The maps follow the calls: a forward edge stands until its producer is forgotten anywhere, a read-set
until it is forgotten on its own branch. -/
structure Follows (index : DependencyIndex) (calls : List IndexCall) : Prop where
  edges : ∀ branch invocation cell, invocation ∈ index.dependents.getD (branch, cell) [] ↔
    Standing calls (fun _ => True) branch invocation cell
  read : ∀ branch invocation cell, cell ∈ index.readSets.getD (branch, invocation) [] ↔
    Subscribed calls branch invocation cell

theorem Follows.listed {index : DependencyIndex} (h : index.Follows calls)
    (hm : invocation ∈ index.dependents.getD (branch, cell) []) :
    cell ∈ index.readSets.getD (branch, invocation) [] :=
  (h.read branch invocation cell).2 (((h.edges branch invocation cell).1 hm).mono fun _ _ => trivial)

theorem Follows.record {index : DependencyIndex} (h : index.Follows calls) (readSet writeSet : List CellAt) :
    (index.record home other readSet writeSet).Follows (calls ++ [.record home other readSet writeSet]) where
  edges branch invocation cell := by
    rw [mem_record, standing_record, ← h.edges]
    split
    · rename_i he
      obtain ⟨rfl, rfl⟩ := Prod.mk.inj he
      constructor
      · rintro (⟨-, -, hc⟩ | ⟨hm, hstale⟩)
        · exact hc
        · exact absurd ⟨rfl, rfl, h.listed hm⟩ hstale
      · exact fun hc => Or.inl ⟨rfl, rfl, hc⟩
    · rename_i he
      constructor
      · rintro (⟨rfl, rfl, -⟩ | ⟨hm, -⟩)
        · exact absurd rfl he
        · exact hm
      · refine fun hm => Or.inr ⟨hm, ?_⟩
        rintro ⟨rfl, rfl, -⟩
        exact he rfl
  read branch invocation cell := by
    unfold Subscribed
    rw [readSets_record, standing_record]
    by_cases he : (home, other) = (branch, invocation)
    · rw [if_pos he, if_pos he.symm]
    · rw [if_neg he, if_neg fun hs => he hs.symm]
      exact h.read branch invocation cell

theorem Follows.forgetProducer {index : DependencyIndex} (h : index.Follows calls) (producer : ProducerId) :
    (index.forgetProducer home producer).Follows (calls ++ [.forgetProducer home producer]) where
  edges branch invocation cell := by
    rw [mem_forgetProducer, standing_forgetProducer, h.edges]
    simp
  read branch invocation cell := by
    unfold Subscribed
    rw [readSets_forgetProducer, standing_forgetProducer]
    have hread := h.read branch invocation cell
    unfold Subscribed at hread
    by_cases hgone : branch = home ∧ invocation.producer = producer
    · rw [if_pos hgone]
      simp [hgone.1, hgone.2]
    · rw [if_neg hgone, hread, and_iff_left]
      rintro ⟨rfl, hp⟩
      exact hgone ⟨rfl, hp⟩

theorem follows_run (calls : List IndexCall) : (run calls).Follows calls := by
  induction calls using List.reverseRecOn with
  | nil => exact ⟨fun _ _ _ => by simp [run, new, Standing, lastRecord],
      fun _ _ _ => by simp [run, new, Subscribed, Standing, lastRecord]⟩
  | append_singleton calls call ih =>
    have hrun : run (calls ++ [call]) = (run calls).call call := by
      unfold run
      rw [List.foldl_append, List.foldl_cons, List.foldl_nil]
    rw [hrun]
    cases call with
    | record home other readSet writeSet => exact ih.record readSet writeSet
    | forgetProducer home producer => exact ih.forgetProducer producer

/-- What an index answers: an edge is lost to a producer forgotten anywhere. -/
theorem mem_run_dependentsOf {cells : List CellAt} :
    invocation ∈ (run calls).dependentsOf branch cells ↔
      ∃ cell ∈ cells, Subscribed calls branch invocation cell ∧ ¬ ForgottenElsewhere calls branch invocation := by
  rw [mem_dependentsOf]
  simp only [(follows_run calls).edges]
  refine exists_congr fun cell => and_congr_right fun _ => ⟨fun h => ⟨h.mono fun _ _ => trivial, ?_⟩, ?_⟩
  · rintro ⟨listed, after, hlast', home, -, hm⟩
    obtain ⟨readSet, later, hlast, -, hkept⟩ := h
    rw [hlast] at hlast'
    cases hlast'
    exact hkept home trivial hm
  · rintro ⟨⟨readSet, later, hlast, hcell, hkept⟩, hspared⟩
    refine ⟨readSet, later, hlast, hcell, fun home _ hm => ?_⟩
    by_cases hh : home = branch
    · exact hkept home hh hm
    · exact hspared ⟨readSet, later, hlast, home, hh, hm⟩

/-- **When the index answers exactly.**  On a branch it names the invocations whose most recent record there
listed one of the cells, their producers not forgotten there since, exactly where none of them has had its
producer forgotten on another branch since. -/
theorem dependentsOf_exact_iff (calls : List IndexCall) (branch : BranchId) (cells : List CellAt) :
    (∀ invocation, invocation ∈ (run calls).dependentsOf branch cells ↔
        ∃ cell ∈ cells, Subscribed calls branch invocation cell) ↔
      ∀ invocation, ∀ cell ∈ cells, Subscribed calls branch invocation cell →
        ¬ ForgottenElsewhere calls branch invocation := by
  simp only [mem_run_dependentsOf]
  constructor
  · intro h invocation cell hin hs
    obtain ⟨_, -, -, hspared⟩ := (h invocation).2 ⟨cell, hin, hs⟩
    exact hspared
  · intro h invocation
    constructor
    · rintro ⟨cell, hin, hs, -⟩
      exact ⟨cell, hin, hs⟩
    · rintro ⟨cell, hin, hs⟩
      exact ⟨cell, hin, hs, h invocation cell hin hs⟩

/-- One invocation recorded on a branch, and its producer forgotten on another. -/
def forgottenOnAFork : List IndexCall :=
  [.record 1 ⟨3, .allocated .object 1 0 7⟩ [⟨.prop "Company" "name" (.allocated .object 1 0 7), 1⟩] [],
    .forgetProducer 2 3]

theorem forgetProducer_crosses_branches :
    ¬ ∀ (calls : List IndexCall) (branch : BranchId) (cells : List CellAt) (invocation : Invocation),
      invocation ∈ (run calls).dependentsOf branch cells ↔
        ∃ cell ∈ cells, Subscribed calls branch invocation cell := by
  intro h
  have hanswer := (h forgottenOnAFork 1 [⟨.prop "Company" "name" (.allocated .object 1 0 7), 1⟩]
    ⟨3, .allocated .object 1 0 7⟩).2
  have hlost : (run forgottenOnAFork).dependentsOf 1
      [⟨.prop "Company" "name" (.allocated .object 1 0 7), 1⟩] = [] := by decide
  rw [hlost] at hanswer
  refine List.not_mem_nil (hanswer ⟨_, List.mem_singleton_self _, _, [.forgetProducer 2 3], rfl,
    List.mem_singleton_self _, ?_⟩)
  rintro home rfl
  decide

end DependencyIndex

end BorgCore
