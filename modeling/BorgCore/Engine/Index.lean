import Mathlib.Data.List.Dedup
import Mathlib.Data.Set.Finite.Basic
import BorgCore.Core.Layer

/-!
# The dependency index

Which invocations depend on a cell, and what a cell was computed from.  Every set of invocations is a
list without repetition.
-/

namespace BorgCore

/-- One unit of producer work: a producer applied to one entity. -/
structure Invocation where
  producer : ProducerId
  input : Pid
deriving DecidableEq

structure DependencyIndex where
  /-- Forward: the invocations that read a cell. -/
  dependents : AssocMap (BranchId × CellAt) (List Invocation)
  /-- Backward: what a cell was computed from. -/
  dependencies : AssocMap (BranchId × CellAt) (List CellAt)
  /-- What each invocation read, so that a re-run can retract its stale forward edges. -/
  readSets : AssocMap (BranchId × Invocation) (List CellAt)

namespace DependencyIndex

def new : DependencyIndex := ⟨∅, ∅, ∅⟩

/-- The forward edges without those an invocation's previous run left. -/
def retract (index : DependencyIndex) (branch : BranchId) (invocation : Invocation) :
    AssocMap (BranchId × CellAt) (List Invocation) :=
  (index.readSets.getD (branch, invocation) []).foldl
    (fun edges cell => edges.adjust (branch, cell) (·.filter (· ≠ invocation))) index.dependents

def record (index : DependencyIndex) (branch : BranchId) (invocation : Invocation)
    (readSet writeSet : List CellAt) : DependencyIndex where
  dependents := readSet.foldl (fun edges cell =>
    edges.insert (branch, cell) ((edges.getD (branch, cell) []).insert invocation))
    (index.retract branch invocation)
  readSets := index.readSets.insert (branch, invocation) readSet
  dependencies := writeSet.foldl (fun lineage cell => lineage.insert (branch, cell) readSet)
    index.dependencies

def dependentsOf (index : DependencyIndex) (branch : BranchId) (cells : List CellAt) : List Invocation :=
  (cells.flatMap fun cell => index.dependents.getD (branch, cell) []).dedup

def forgetProducer (index : DependencyIndex) (branch : BranchId) (producer : ProducerId) :
    DependencyIndex where
  dependents := index.dependents.retain fun (home, _) invocations =>
    let kept := invocations.filter fun invocation => invocation.producer ≠ producer
    if home ≠ branch ∨ kept ≠ [] then some kept else none
  dependencies := index.dependencies
  readSets := index.readSets.retain fun (home, invocation) readSet =>
    if home ≠ branch ∨ invocation.producer ≠ producer then some readSet else none

variable {index : DependencyIndex} {branch : BranchId} {invocation other : Invocation} {key : BranchId × CellAt}

/-- An invocation has an edge from some cell. -/
def Mentions (index : DependencyIndex) (invocation : Invocation) : Prop :=
  ∃ key, invocation ∈ index.dependents.getD key []

theorem mem_subscribed (cells : List CellAt) (edges : AssocMap (BranchId × CellAt) (List Invocation)) :
    other ∈ (cells.foldl (fun edges cell =>
      edges.insert (branch, cell) ((edges.getD (branch, cell) []).insert invocation)) edges).getD key [] ↔
    other = invocation ∧ key.1 = branch ∧ key.2 ∈ cells ∨ other ∈ edges.getD key [] := by
  induction cells generalizing edges with
  | nil => simp
  | cons cell rest ih =>
    rw [List.foldl_cons, ih, AssocMap.getD_insert]
    obtain ⟨home, record⟩ := key
    by_cases he : (home, record) = (branch, cell)
    · rw [if_pos he]
      obtain ⟨rfl, rfl⟩ := Prod.mk.inj he
      rw [List.mem_insert_iff]
      constructor
      · rintro (⟨hi, hb, hc⟩ | hi | hi)
        · exact .inl ⟨hi, hb, List.mem_cons_of_mem _ hc⟩
        · exact .inl ⟨hi, rfl, List.mem_cons_self ..⟩
        · exact .inr hi
      · rintro (⟨hi, -, -⟩ | hi)
        · exact .inr (.inl hi)
        · exact .inr (.inr hi)
    · rw [if_neg he]
      refine or_congr_left ⟨fun ⟨hi, hb, hc⟩ => ⟨hi, hb, List.mem_cons_of_mem _ hc⟩, fun ⟨hi, hb, hc⟩ => ?_⟩
      rcases List.mem_cons.1 hc with hc | hc
      · exact absurd (Prod.ext hb hc) he
      · exact ⟨hi, hb, hc⟩

theorem mem_unsubscribed (cells : List CellAt) (edges : AssocMap (BranchId × CellAt) (List Invocation)) :
    other ∈ (cells.foldl (fun edges cell => edges.adjust (branch, cell) (·.filter (· ≠ invocation)))
      edges).getD key [] ↔
    other ∈ edges.getD key [] ∧ ¬ (other = invocation ∧ key.1 = branch ∧ key.2 ∈ cells) := by
  induction cells generalizing edges with
  | nil => simp
  | cons cell rest ih =>
    have hstep : other ∈ (edges.adjust (branch, cell) (·.filter (· ≠ invocation))).getD key [] ↔
        other ∈ edges.getD key [] ∧ ¬ (other = invocation ∧ key = (branch, cell)) := by
      unfold AssocMap.getD
      rw [AssocMap.lookup_adjust]
      split
      · rename_i he
        rw [he]
        cases edges.lookup (branch, cell) with
        | none => simp
        | some found => simp
      · rename_i he
        simp [he]
    rw [List.foldl_cons, ih, hstep, and_assoc]
    refine and_congr_right fun _ => ⟨fun ⟨hhead, hrest⟩ ⟨hi, hb, hc⟩ => ?_,
      fun h => ⟨fun ⟨hi, he⟩ => ?_, fun ⟨hi, hb, hc⟩ => ?_⟩⟩
    · rcases List.mem_cons.1 hc with hc | hc
      · exact hhead ⟨hi, Prod.ext hb hc⟩
      · exact hrest ⟨hi, hb, hc⟩
    · exact h ⟨hi, congrArg Prod.fst he, by rw [he]; exact List.mem_cons_self ..⟩
    · exact h ⟨hi, hb, List.mem_cons_of_mem _ hc⟩

/-- **What a record leaves**: the edges of the cells just read, and of what an earlier run read no other. -/
theorem mem_record {readSet writeSet : List CellAt} :
    other ∈ (index.record branch invocation readSet writeSet).dependents.getD key [] ↔
    other = invocation ∧ key.1 = branch ∧ key.2 ∈ readSet ∨
      other ∈ index.dependents.getD key [] ∧
        ¬ (other = invocation ∧ key.1 = branch ∧ key.2 ∈ index.readSets.getD (branch, invocation) []) := by
  show other ∈ (List.foldl _ (index.retract branch invocation) readSet).getD key [] ↔ _
  rw [mem_subscribed]
  unfold retract
  rw [mem_unsubscribed]

/-- **What forgetting leaves**: the edges of every other producer, on whatever branch they are. -/
theorem mem_forgetProducer {producer : ProducerId} :
    other ∈ (index.forgetProducer branch producer).dependents.getD key [] ↔
      other ∈ index.dependents.getD key [] ∧ other.producer ≠ producer := by
  unfold forgetProducer AssocMap.getD
  simp only [AssocMap.lookup_retain]
  cases index.dependents.lookup key with
  | none => simp
  | some found =>
    rw [Option.bind_some, Option.getD_some]
    split
    · simp
    · rename_i hgone
      push Not at hgone
      have hout : other ∉ found.filter fun invocation => invocation.producer ≠ producer := by
        rw [hgone.2]
        exact List.not_mem_nil
      rw [List.mem_filter, decide_eq_true_eq] at hout
      simp [hout]

theorem readSets_record {readSet writeSet : List CellAt} {home : BranchId} :
    (index.record branch invocation readSet writeSet).readSets.getD (home, other) [] =
      if (home, other) = (branch, invocation) then readSet else index.readSets.getD (home, other) [] :=
  AssocMap.getD_insert ..

theorem readSets_forgetProducer {producer : ProducerId} {home : BranchId} :
    (index.forgetProducer branch producer).readSets.getD (home, other) [] =
      if home = branch ∧ other.producer = producer then [] else index.readSets.getD (home, other) [] := by
  unfold forgetProducer AssocMap.getD
  simp only [AssocMap.lookup_retain]
  cases index.readSets.lookup (home, other) with
  | none => simp
  | some found =>
    rw [Option.bind_some]
    by_cases hgone : home = branch ∧ other.producer = producer
    · rw [if_pos hgone, if_neg (by tauto)]
      rfl
    · rw [if_neg hgone, if_pos (by tauto)]

theorem Mentions.of_record {readSet writeSet : List CellAt}
    (h : (index.record branch invocation readSet writeSet).Mentions other) :
    other = invocation ∨ index.Mentions other := by
  obtain ⟨key, hin⟩ := h
  rcases mem_record.1 hin with ⟨rfl, -⟩ | ⟨hin, -⟩
  · exact .inl rfl
  · exact .inr ⟨key, hin⟩

theorem mem_dependentsOf {cells : List CellAt} :
    other ∈ index.dependentsOf branch cells ↔
      ∃ cell ∈ cells, other ∈ index.dependents.getD (branch, cell) [] := by
  unfold dependentsOf
  rw [List.mem_dedup, List.mem_flatMap]

theorem finite_mentions (index : DependencyIndex) : {invocation | index.Mentions invocation}.Finite := by
  refine (index.dependents.values.flatten).finite_toSet.subset fun invocation ⟨key, hin⟩ => ?_
  cases hl : index.dependents.lookup key with
  | none =>
    unfold AssocMap.getD at hin
    rw [hl] at hin
    cases hin
  | some found =>
    unfold AssocMap.getD at hin
    rw [hl] at hin
    exact List.mem_flatten.2 ⟨found, AssocMap.mem_values.2 ⟨key, hl⟩, hin⟩

end DependencyIndex

end BorgCore
