import Mathlib.Data.List.TakeWhile
import BorgCore.Engine.Lineage
import BorgCore.Engine.Resolve

/-!
# What a read answers

A read at the branch's own ClientVersion asks for each field at the def-version in force there.
A source record answers for itself, whatever was asked for; where there is no record at that version
there is no value, and at most the promise of one.
-/

namespace BorgCore

/-- The value a stored record shows: a tombstone is a removal. -/
def Value.shown (value : Value) : Option Value := if value.isTombstone then none else some value

/-- The state of a source record. -/
def Value.freshness (value : Value) : Freshness :=
  if value.isTombstone then .tombstoned else .current

namespace Log

variable {log : Log} {branch : BranchId} {cell : CellRef} {version : ClientVersion}
  {defVersion : DefVersion} {requirement : FreshnessRequirement} {recorded : List Poisoning}
  {computeNow : BranchId → CellRef → DefVersion → LogM Unit} {view : DefView}

/-! ### The version read at -/

/-- At its own head, a path is read at the definitions in force. -/
theorem Sound.viewAt_defHead (h : log.Sound) (branch : BranchId) :
    log.viewAt (log.readPath branch none) (log.defHead (log.readPath branch none)) =
      log.view (log.readPath branch none) := by
  have hsorted : (log.defLayersAlong (log.readPath branch none)).Pairwise (· < ·) :=
    h.defLayersAlong_sorted h.segmentsFrom_nodup
  unfold viewAt Log.view defHead
  rw [List.takeWhile_eq_self_iff.2]
  intro id hid
  obtain ⟨init, last, hl⟩ := List.eq_nil_or_concat _ |>.resolve_left (List.ne_nil_of_mem hid)
  rw [hl, List.concat_eq_append] at hid hsorted ⊢
  rw [List.getLast?_append_of_ne_nil _ (List.cons_ne_nil _ _)]
  rcases List.mem_append.1 hid with hid | hid
  · exact decide_eq_true (Nat.le_of_lt ((List.pairwise_append.1 hsorted).2.2 id hid last (by simp)))
  · rw [List.mem_singleton.1 hid]
    exact decide_eq_true (Nat.le_refl _)

theorem Sound.versionFor_defHead (h : log.Sound)
    (hv : log.view (log.readPath branch none) = .ok view) (cell : CellRef) :
    log.versionFor branch cell none (log.defHead (log.readPath branch none)) =
      .ok (view.versionOf cell) := by
  unfold versionFor
  rw [h.viewAt_defHead, hv]
  rfl

/-! ### The answer -/

/-- A source record answers for itself, and is settled wherever it is read. -/
theorem resolve_source (hv : log.versionFor branch cell none version = .ok defVersion) {found : Landed}
    (hg : log.storage.getCell (log.readPath branch none) cell defVersion = .ok (some found))
    (hs : found.event.derivation = none) :
    ∃ resolved, resolve computeNow recorded branch cell none version requirement log =
        .ok resolved log ∧
      resolved.value = found.event.value.shown ∧ resolved.state = found.event.value.freshness := by
  have hsettled : log.settledHere branch cell defVersion none = .ok true := by
    simp only [settledHere, hg, bind, Except.bind, hs]
    rfl
  have hanswer : ∃ resolved, log.answer recorded branch cell none defVersion requirement =
      .ok resolved ∧ resolved.value = found.event.value.shown ∧
        resolved.state = found.event.value.freshness := by
    simp only [answer, hg, bind, Except.bind, hs]
    exact ⟨_, rfl, rfl, rfl⟩
  obtain ⟨resolved, hanswer, hvalue⟩ := hanswer
  have hask : ask (fun log => log.versionFor branch cell none version) log = .ok defVersion log := by
    simp only [ask, hv]
  have hask' : ask (fun log => log.answer recorded branch cell none defVersion requirement) log =
      .ok resolved log := by
    simp only [ask, hanswer]
  have hask'' : ask (fun log => log.settledHere branch cell defVersion none) log = .ok true log := by
    simp only [ask, hsettled]
  refine ⟨resolved, ?_, hvalue⟩
  rw [resolve, Calls.bind_ok hask, Calls.bind_ok Calls.get_run]
  by_cases hc : requirement = .current ∧ log.canComputeAt branch none = true
  · rw [if_pos hc, Calls.bind_ok hask'', if_neg (by simp)]
    exact hask'
  · rw [if_neg hc]
    exact hask'

theorem resolve_missing (hv : log.versionFor branch cell none version = .ok defVersion)
    (hview : log.view (log.readPath branch none) = .ok view)
    (hg : log.storage.getCell (log.readPath branch none) cell defVersion = .ok none)
    (hr : requirement ≠ .current) :
    ∃ resolved, resolve computeNow recorded branch cell none version requirement log =
        .ok resolved log ∧ resolved.value = none ∧ resolved.state ≠ .tombstoned := by
  have hanswer : ∃ resolved, log.answer recorded branch cell none defVersion requirement =
      .ok resolved ∧ resolved.value = none ∧ resolved.state ≠ .tombstoned := by
    simp only [answer, hg, bind, Except.bind, resolveUnmaterialized, hview]
    refine ⟨_, rfl, rfl, ?_⟩
    split_ifs <;> nofun
  obtain ⟨resolved, hanswer, hvalue⟩ := hanswer
  have hask : ask (fun log => log.versionFor branch cell none version) log = .ok defVersion log := by
    simp only [ask, hv]
  refine ⟨resolved, ?_, hvalue⟩
  rw [resolve, Calls.bind_ok hask, Calls.bind_ok Calls.get_run, if_neg fun hc => hr hc.1]
  change ask _ log = _
  simp only [ask, hanswer]

end Log

end BorgCore
