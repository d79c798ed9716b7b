import Mathlib.Data.List.Induction
import Mathlib.Data.List.Sort
import BorgCore.Lib.AssocMap

/-!
# Numbered rows

A table whose rows belong to groups and are numbered within their group.  Reading a group out is to sort its
rows by their numbers.  A group that is written a row at a time is numbered from zero without a gap, and
then it is a list: `Holds`.
-/

namespace BorgCore

/-- Rows keyed by a group and a number within it. -/
abbrev Rows (κ α : Type) := AssocMap (κ × Nat) α

namespace Rows

variable {κ α : Type} [DecidableEq κ] {table : Rows κ α} {group other : κ} {rows rows' : List α} {a : α}

/-- The rows of a group, in the order of their numbers. -/
def ofGroup (table : Rows κ α) (group : κ) : List α :=
  ((table.toPairs.filter fun row => row.1.1 = group).insertionSort fun row next =>
    row.1.2 ≤ next.1.2).map Prod.snd

def dropGroup (table : Rows κ α) (group : κ) : Rows κ α :=
  table.retain fun key a => if key.1 = group then none else some a

/-- The rows of a group are numbered from zero without a gap. -/
def Holds (table : Rows κ α) (group : κ) (rows : List α) : Prop :=
  ∀ i, table.lookup (group, i) = rows[i]?

@[simp] theorem holds_empty (group : κ) : Holds (∅ : Rows κ α) group [] := fun i => by simp

omit [DecidableEq κ] in
/-- The row numbers of a group that has been read out are in order. -/
theorem pairwise_lt_zipIdx (rows : List α) (group : κ) :
    (rows.zipIdx.map fun row => ((group, row.2), row.1)).Pairwise fun row next => row.1.2 < next.1.2 := by
  rw [List.pairwise_map]
  have hnumbers : (rows.zipIdx.map Prod.snd).Pairwise (· < ·) := by
    rw [List.zipIdx_map_snd]
    exact List.pairwise_lt_range'
  exact List.pairwise_map.1 hnumbers

theorem eq_of_pairwise_lt {β : Type} (key : β → Nat) {xs ys : List β}
    (hx : xs.Pairwise fun x y => key x < key y) (hy : ys.Pairwise fun x y => key x < key y)
    (h : ∀ x, x ∈ xs ↔ x ∈ ys) : xs = ys := by
  have hirrefl {zs : List β} (hz : zs.Pairwise fun x y => key x < key y) : zs.Nodup := by
    refine hz.imp fun {x y} hlt => ?_
    rintro rfl
    exact Nat.lt_irrefl _ hlt
  refine List.Perm.eq_of_pairwise ?_ hx hy
    ((List.perm_ext_iff_of_nodup (hirrefl hx) (hirrefl hy)).2 h)
  intro x y _ _ hxy hyx
  exact absurd (Nat.lt_trans hxy hyx) (Nat.lt_irrefl _)

/-- The rows of one group carry different numbers. -/
theorem sorted_group (table : Rows κ α) (group : κ) :
    ((table.toPairs.filter fun row => row.1.1 = group).insertionSort fun row next =>
      row.1.2 ≤ next.1.2).Pairwise fun row next => row.1.2 < next.1.2 := by
  have hkeys : table.toPairs.Pairwise fun row next => row.1 ≠ next.1 := by
    unfold AssocMap.toPairs
    exact List.pairwise_map.2 (List.nodupKeys_iff_pairwise.1 table.nodupKeys)
  have hnodup : (table.toPairs.filter fun row => row.1.1 = group).Pairwise fun row next => row.1 ≠ next.1 :=
    hkeys.sublist List.filter_sublist
  have hsorted := List.pairwise_insertionSort (fun row next : (κ × Nat) × α => row.1.2 ≤ next.1.2)
    (table.toPairs.filter fun row => row.1.1 = group)
  have hdistinct := (List.perm_insertionSort (fun row next : (κ × Nat) × α => row.1.2 ≤ next.1.2)
    (table.toPairs.filter fun row => row.1.1 = group)).symm.pairwise hnodup fun h => h.symm
  refine (hsorted.and hdistinct).imp_of_mem fun {row next} hrow hnext hboth => ?_
  have hgroup {found : (κ × Nat) × α} (hin : found ∈ (table.toPairs.filter fun row =>
      row.1.1 = group).insertionSort fun row next => row.1.2 ≤ next.1.2) : found.1.1 = group :=
    of_decide_eq_true (List.mem_filter.1 ((List.mem_insertionSort _).1 hin)).2
  refine lt_of_le_of_ne hboth.1 fun heq => hboth.2 ?_
  exact Prod.ext ((hgroup hrow).trans (hgroup hnext).symm) heq

/-- **A group that is numbered without a gap is read out as the list it holds.** -/
theorem Holds.ofGroup (h : table.Holds group rows) : table.ofGroup group = rows := by
  have heq : ((table.toPairs.filter fun row => row.1.1 = group).insertionSort fun row next =>
      row.1.2 ≤ next.1.2) = rows.zipIdx.map fun row => ((group, row.2), row.1) := by
    refine eq_of_pairwise_lt (fun row => row.1.2) (sorted_group table group)
      (pairwise_lt_zipIdx rows group) fun row => ?_
    rw [List.mem_insertionSort, List.mem_filter, List.mem_map]
    obtain ⟨⟨found, i⟩, a⟩ := row
    rw [AssocMap.mem_toPairs]
    constructor
    · rintro ⟨hl, hg⟩
      obtain rfl : found = group := of_decide_eq_true hg
      exact ⟨(a, i), List.mem_zipIdx_iff_getElem?.2 ((h i).symm.trans hl), rfl⟩
    · rintro ⟨⟨a', i'⟩, hm, he⟩
      cases he
      exact ⟨(h _).trans (List.mem_zipIdx_iff_getElem?.1 hm), decide_eq_true rfl⟩
  unfold Rows.ofGroup
  rw [heq, List.map_map]
  exact List.zipIdx_map_fst 0 rows

/-! ### Writing -/

theorem Holds.insert (h : table.Holds group rows) (a : α) :
    Holds (table.insert (group, rows.length) a) group (rows ++ [a]) := by
  intro i
  rw [AssocMap.lookup_insert_eq]
  by_cases hi : i = rows.length
  · subst hi
    simp
  · rw [if_neg fun he => hi (congrArg Prod.snd he), h i]
    rcases Nat.lt_or_gt_of_ne hi with hlt | hgt
    · rw [List.getElem?_append_left hlt]
    · rw [List.getElem?_eq_none (by omega), List.getElem?_eq_none (by simp; omega)]

theorem Holds.insert_other (h : table.Holds other rows) (hne : other ≠ group) (i : Nat) (a : α) :
    Holds (AList.insert (group, i) a table) other rows := by
  intro j
  rw [AssocMap.lookup_insert_eq, if_neg fun he => hne (congrArg Prod.fst he), h j]

/-- The number of the next row is free. -/
theorem Holds.lookup_length (h : table.Holds group rows) : table.lookup (group, rows.length) = none := by
  rw [h, List.getElem?_eq_none (Nat.le_refl _)]

theorem lookup_dropGroup (table : Rows κ α) (group : κ) (key : κ × Nat) :
    (table.dropGroup group).lookup key = if key.1 = group then none else table.lookup key := by
  unfold dropGroup
  rw [AssocMap.lookup_retain]
  split <;> simp

theorem Holds.mem_iff (h : table.Holds group rows) : a ∈ rows ↔ ∃ i, table.lookup (group, i) = some a := by
  rw [List.mem_iff_getElem?]
  exact exists_congr fun i => by rw [h i]

/-! ### Writing many rows -/

/-- Bindings written one after another: the last one of a key stays. -/
theorem lookup_foldl_insert {β : Type} (rows : List (κ × β)) (m : AssocMap κ β) (a : κ) :
    AList.lookup a (rows.foldl (fun m row => AList.insert row.1 row.2 m) m) =
      ((rows.filter fun row => row.1 = a).getLast?.map Prod.snd).or (m.lookup a) := by
  induction rows using List.reverseRecOn with
  | nil => simp
  | append_singleton rows row ih =>
    rw [List.foldl_append, List.foldl_cons, List.foldl_nil, AssocMap.lookup_insert_eq, ih, List.filter_append]
    by_cases hkey : row.1 = a
    · simp [hkey]
    · rw [if_neg fun he => hkey he.symm]
      simp [hkey]

end Rows

end BorgCore
