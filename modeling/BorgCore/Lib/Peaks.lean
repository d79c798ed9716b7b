import Mathlib.Data.List.MinMax
import BorgCore.Lib.AssocMap

/-!
# The highest number under each key

A map that keeps the highest number it was given for each key.  What it ends up holding does not
depend on the order the numbers came in.
-/

namespace BorgCore

namespace Peaks

variable {κ : Type} [DecidableEq κ]

/-- Move the number of a key up, never down. -/
def raise (peaks : AssocMap κ Nat) (key : κ) (n : Nat) : AssocMap κ Nat :=
  peaks.insert key (max n (peaks.getD key n))

theorem lookup_raise (peaks : AssocMap κ Nat) (key key' : κ) (n : Nat) :
    (raise peaks key n).lookup key' =
      if key' = key then some (max n ((peaks.lookup key).getD n)) else peaks.lookup key' :=
  AssocMap.lookup_insert_eq _ _ _ _

/-- After any number of raises a key holds the highest of what it held and what it was given. -/
theorem lookup_foldl_raise (entries : List (κ × Nat)) (peaks : AssocMap κ Nat) (key : κ) :
    (entries.foldl (fun peaks entry => raise peaks entry.1 entry.2) peaks).lookup key =
      ((peaks.lookup key).toList ++ (entries.filter (·.1 = key)).map Prod.snd).max? := by
  induction entries generalizing peaks with
  | nil => cases hp : peaks.lookup key <;> simp [hp]
  | cons entry rest ih =>
    rw [List.foldl_cons, ih, lookup_raise]
    by_cases hk : key = entry.1
    · subst hk
      cases hp : peaks.lookup entry.1 with
      | none => simp [List.max?_cons]
      | some n =>
        have hmax (found : Option Nat) : found.elim (max entry.2 n) (max (max entry.2 n)) =
            max (found.elim entry.2 (max entry.2)) n := by
          cases found with
          | none => rfl
          | some m => simp only [Option.elim_some]; omega
        simp [List.max?_cons, Nat.max_comm n, hmax]
    · simp [hk, Ne.symm hk]

/-- From nothing, a key holds the highest number it was given. -/
theorem lookup_raised_iff {entries : List (κ × Nat)} {key : κ} {top : Nat} :
    (entries.foldl (fun peaks entry => raise peaks entry.1 entry.2) ∅).lookup key = some top ↔
      (key, top) ∈ entries ∧ ∀ n, (key, n) ∈ entries → n ≤ top := by
  have hmem : ∀ n, n ∈ (entries.filter (·.1 = key)).map Prod.snd ↔ (key, n) ∈ entries := by
    intro n
    simp only [List.mem_map, List.mem_filter, decide_eq_true_eq]
    constructor
    · rintro ⟨entry, ⟨hm, rfl⟩, rfl⟩
      exact hm
    · intro hm
      exact ⟨(key, n), ⟨hm, rfl⟩, rfl⟩
  rw [lookup_foldl_raise, AssocMap.lookup_empty, Option.toList_none, List.nil_append,
    List.max?_eq_some_iff]
  simp only [hmem]

end Peaks

end BorgCore
