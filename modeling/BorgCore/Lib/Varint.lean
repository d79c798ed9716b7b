import Mathlib.Data.List.Basic
import Mathlib.Tactic.Ring

/-!
# Variable-length numbers

A number in groups of seven bits, lowest first, a byte each; every byte but the last has its top bit set.
A number has many spellings, of which one is without a last group of zeros that another precedes.
-/

namespace BorgCore

namespace Varint

/-- A byte that another of the same number follows. -/
def Continues (byte : UInt8) : Prop := 128 ≤ byte.toNat

instance : DecidablePred Continues := fun byte => inferInstanceAs (Decidable (128 ≤ byte.toNat))

inductive Spells : List UInt8 → Nat → Prop
  | last {byte : UInt8} : ¬ Continues byte → Spells [byte] byte.toNat
  | more {byte : UInt8} {rest : List UInt8} {n : Nat} : Continues byte → Spells rest n →
      Spells (byte :: rest) (byte.toNat % 128 + 128 * n)

/-- No byte that continues a number is followed by a zero. -/
def Trim (bytes : List UInt8) : Prop := bytes.IsChain fun byte next => Continues byte → next ≠ 0

variable {byte : UInt8} {rest rest' xs ys : List UInt8} {n m : Nat}

theorem Spells.ne_nil (h : Spells xs n) : xs ≠ [] := by
  cases h <;> exact List.cons_ne_nil _ _

/-- Whether a text is trim is a matter of each number in it. -/
theorem Spells.trim_append (h : Spells xs n) : Trim (xs ++ rest) ↔ Trim xs ∧ Trim rest := by
  induction h with
  | last hlast => 
    cases rest with
    | nil => simp [Trim]
    | cons next rest => simp [Trim, hlast]
  | @more byte xs n hmore hxs ih =>
    cases xs with
    | nil => exact absurd rfl hxs.ne_nil
    | cons next xs =>
      unfold Trim at ih ⊢
      simp only [List.cons_append, List.isChain_cons_cons] at ih ⊢
      rw [ih, and_assoc]

theorem trim_cons_head (h : Spells xs n) (hc : Continues byte) :
    Trim (byte :: xs) ↔ xs.head h.ne_nil ≠ 0 ∧ Trim xs := by
  cases xs with
  | nil => exact absurd rfl h.ne_nil
  | cons next xs => simp [Trim, hc]

theorem Spells.head_ne_zero (h : Spells xs n) (hn : n ≠ 0) : xs.head h.ne_nil ≠ 0 := by
  cases h with
  | last _ =>
    rintro rfl
    exact hn rfl
  | more hc _ =>
    rintro rfl
    exact absurd hc (by decide)

theorem Spells.eq_zero (h : Spells xs n) (ht : Trim xs) (hn : n = 0) : xs = [0] := by
  induction h with
  | @last byte _ =>
    have hz : byte = 0 := UInt8.toNat_inj.1 hn
    rw [hz]
  | more hc hrest ih =>
    obtain ⟨hhead, htail⟩ := (trim_cons_head hrest hc).1 ht
    obtain rfl := ih htail (by omega)
    exact absurd rfl hhead

theorem trim_cons (h : Spells xs n) (hc : Continues byte) : Trim (byte :: xs) ↔ n ≠ 0 ∧ Trim xs := by
  rw [trim_cons_head h hc]
  constructor
  · rintro ⟨hhead, ht⟩
    refine ⟨fun hn => hhead ?_, ht⟩
    simp [h.eq_zero ht hn]
  · rintro ⟨hn, ht⟩
    exact ⟨h.head_ne_zero hn, ht⟩

/-- **A number has one trim spelling.** -/
theorem Spells.trim_unique (h : Spells xs n) (h' : Spells ys m) (hnm : n = m) (ht : Trim xs)
    (ht' : Trim ys) : xs = ys := by
  induction h generalizing ys m with
  | @last byte hlast =>
    rw [Continues] at hlast
    cases h' with
    | @last byte' hlast' => rw [UInt8.toNat_inj.1 hnm]
    | more hc hrest =>
      have hzero := ((trim_cons hrest hc).1 ht').1
      omega
  | @more byte xs n hc hrest ih =>
    obtain ⟨hzero, htail⟩ := (trim_cons hrest hc).1 ht
    cases h' with
    | last hlast =>
      rw [Continues] at hlast
      omega
    | @more byte' ys m hc' hrest' =>
      obtain ⟨-, htail'⟩ := (trim_cons hrest' hc').1 ht'
      have hbyte : byte = byte' := by
        refine UInt8.toNat_inj.1 ?_
        have := byte.toNat_lt
        have := byte'.toNat_lt
        rw [Continues] at hc hc'
        omega
      rw [hbyte, ih hrest' (by omega) htail htail']

end Varint

end BorgCore
