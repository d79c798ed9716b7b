import BorgCore.Core.BigIntCodec

/-!
# Machine integers as text

What the standard parsers of 64-bit integers take: a sign they know, and then nothing but digits of a number
that fits.  What is printed has no sign but a minus.
-/

namespace BorgCore

namespace Number

open Positional

variable {text digits : List Char} {n : Nat}

/-- The number some decimal digits stand for; there has to be one. -/
def digitsOf (text : List Char) : Option Nat :=
  if text.isEmpty || !text.all Char.isDigit then none
  else some (value 10 (text.map fun c => c.toNat - '0'.toNat))

/-- An unsigned number takes a plus sign and no other. -/
def unsigned : List Char → Option Nat
  | '+' :: rest => digitsOf rest
  | text => digitsOf text

def parseU64 (text : List Char) : Option Nat := (unsigned text).filter (· < 2 ^ 64)

def parseU16 (text : List Char) : Option Nat := (unsigned text).filter (· < 2 ^ 16)

def parseI64 : List Char → Option Int64
  | '-' :: rest => ((digitsOf rest).filter (· ≤ 2 ^ 63)).map fun n : Nat => Int64.ofInt (-n)
  | '+' :: rest => ((digitsOf rest).filter (· < 2 ^ 63)).map fun n : Nat => Int64.ofInt n
  | text => ((digitsOf text).filter (· < 2 ^ 63)).map fun n : Nat => Int64.ofInt n

theorem digitsOf_eq_some :
    digitsOf text = some n ↔ text ≠ [] ∧ (∀ c ∈ text, c.isDigit) ∧
      value 10 (text.map fun c => c.toNat - '0'.toNat) = n := by
  rw [digitsOf]
  split
  · rename_i h
    rw [Bool.or_eq_true, List.isEmpty_iff, Bool.not_eq_true', List.all_eq_false] at h
    constructor
    · intro hnone
      cases hnone
    · rintro ⟨hne, hall, -⟩
      obtain heq | ⟨c, hc, hnot⟩ := h
      · exact absurd heq hne
      · exact absurd (hall c hc) hnot
  · rename_i h
    rw [Bool.or_eq_true, not_or, List.isEmpty_iff, Bool.not_eq_true', Bool.not_eq_false,
      List.all_eq_true] at h
    rw [Option.some.injEq]
    exact ⟨fun heq => ⟨h.1, h.2, heq⟩, fun heq => heq.2.2⟩

theorem digitsOf_toDigits (n : Nat) : digitsOf (Nat.toDigits 10 n) = some n :=
  digitsOf_eq_some.2 ⟨Nat.toDigits_ne_nil,
    fun _ hc => Nat.isDigit_of_mem_toDigits (by decide) (by decide) hc, BigInt.value_toDigits n⟩

theorem ne_sign (h : digitsOf text = some n) {sign : Char} (hsign : sign.isDigit = false) (rest : List Char) :
    text ≠ sign :: rest := by
  rintro rfl
  rw [(digitsOf_eq_some.1 h).2.1 sign List.mem_cons_self] at hsign
  cases hsign

theorem unsigned_of_digits (h : digitsOf text = some n) : unsigned text = some n := by
  unfold unsigned
  split
  · exact absurd rfl (ne_sign h (by decide) _)
  · exact h

theorem unsigned_chars (h : unsigned text = some n) : ∀ c ∈ text, c.isDigit = true ∨ c = '+' := by
  unfold unsigned at h
  split at h
  · obtain ⟨-, hdigits, -⟩ := digitsOf_eq_some.1 h
    exact List.forall_mem_cons.2 ⟨Or.inr rfl, fun c hc => Or.inl (hdigits c hc)⟩
  · obtain ⟨-, hdigits, -⟩ := digitsOf_eq_some.1 h
    exact fun c hc => Or.inl (hdigits c hc)

theorem parseU64_lt (h : parseU64 text = some n) : n < 2 ^ 64 :=
  of_decide_eq_true (Option.filter_eq_some_iff.1 h).2

theorem parseU64_toDigits (hn : n < 2 ^ 64) : parseU64 (Nat.toDigits 10 n) = some n := by
  rw [parseU64, unsigned_of_digits (digitsOf_toDigits n), Option.filter_some, if_pos (decide_eq_true hn)]

theorem parseI64_of_digits (h : digitsOf text = some n) (hn : n < 2 ^ 63) :
    parseI64 text = some (Int64.ofInt n) := by
  unfold parseI64
  split
  · exact absurd rfl (ne_sign h (by decide) _)
  · exact absurd rfl (ne_sign h (by decide) _)
  · rw [h, Option.filter_some, if_pos (decide_eq_true hn), Option.map_some]

/-- **A printed 64-bit integer is read back.** -/
theorem parseI64_toString (n : Int64) : parseI64 (toString n.toInt).toList = some n := by
  have hle := Int64.le_toInt n
  have hlt := Int64.toInt_lt n
  obtain ⟨number, hpos | hneg⟩ := n.toInt.eq_nat_or_neg
  · rw [hpos, BigInt.toString_natCast, String.toList_ofList,
      parseI64_of_digits (digitsOf_toDigits number) (by omega), ← hpos, Int64.ofInt_toInt]
  · by_cases hzero : number = 0
    · subst hzero
      rw [hneg, ← Int64.ofInt_toInt n, hneg]
      rfl
    · rw [hneg, BigInt.toString_neg hzero, String.toList_ofList]
      change ((digitsOf (Nat.toDigits 10 number)).filter (· ≤ 2 ^ 63)).map _ = _
      rw [digitsOf_toDigits, Option.filter_some, if_pos (decide_eq_true (by omega)), Option.map_some,
        ← hneg, Int64.ofInt_toInt]

end Number

end BorgCore
