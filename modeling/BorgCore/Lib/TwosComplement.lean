import Mathlib.Algebra.Order.Ring.Int
import Mathlib.Tactic.Linarith
import BorgCore.Lib.Positional

/-!
# Two's complement

Digits that fill a word of their own length stand for a number between minus one half and one half of what
the word can hold.  A first digit that only repeats the sign can be dropped, and digits without such a one
are the fewest for their number.
-/

namespace BorgCore

namespace Positional

variable {b half d e : Nat} {xs ys : List Nat}

/-- The number that digits stand for in two's complement, most significant digit first. -/
def signed (b : Nat) (xs : List Nat) : Int :=
  if 2 * value b xs < b ^ xs.length then value b xs else value b xs - (b ^ xs.length : Nat)

@[simp] theorem signed_nil : signed b [] = 0 := by simp [signed]

theorem signed_range (h : ∀ x ∈ xs, x < b) :
    -(b ^ xs.length : Nat) ≤ 2 * signed b xs ∧ 2 * signed b xs < (b ^ xs.length : Nat) := by
  have hlt := value_lt h
  unfold signed
  split <;> omega

theorem signed_injective (hxs : ∀ x ∈ xs, x < b) (hys : ∀ y ∈ ys, y < b)
    (hlength : xs.length = ys.length) (h : signed b xs = signed b ys) : xs = ys := by
  refine value_injective hxs hys hlength ?_
  have hlt := value_lt hxs
  have hlt' := value_lt hys
  unfold signed at h
  rw [← hlength] at h hlt'
  split at h <;> split at h <;> omega

/-! ### The sign -/

theorem half_le_iff (h : ∀ x ∈ d :: xs, x < 2 * half) :
    half ≤ d ↔ (2 * half) ^ (d :: xs).length ≤ 2 * value (2 * half) (d :: xs) := by
  have hrest := value_lt fun x hx => h x (List.mem_cons_of_mem _ hx)
  rw [value_cons, List.length_cons, pow_succ]
  generalize (2 * half) ^ xs.length = room at hrest ⊢
  generalize value (2 * half) xs = low at hrest ⊢
  constructor
  · intro hd
    have hmul : half * room ≤ d * room := Nat.mul_le_mul_right room hd
    nlinarith
  · intro hle
    by_contra hd
    have hmul : (d + 1) * room ≤ half * room := Nat.mul_le_mul_right room (not_le.1 hd)
    nlinarith

theorem signed_of_half_le (h : ∀ x ∈ d :: xs, x < 2 * half) (hd : half ≤ d) :
    signed (2 * half) (d :: xs) =
      value (2 * half) (d :: xs) - ((2 * half) ^ (d :: xs).length : Nat) :=
  if_neg (not_lt.2 ((half_le_iff h).1 hd))

theorem signed_of_lt_half (h : ∀ x ∈ d :: xs, x < 2 * half) (hd : d < half) :
    signed (2 * half) (d :: xs) = value (2 * half) (d :: xs) :=
  if_pos (not_le.1 fun hle => not_le.2 hd ((half_le_iff h).2 hle))

theorem signed_cons_max (h : ∀ x ∈ d :: xs, x < 2 * half) (hd : half ≤ d) :
    signed (2 * half) ((2 * half - 1) :: d :: xs) = signed (2 * half) (d :: xs) := by
  have hpos : 0 < 2 * half := lt_of_le_of_lt (Nat.zero_le _) (h d List.mem_cons_self)
  have hall : ∀ x ∈ (2 * half - 1) :: d :: xs, x < 2 * half :=
    List.forall_mem_cons.2 ⟨Nat.sub_lt hpos Nat.one_pos, h⟩
  have hbig : half ≤ 2 * half - 1 := by omega
  obtain ⟨top, htop⟩ := Nat.exists_eq_add_of_le' hpos
  rw [signed_of_half_le hall hbig, signed_of_half_le h hd, value_cons, htop, Nat.add_sub_cancel]
  generalize value (top + 1) (d :: xs) = low
  simp only [List.length_cons, pow_succ]
  push_cast
  ring

/-! ### The fewest digits -/

/-- No first digit only repeats the sign. -/
def Short (half : Nat) : List Nat → Prop
  | [] => True
  | [d] => d ≠ 0
  | d :: e :: _ => ¬ (d = 0 ∧ e < half) ∧ ¬ (d = 2 * half - 1 ∧ half ≤ e)

/-- The digits after a first one that could repeat the sign are of the other sign. -/
theorem Short.rest (hs : Short half (d :: xs)) (h : ∀ x ∈ d :: xs, x < 2 * half) :
    (d = 0 → (2 * half) ^ xs.length ≤ 2 * value (2 * half) xs) ∧
      (d = 2 * half - 1 → 2 * value (2 * half) xs < (2 * half) ^ xs.length) := by
  cases xs with
  | nil => exact ⟨fun hd => absurd hd hs, fun _ => by simp⟩
  | cons e xs =>
    have hiff := half_le_iff fun x hx => h x (List.mem_cons_of_mem _ hx)
    obtain ⟨hzero, hmax⟩ := hs
    refine ⟨fun hd => hiff.1 (not_lt.1 fun he => hzero ⟨hd, he⟩), fun hd => ?_⟩
    exact not_le.1 fun hle => hmax ⟨hd, hiff.2 hle⟩

/-- Short digits stand for a number that fewer digits have no room for. -/
theorem Short.out_of_range (hs : Short half (d :: xs)) (h : ∀ x ∈ d :: xs, x < 2 * half) :
    ((2 * half) ^ xs.length : Nat) ≤ 2 * signed (2 * half) (d :: xs) ∨
      2 * signed (2 * half) (d :: xs) < -((2 * half) ^ xs.length : Nat) := by
  obtain ⟨hzero, hmax⟩ := hs.rest h
  have hd := h d List.mem_cons_self
  have hlow := value_lt fun x hx => h x (List.mem_cons_of_mem _ hx)
  rcases Nat.lt_or_ge d half with hlt | hge
  · left
    rw [signed_of_lt_half h hlt, value_cons]
    generalize (2 * half) ^ xs.length = room at hzero hlow ⊢
    generalize value (2 * half) xs = low at hzero hlow ⊢
    by_cases hd0 : d = 0
    · have := hzero hd0
      subst hd0
      omega
    · have hmul : room ≤ d * room := Nat.le_mul_of_pos_left room (Nat.pos_of_ne_zero hd0)
      omega
  · right
    rw [signed_of_half_le h hge, value_cons, List.length_cons, pow_succ]
    generalize (2 * half) ^ xs.length = room at hmax hlow ⊢
    generalize value (2 * half) xs = low at hmax hlow ⊢
    by_cases hdmax : d = 2 * half - 1
    · have := hmax hdmax
      have hmul : d * room + room = room * (2 * half) := by
        rw [← Nat.succ_mul, Nat.mul_comm]
        congr 1
        omega
      omega
    · have hmul : (d + 2) * room ≤ 2 * half * room := Nat.mul_le_mul_right room (by omega)
      rw [Nat.add_mul, Nat.mul_comm (2 * half)] at hmul
      omega

/-- **The fewest digits.** -/
theorem Short.length_le (hs : Short half xs) (hxs : ∀ x ∈ xs, x < 2 * half)
    (hys : ∀ y ∈ ys, y < 2 * half) (h : signed (2 * half) ys = signed (2 * half) xs) :
    xs.length ≤ ys.length := by
  cases xs with
  | nil => exact Nat.zero_le _
  | cons d xs =>
    by_contra hshort
    have hpos : 0 < 2 * half := lt_of_le_of_lt (Nat.zero_le _) (hxs d List.mem_cons_self)
    have hroom : (2 * half) ^ ys.length ≤ (2 * half) ^ xs.length :=
      Nat.pow_le_pow_right hpos (Nat.lt_succ_iff.1 (not_le.1 hshort))
    obtain ⟨hlow, hhigh⟩ := signed_range hys
    rw [h] at hlow hhigh
    have hout := hs.out_of_range hxs
    omega

end Positional

end BorgCore
