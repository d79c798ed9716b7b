import Mathlib.Data.List.Basic
import Mathlib.Data.List.Induction
import Mathlib.Data.Nat.ModEq
import Mathlib.Tactic.Ring

/-!
# Digits, most significant first

The number some digits stand for, and what happens when the same bits are cut into digits of another
width.  A `Regroup` is the state of a loop that takes digits of one width and gives digits of the other,
holding the bits that are left over; `Padded` is what it arrives at when the bits left over are zero.
-/

namespace BorgCore

namespace Positional

variable {b : Nat} {xs ys : List Nat} {d : Nat}

/-- The number that digits stand for in base `b`, most significant digit first. -/
def value (b : Nat) (xs : List Nat) : Nat := xs.foldl (fun v d => v * b + d) 0

@[simp] theorem value_nil : value b [] = 0 := rfl

theorem value_concat : value b (xs ++ [d]) = value b xs * b + d := by simp [value]

theorem value_append : value b (xs ++ ys) = value b xs * b ^ ys.length + value b ys := by
  induction ys using List.reverseRecOn with
  | nil => simp
  | append_singleton ys d ih =>
    rw [← List.append_assoc, value_concat, ih, value_concat, List.length_append, List.length_singleton,
      pow_succ]
    ring

@[simp] theorem value_singleton : value b [d] = d := by simp [value]

theorem value_cons : value b (d :: xs) = d * b ^ xs.length + value b xs := by
  rw [← List.singleton_append, value_append, value_singleton]

theorem value_lt (h : ∀ x ∈ xs, x < b) : value b xs < b ^ xs.length := by
  induction xs using List.reverseRecOn with
  | nil => simp
  | append_singleton xs d ih =>
    have hd : d < b := h d (by simp)
    have hfirst : value b xs + 1 ≤ b ^ xs.length := ih fun x hx => h x (List.mem_append_left _ hx)
    rw [value_concat, List.length_append, List.length_singleton, pow_succ]
    have hstep : (value b xs + 1) * b ≤ b ^ xs.length * b := Nat.mul_le_mul_right b hfirst
    rw [Nat.succ_mul] at hstep
    omega

theorem value_injective (hxs : ∀ x ∈ xs, x < b) (hys : ∀ y ∈ ys, y < b)
    (hlength : xs.length = ys.length) (h : value b xs = value b ys) : xs = ys := by
  induction xs generalizing ys with
  | nil => exact (List.length_eq_zero_iff.1 hlength.symm).symm
  | cons x xs ih =>
    cases ys with
    | nil => cases hlength
    | cons y ys =>
      obtain hlength : xs.length = ys.length := Nat.succ.inj hlength
      have hxs' : ∀ z ∈ xs, z < b := fun z hz => hxs z (List.mem_cons_of_mem _ hz)
      have hys' : ∀ z ∈ ys, z < b := fun z hz => hys z (List.mem_cons_of_mem _ hz)
      rw [value_cons, value_cons, ← hlength] at h
      have hlow : value b xs < b ^ xs.length := value_lt hxs'
      have hlow' : value b ys < b ^ xs.length := hlength ▸ value_lt hys'
      have hpos : 0 < b ^ xs.length := lt_of_le_of_lt (Nat.zero_le _) hlow
      -- The first digit is the quotient by what the others can hold.
      have hquot (d v : Nat) (hv : v < b ^ xs.length) : (d * b ^ xs.length + v) / b ^ xs.length = d := by
        rw [Nat.mul_comm, Nat.mul_add_div hpos, Nat.div_eq_of_lt hv, Nat.add_zero]
      have hfirst : x = y := by rw [← hquot x _ hlow, h, hquot y _ hlow']
      rw [hfirst] at h ⊢
      rw [ih hxs' hys' hlength (Nat.add_left_cancel h)]

/-! ### Bytes as digits -/

section Bytes

variable {bytes bytes' : List UInt8} {byte : UInt8}

theorem toNat_lt_of_mem : ∀ d ∈ bytes.map UInt8.toNat, d < 256 := by
  intro d hd
  obtain ⟨byte, -, rfl⟩ := List.mem_map.1 hd
  exact byte.toNat_lt

theorem map_toNat_injective (h : bytes.map UInt8.toNat = bytes'.map UInt8.toNat) : bytes = bytes' :=
  List.map_injective_iff.2 (fun _ _ he => UInt8.toNat_inj.1 he) h

/-- The top bit of a byte tells whether it is in the upper half. -/
theorem top_bit_iff : byte &&& 0x80 = 0 ↔ byte.toNat < 128 := by
  have hall : ∀ n < 256, n.toUInt8 &&& 0x80 = 0 ↔ n < 128 := by decide +kernel
  have hbyte := hall byte.toNat byte.toNat_lt
  rwa [Nat.toUInt8_eq, UInt8.ofNat_toNat] at hbyte

end Bytes

/-! ### Cutting the same bits another way -/

section Regroup

variable {w w' acc acc' bits pad : Nat} {taken given : List Nat}

/-- Digits of `w` bits were taken and digits of `w'` bits were given for them; the low `bits` bits of `acc`
are left over. -/
structure Regroup (w w' : Nat) (taken given : List Nat) (acc bits : Nat) : Prop where
  length : w * taken.length = w' * given.length + bits
  value : value (2 ^ w) taken = value (2 ^ w') given * 2 ^ bits + acc % 2 ^ bits

/-- The digits given are the digits taken and `pad` zero bits. -/
structure Padded (w w' : Nat) (taken given : List Nat) (pad : Nat) : Prop where
  length : w' * given.length = w * taken.length + pad
  value : value (2 ^ w') given = value (2 ^ w) taken * 2 ^ pad

theorem Regroup.nil : Regroup w w' [] [] acc 0 := ⟨by simp, by simp [Nat.mod_one]⟩

theorem Regroup.congr (h : Regroup w w' taken given acc bits) (heq : acc' % 2 ^ bits = acc % 2 ^ bits) :
    Regroup w w' taken given acc' bits := ⟨h.length, by rw [heq, h.value]⟩

theorem Regroup.take (h : Regroup w w' taken given acc bits) (hd : d < 2 ^ w) :
    Regroup w w' (taken ++ [d]) given (acc * 2 ^ w + d) (bits + w) where
  length := by
    rw [List.length_append, List.length_singleton, Nat.mul_add, h.length]
    ring
  value := by
    have hmod : (acc * 2 ^ w + d) % 2 ^ (bits + w) = acc % 2 ^ bits * 2 ^ w + d := by
      have hlow : (acc * 2 ^ w + d) % 2 ^ w = d := by
        rw [Nat.mul_comm, Nat.mul_add_mod, Nat.mod_eq_of_lt hd]
      have hhigh : (acc * 2 ^ w + d) / 2 ^ w = acc := by
        rw [Nat.mul_comm, Nat.mul_add_div (Nat.two_pow_pos w), Nat.div_eq_of_lt hd, Nat.add_zero]
      rw [pow_add, Nat.mul_comm (2 ^ bits), Nat.mod_mul, hlow, hhigh]
      ring
    rw [value_concat, h.value, hmod, pow_add]
    ring

theorem Regroup.give (h : Regroup w w' taken given acc (bits + w')) :
    Regroup w w' taken (given ++ [acc / 2 ^ bits % 2 ^ w']) acc bits where
  length := by
    rw [List.length_append, List.length_singleton, h.length]
    ring
  value := by
    have hmod : acc % 2 ^ (bits + w') = acc % 2 ^ bits + 2 ^ bits * (acc / 2 ^ bits % 2 ^ w') := by
      rw [pow_add, Nat.mod_mul]
    rw [value_concat, h.value, hmod, pow_add]
    ring

/-- Bits left over are filled up to a last digit. -/
theorem Regroup.fill (h : Regroup w w' taken given acc bits) (hbits : bits ≤ w') :
    Padded w w' taken (given ++ [acc * 2 ^ (w' - bits) % 2 ^ w']) (w' - bits) where
  length := by
    rw [List.length_append, List.length_singleton, Nat.mul_add, h.length]
    omega
  value := by
    have hsplit : 2 ^ w' = 2 ^ bits * 2 ^ (w' - bits) := by
      rw [← pow_add, Nat.add_sub_cancel' hbits]
    rw [value_concat, h.value, hsplit, Nat.mul_mod_mul_right]
    ring

/-- Bits left over that are zero are padding of what was taken. -/
theorem Regroup.padded (h : Regroup w w' taken given acc bits) :
    Padded w' w given taken bits ↔ acc % 2 ^ bits = 0 := by
  constructor
  · intro hp
    have := hp.value
    rw [h.value] at this
    exact Nat.add_eq_left.1 this
  · intro hz
    exact ⟨h.length, by rw [h.value, hz, Nat.add_zero]⟩

theorem quotient_unique {w m n p q : Nat} (hp : p < w) (hq : q < w) (h : w * m + p = w * n + q) :
    m = n ∧ p = q := by
  have hpos : 0 < w := lt_of_le_of_lt (Nat.zero_le _) hp
  have hmn : m = n := by
    have hquot := congrArg (· / w) h
    simpa only [Nat.mul_add_div hpos, Nat.div_eq_of_lt hp, Nat.div_eq_of_lt hq, Nat.add_zero] using hquot
  subst hmn
  exact ⟨rfl, Nat.add_left_cancel h⟩

/-- Where the digits taken are some whole digits and padding, the bits left over are the padding. -/
theorem Regroup.zero_of_padded {whole : List Nat} (h : Regroup w w' taken given acc bits)
    (hp : Padded w' w whole taken pad) (hbits : bits < w') (hpad : pad < w') : acc % 2 ^ bits = 0 := by
  obtain ⟨-, rfl⟩ := quotient_unique hbits hpad (h.length.symm.trans hp.length)
  have hpos := Nat.two_pow_pos bits
  have hvalue : 2 ^ bits * Positional.value (2 ^ w') given + acc % 2 ^ bits =
      2 ^ bits * Positional.value (2 ^ w') whole + 0 := by
    rw [Nat.mul_comm, ← h.value, hp.value, Nat.add_zero, Nat.mul_comm]
  exact (quotient_unique (Nat.mod_lt acc hpos) hpos hvalue).2

variable {taken' given' : List Nat} {pad' : Nat}

/-- With less than a digit of padding, what was taken fixes what is given. -/
theorem Padded.given_eq (h : Padded w w' taken given pad) (h' : Padded w w' taken given' pad')
    (hp : pad < w') (hp' : pad' < w') (hg : ∀ x ∈ given, x < 2 ^ w') (hg' : ∀ x ∈ given', x < 2 ^ w') :
    given = given' := by
  have hlengths : w' * given.length + pad' = w' * given'.length + pad := by
    rw [h.length, h'.length]
    omega
  obtain ⟨hlength, rfl⟩ := quotient_unique hp' hp hlengths
  exact value_injective hg hg' hlength (h.value.trans h'.value.symm)

/-- With less than a digit of padding, what is given fixes what was taken. -/
theorem Padded.taken_eq (h : Padded w w' taken given pad) (h' : Padded w w' taken' given pad')
    (hp : pad < w) (hp' : pad' < w) (ht : ∀ x ∈ taken, x < 2 ^ w) (ht' : ∀ x ∈ taken', x < 2 ^ w) :
    taken = taken' := by
  obtain ⟨hlength, rfl⟩ := quotient_unique hp hp' (h.length.symm.trans h'.length)
  have hvalue := h.value.symm.trans h'.value
  exact value_injective ht ht' hlength (Nat.eq_of_mul_eq_mul_right (Nat.two_pow_pos pad) hvalue)

end Regroup

end Positional

end BorgCore
