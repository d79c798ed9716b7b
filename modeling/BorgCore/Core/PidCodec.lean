import BorgCore.Lib.Positional
import BorgCore.Lib.Varint
import BorgCore.Core.PidText

/-!
# What the digits and the bytes of a PID stand for

Base32 cuts the bits of some bytes into groups of five and pads the last of them with zeros; reading it back
cuts the bits of the digits into bytes and insists that what is left over is zero.  Both loops keep the same
relation between what they took and what they gave.
-/

namespace BorgCore

namespace Pid

open Positional

/-! ### The alphabet -/

theorem digit_digitAt : ∀ value < 32, digit (digitAt value) = some value := by decide +kernel

theorem digit_toUpper : ∀ value < 32, digit (digitAt value).toUpper = some value := by decide +kernel

/-- A digit as it is written: in lower case, and without the letters that are read as numbers. -/
def foldDigit (c : Char) : Char :=
  match c.toLower with
  | 'i' | 'l' => '1'
  | 'o' => '0'
  | c => c

theorem digit_of_ge {c : Char} (h : 128 ≤ c.toNat) : digit c = none := by
  have hlower : c.toLower = c := by
    refine dif_neg fun hc => ?_
    have hle : c.val.toNat ≤ 90 := hc.2
    have hge : 128 ≤ c.val.toNat := h
    omega
  have hne (e : Char) (he : e.toNat < 128) : c ≠ e := by
    rintro rfl
    omega
  have hle (e : Char) (he : e.toNat < 128) : ¬ c ≤ e := by
    intro hce
    have hnat : c.toNat ≤ e.toNat := hce
    omega
  simp [digit, hlower, hne, hle]

/-- Whatever is read as a digit is folded to the digit that is written for its value. -/
theorem digitAt_eq {c : Char} {value : Nat} (h : digit c = some value) :
    value < 32 ∧ digitAt value = foldDigit c := by
  have hascii : ∀ n < 128, ∀ v ∈ digit (Char.ofNat n), v < 32 ∧ digitAt v = foldDigit (Char.ofNat n) := by
    decide +kernel
  rcases Nat.lt_or_ge c.toNat 128 with hlt | hge
  · rw [← Char.ofNat_toNat c] at h ⊢
    exact hascii c.toNat hlt value h
  · rw [digit_of_ge hge] at h
    cases h

/-! ### Base32 -/

abbrev values (bytes : List UInt8) : List Nat := bytes.map UInt8.toNat

theorem values_lt {bytes : List UInt8} : ∀ v ∈ values bytes, v < 2 ^ 8 := toNat_lt_of_mem

variable {acc bits pad d w : Nat} {taken given digits : List Nat} {bytes out : List UInt8}
  {text : List Char}

/-- A digit moved into a 32-bit accumulator: the bits that count are those of the digits before it and its
own. -/
theorem push_mod (hd : d < 2 ^ w) (hw : bits + w ≤ 32) :
    (((acc <<< w) % 2 ^ 32) ||| d) % 2 ^ (bits + w) = (acc * 2 ^ w + d) % 2 ^ (bits + w) := by
  have hsplit : 2 ^ 32 = 2 ^ (32 - w) * 2 ^ w := by
    rw [← pow_add]
    congr 1
    omega
  have hhigh : (acc <<< w) % 2 ^ 32 = (acc % 2 ^ (32 - w)) <<< w := by
    rw [Nat.shiftLeft_eq, hsplit, Nat.mul_mod_mul_right, Nat.shiftLeft_eq]
  rw [hhigh, ← Nat.shiftLeft_add_eq_or_of_lt hd, ← hhigh, Nat.shiftLeft_eq]
  have hdvd : 2 ^ (bits + w) ∣ 2 ^ 32 := Nat.pow_dvd_pow 2 hw
  rw [Nat.add_mod, Nat.mod_mod_of_dvd _ hdvd, ← Nat.add_mod]

/-- The digits written while there are bits for one. -/
theorem writeDigits_spec (h : Regroup 8 5 taken given acc bits) (hgiven : ∀ d ∈ given, d < 2 ^ 5) :
    ∃ more left, writeDigits acc bits = (more.map digitAt, left) ∧ left < 5 ∧
      Regroup 8 5 taken (given ++ more) acc left ∧ ∀ d ∈ given ++ more, d < 2 ^ 5 := by
  induction bits using Nat.strongRecOn generalizing given with
  | _ bits ih =>
    rcases Nat.lt_or_ge bits 5 with hlt | hge
    · refine ⟨[], bits, ?_, hlt, by rwa [List.append_nil], by rwa [List.append_nil]⟩
      unfold writeDigits
      split
      · omega
      · rfl
    · obtain ⟨rest, rfl⟩ := Nat.exists_eq_add_of_le' hge
      have hlast : ∀ d ∈ given ++ [acc / 2 ^ rest % 2 ^ 5], d < 2 ^ 5 := by
        intro d hd
        rcases List.mem_append.1 hd with hd | hd
        · exact hgiven d hd
        · rw [List.mem_singleton.1 hd]
          exact Nat.mod_lt _ (Nat.two_pow_pos 5)
      obtain ⟨more, left, hwrite, hleft, hregroup, hall⟩ := ih rest (by omega) h.give hlast
      rw [List.append_assoc] at hregroup hall
      refine ⟨_, left, ?_, hleft, hregroup, hall⟩
      have hmask : (acc >>> rest) &&& 31 = acc / 2 ^ rest % 2 ^ 5 := by
        rw [Nat.shiftRight_eq_div_pow, Nat.and_two_pow_sub_one_eq_mod _ 5]
      rw [writeDigits, hwrite, hmask]
      rfl

theorem encodeFrom_spec (h : Regroup 8 5 taken given acc bits) (hbits : bits < 5)
    (hgiven : ∀ d ∈ given, d < 2 ^ 5) (rest : List UInt8) :
    ∃ digits pad, given.map digitAt ++ encodeFrom acc bits rest = digits.map digitAt ∧ pad < 5 ∧
      Padded 8 5 (taken ++ values rest) digits pad ∧ ∀ d ∈ digits, d < 2 ^ 5 := by
  induction rest generalizing taken given acc bits with
  | nil =>
    rw [encodeFrom, values, List.map_nil, List.append_nil]
    by_cases hzero : 0 < bits
    · refine ⟨_, 5 - bits, ?_, by omega, h.fill hbits.le, ?_⟩
      · have hmask : ((acc <<< (5 - bits)) % 2 ^ 32) &&& 31 = acc * 2 ^ (5 - bits) % 2 ^ 5 := by
          rw [Nat.shiftLeft_eq, Nat.and_two_pow_sub_one_eq_mod _ 5,
            Nat.mod_mod_of_dvd _ (Nat.pow_dvd_pow 2 (by decide))]
        rw [if_pos hzero, hmask, List.map_append]
        rfl
      · intro d hd
        rcases List.mem_append.1 hd with hd | hd
        · exact hgiven d hd
        · rw [List.mem_singleton.1 hd]
          exact Nat.mod_lt _ (Nat.two_pow_pos 5)
    · obtain rfl : bits = 0 := by omega
      refine ⟨given, 0, by simp, by decide, ⟨h.length.symm, ?_⟩, hgiven⟩
      rw [h.value, Nat.pow_zero, Nat.mod_one, Nat.mul_one, Nat.mul_one, Nat.add_zero]
  | cons byte rest ih =>
    have hbyte : byte.toNat < 2 ^ 8 := byte.toNat_lt
    have htake := (h.take hbyte).congr (push_mod hbyte (by omega))
    obtain ⟨more, left, hwrite, hleft, hregroup, hall⟩ := writeDigits_spec htake hgiven
    obtain ⟨digits, pad, hdigits, hpad, hpadded, hlt⟩ := ih hregroup hleft hall
    refine ⟨digits, pad, ?_, hpad, ?_, hlt⟩
    · rw [encodeFrom, hwrite, ← hdigits, List.map_append, List.append_assoc]
    · rw [List.append_assoc] at hpadded
      exact hpadded

/-- The digits of some bytes are these bytes, padded with fewer zero bits than make a digit. -/
theorem encodeBase32_spec (bytes : List UInt8) :
    ∃ digits pad, encodeBase32 bytes = digits.map digitAt ∧ pad < 5 ∧
      Padded 8 5 (values bytes) digits pad ∧ ∀ d ∈ digits, d < 2 ^ 5 :=
  encodeFrom_spec Regroup.nil (by decide) (by simp) bytes

/-- A byte taken off the accumulator is the next byte of the payload. -/
theorem values_concat :
    values (out ++ [(acc >>> bits).toUInt8]) = values out ++ [acc / 2 ^ bits % 2 ^ 8] := by
  simp [values, Nat.shiftRight_eq_div_pow]

/-- A payload that is accepted is its bytes, padded with fewer zero bits than make a byte. -/
theorem decodeFrom_sound (h : Regroup 5 8 taken (values out) acc bits) (hbits : bits < 8)
    (hd : decodeFrom acc bits out text = .ok bytes) :
    ∃ digits pad, text.map digit = digits.map some ∧ pad < 8 ∧
      Padded 8 5 (values bytes) (taken ++ digits) pad ∧
      (bytes.length ≤ maxAllocated ∨ bytes.length = hashLen) := by
  induction text generalizing taken out acc bits with
  | nil =>
    rw [decodeFrom] at hd
    split at hd
    · cases hd
    · split at hd
      · cases hd
      · rename_i hzero hlength
        cases hd
        refine ⟨[], bits, rfl, hbits, ?_, ?_⟩
        · rw [List.append_nil, h.padded]
          rw [Nat.one_shiftLeft, Nat.and_two_pow_sub_one_eq_mod] at hzero
          exact not_not.1 hzero
        · omega
  | cons c rest ih =>
    rw [decodeFrom] at hd
    cases hc : digit c with
    | none => simp [hc] at hd
    | some value =>
      simp only [hc] at hd
      have hvalue : value < 2 ^ 5 := (digitAt_eq hc).1
      have htake := (h.take hvalue).congr (push_mod hvalue (by omega))
      split at hd
      · rename_i hfull
        split at hd
        · cases hd
        · obtain ⟨left, hleft⟩ := Nat.exists_eq_add_of_le' hfull
          rw [hleft] at htake hd
          have hgive := htake.give
          rw [Nat.add_sub_cancel] at hd
          rw [← values_concat] at hgive
          obtain ⟨digits, pad, hdigits, hpad, hpadded, hlength⟩ := ih hgive (by omega) hd
          refine ⟨value :: digits, pad, by simp [hc, hdigits], hpad, ?_, hlength⟩
          rw [List.append_assoc] at hpadded
          exact hpadded
      · obtain ⟨digits, pad, hdigits, hpad, hpadded, hlength⟩ := ih htake (by omega) hd
        refine ⟨value :: digits, pad, by simp [hc, hdigits], hpad, ?_, hlength⟩
        rw [List.append_assoc] at hpadded
        exact hpadded

/-- Digits that are some bytes and less than a byte of zero bits are accepted for these bytes. -/
theorem decodeFrom_complete (h : Regroup 5 8 taken (values out) acc bits) (hbits : bits < 8)
    (htext : text.map digit = digits.map some) (hpadded : Padded 8 5 (values bytes) (taken ++ digits) pad)
    (hpad : pad < 8) (hlength : bytes.length ≤ maxAllocated ∨ bytes.length = hashLen) :
    decodeFrom acc bits out text = .ok bytes := by
  have hmax : bytes.length ≤ hashLen := by
    rcases hlength with hle | heq
    · exact hle.trans (by decide)
    · exact heq.le
  induction text generalizing taken out acc bits digits with
  | nil =>
    obtain rfl : digits = [] := List.map_eq_nil_iff.1 htext.symm
    rw [List.append_nil] at hpadded
    have hzero := h.zero_of_padded hpadded hbits hpad
    have hpadded' := h.padded.2 hzero
    obtain rfl := map_toNat_injective (hpadded'.taken_eq hpadded hbits hpad values_lt values_lt)
    rw [decodeFrom, Nat.one_shiftLeft, Nat.and_two_pow_sub_one_eq_mod, if_neg (not_not.2 hzero), if_neg]
    omega
  | cons c rest ih =>
    cases digits with
    | nil => cases htext
    | cons value digits =>
      obtain ⟨hc, hrest⟩ := List.cons_eq_cons.1 htext
      have hvalue : value < 2 ^ 5 := (digitAt_eq hc).1
      have htake := (h.take hvalue).congr (push_mod hvalue (by omega))
      have hcons : taken ++ value :: digits = (taken ++ [value]) ++ digits := by simp
      rw [hcons] at hpadded
      rw [decodeFrom, hc]
      simp only
      split
      · rename_i hfull
        obtain ⟨left, hleft⟩ := Nat.exists_eq_add_of_le' hfull
        have hroom : out.length ≠ hashLen := by
          -- Otherwise the digits would hold another byte than the bytes they are.
          have hlen := hpadded.length
          have hlen' := htake.length
          simp only [List.length_append, List.length_map, hashLen] at hlen hlen' hmax ⊢
          omega
        rw [if_neg hroom]
        rw [hleft] at htake ⊢
        have hgive := htake.give
        rw [← values_concat] at hgive
        rw [Nat.add_sub_cancel]
        exact ih hgive (by omega) hrest hpadded
      · exact ih htake (by omega) hrest hpadded

theorem decodeBase32_sound (h : decodeBase32 text = .ok bytes) :
    ∃ digits pad, text.map digit = digits.map some ∧ pad < 8 ∧ Padded 8 5 (values bytes) digits pad ∧
      (bytes.length ≤ maxAllocated ∨ bytes.length = hashLen) := by
  have hstart : Regroup 5 8 [] (values []) 0 0 := Regroup.nil
  exact decodeFrom_sound hstart (by decide) h

theorem decodeBase32_complete (htext : text.map digit = digits.map some)
    (hpadded : Padded 8 5 (values bytes) digits pad) (hpad : pad < 8)
    (hlength : bytes.length ≤ maxAllocated ∨ bytes.length = hashLen) :
    decodeBase32 text = .ok bytes := by
  have hstart : Regroup 5 8 [] (values []) 0 0 := Regroup.nil
  exact decodeFrom_complete hstart (by decide) htext hpadded hpad hlength

/-! ### Varints -/

open Varint

variable {value shift room k n part placed : Nat} {used rest : List UInt8} {byte : UInt8}

theorem toNat_group : (value.toUInt8 &&& 0x7f).toNat = value % 128 := by
  rw [UInt8.toNat_and]
  change value % 2 ^ 8 &&& 2 ^ 7 - 1 = _
  rw [Nat.and_two_pow_sub_one_eq_mod]
  omega

theorem toNat_and_mask : (byte &&& 0x7f).toNat = byte.toNat % 128 := by
  rw [UInt8.toNat_and]
  exact Nat.and_two_pow_sub_one_eq_mod byte.toNat 7

theorem toNat_or_flag (h : byte.toNat < 128) : (byte ||| 0x80).toNat = byte.toNat + 128 := by
  rw [UInt8.toNat_or, Nat.or_comm, Nat.add_comm]
  exact (Nat.two_pow_add_eq_or_of_lt (i := 7) h 1).symm

theorem and_flag : byte &&& 0x80 = 0 ↔ ¬ Continues byte := by
  rw [top_bit_iff, Continues, Nat.not_le]

/-- A number of so many groups is written in no more bytes, and without waste. -/
theorem putVarint_spec (hk : k ≠ 0) (hroom : k ≤ room) (hvalue : value < 128 ^ k) :
    ∃ bytes, putVarint room value = some bytes ∧ Spells bytes value ∧ Trim bytes ∧
      bytes.length ≤ k := by
  induction k generalizing room value with
  | zero => exact absurd rfl hk
  | succ k ih =>
    obtain ⟨room, rfl⟩ := Nat.exists_eq_add_of_le' (Nat.one_le_of_lt hroom)
    have hgroup : (value.toUInt8 &&& 0x7f).toNat = value % 128 := toNat_group
    rw [putVarint, Nat.shiftRight_eq_div_pow]
    by_cases hlast : value / 2 ^ 7 = 0
    · have hsmall : (value.toUInt8 &&& 0x7f).toNat = value := by omega
      have hends : ¬ Continues (value.toUInt8 &&& 0x7f) := by
        rw [Continues]
        omega
      have hspells := Spells.last hends
      rw [hsmall] at hspells
      rw [if_pos hlast]
      exact ⟨_, rfl, hspells, List.IsChain.singleton _, by simp⟩
    · have hflag : (value.toUInt8 &&& 0x7f ||| 0x80).toNat = value % 128 + 128 := by
        rw [toNat_or_flag (by omega), hgroup]
      have hcontinues : Continues (value.toUInt8 &&& 0x7f ||| 0x80) := by
        rw [Continues]
        omega
      have hrest : value / 2 ^ 7 < 128 ^ k := by
        rw [pow_succ] at hvalue
        omega
      have hk' : k ≠ 0 := by
        rintro rfl
        exact hlast (Nat.lt_one_iff.1 hrest)
      obtain ⟨bytes, hput, hspells, htrim, hlength⟩ := ih hk' (Nat.le_of_succ_le_succ hroom) hrest
      have hmore := Spells.more hcontinues hspells
      have hsum : (value.toUInt8 &&& 0x7f ||| 0x80).toNat % 128 + 128 * (value / 2 ^ 7) = value := by omega
      rw [hsum] at hmore
      rw [if_neg hlast, hput]
      exact ⟨_, rfl, hmore, (trim_cons hspells hcontinues).2 ⟨hlast, htrim⟩, Nat.succ_le_succ hlength⟩

/-- Where a group has a place in a 64-bit number. -/
theorem placed_iff :
    (checkedShl part shift).filter (fun placed => placed >>> shift = part) = some placed ↔
      shift < 64 ∧ part * 2 ^ shift < 2 ^ 64 ∧ placed = part <<< shift := by
  unfold checkedShl
  by_cases hshift : shift < 64
  · rw [if_pos hshift, Option.filter_eq_some_iff, Nat.shiftRight_eq_div_pow, Nat.shiftLeft_eq,
      Option.some.injEq, decide_eq_true_eq]
    have hpos := Nat.two_pow_pos shift
    constructor
    · rintro ⟨rfl, hplaced⟩
      have hle := Nat.div_mul_le_self (part * 2 ^ shift % 2 ^ 64) (2 ^ shift)
      rw [hplaced] at hle
      have hfits : part * 2 ^ shift < 2 ^ 64 := hle.trans_lt (Nat.mod_lt _ (by decide))
      exact ⟨hshift, hfits, Nat.mod_eq_of_lt hfits⟩
    · rintro ⟨-, hfits, rfl⟩
      exact ⟨Nat.mod_eq_of_lt hfits, Nat.mul_div_cancel _ hpos⟩
  · simp [hshift]

theorem or_placed (hvalue : value < 2 ^ shift) :
    value ||| part <<< shift = value + part * 2 ^ shift := by
  rw [Nat.or_comm, ← Nat.shiftLeft_add_eq_or_of_lt hvalue, Nat.shiftLeft_eq, Nat.add_comm]

theorem add_placed_lt (hvalue : value < 2 ^ shift) (hpart : part < 128) :
    value + part * 2 ^ shift < 2 ^ (shift + 7) := by
  have hle : (part + 1) * 2 ^ shift ≤ 128 * 2 ^ shift := Nat.mul_le_mul_right _ hpart
  rw [Nat.succ_mul] at hle
  rw [pow_add, Nat.mul_comm _ (2 ^ 7)]
  omega

theorem takeVarintFrom_sound {result : Nat} (hvalue : value < 2 ^ shift)
    (h : takeVarintFrom value shift bytes = some (result, rest)) :
    ∃ used n, bytes = used ++ rest ∧ Spells used n ∧ result = value + n * 2 ^ shift ∧
      result < 2 ^ 64 := by
  induction bytes generalizing value shift with
  | nil => cases h
  | cons byte bytes ih =>
    rw [takeVarintFrom] at h
    split at h
    · cases h
    · rename_i placed hplaced
      obtain ⟨hshift, hfits, rfl⟩ := placed_iff.1 hplaced
      simp only [toNat_and_mask] at h hfits
      rw [or_placed hvalue] at h
      have hplaced : value + byte.toNat % 128 * 2 ^ shift < 2 ^ 64 := by
        rw [← or_placed hvalue, Nat.shiftLeft_eq]
        exact Nat.or_lt_two_pow (hvalue.trans_le (Nat.pow_le_pow_right (by decide) hshift.le)) hfits
      simp only [and_flag] at h
      split at h
      · rename_i hends
        cases h
        have hsmall : byte.toNat % 128 = byte.toNat := by
          rw [Continues] at hends
          omega
        refine ⟨[byte], byte.toNat, rfl, .last hends, by rw [hsmall], hplaced⟩
      · rename_i hmore
        have hlt : byte.toNat % 128 < 128 := Nat.mod_lt _ (by decide)
        obtain ⟨used, n, rfl, hspells, rfl, hresult⟩ := ih (add_placed_lt hvalue hlt) h
        refine ⟨byte :: used, _, rfl, .more (not_not.1 hmore) hspells, ?_, hresult⟩
        rw [pow_add]
        ring

theorem takeVarintFrom_complete (hused : Spells used n) (hvalue : value < 2 ^ shift)
    (hresult : value + n * 2 ^ shift < 2 ^ 64) (hlength : shift + 7 * used.length < 71) :
    takeVarintFrom value shift (used ++ rest) = some (value + n * 2 ^ shift, rest) := by
  induction hused generalizing value shift with
  | @last byte hends =>
    have hsmall : byte.toNat % 128 = byte.toNat := by
      rw [Continues] at hends
      omega
    have hplaced := placed_iff.2 ⟨Nat.lt_of_add_lt_add_right hlength, (Nat.le_add_left _ _).trans_lt hresult, rfl⟩
    rw [List.singleton_append, takeVarintFrom, toNat_and_mask, hsmall, hplaced]
    simp only
    rw [if_pos (and_flag.2 hends), or_placed hvalue]
  | @more byte used n hmore hspells ih =>
    have hlt : byte.toNat % 128 < 128 := Nat.mod_lt _ (by decide)
    have hnonempty := List.length_pos_iff.2 hspells.ne_nil
    rw [List.length_cons] at hlength
    have hsum : value + (byte.toNat % 128 + 128 * n) * 2 ^ shift =
        value + byte.toNat % 128 * 2 ^ shift + n * 2 ^ (shift + 7) := by
      rw [pow_add]
      ring
    rw [hsum] at hresult ⊢
    have hfits : byte.toNat % 128 * 2 ^ shift < 2 ^ 64 := by omega
    have hplaced := placed_iff.2 ⟨by omega, hfits, rfl⟩
    rw [List.cons_append, takeVarintFrom, toNat_and_mask, hplaced]
    simp only
    rw [if_neg (fun h => and_flag.1 h hmore), or_placed hvalue]
    exact ih (add_placed_lt hvalue hlt) hresult (by omega)

end Pid

end BorgCore
