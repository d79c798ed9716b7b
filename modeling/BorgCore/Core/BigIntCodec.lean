import Mathlib.Data.List.Basic
import BorgCore.Lib.TwosComplement
import BorgCore.Core.BigInt

/-!
# Big integers, canonically

A decimal text is encoded as the fewest bytes that stand for its integer in two's complement, and any bytes
are decoded as the decimal text of the integer they stand for.
-/

namespace BorgCore

namespace BigInt

open Positional

variable {bytes rest : List UInt8} {byte first : UInt8} {digit : Nat} {n : Int} {text : String}

def signedOf (bytes : List UInt8) : Int := signed 256 (bytes.map UInt8.toNat)

/-- The bytes are canonical for an integer: they stand for it, in no more bytes than any others, and no
others of that length do. -/
structure Canonical (n : Int) (bytes : List UInt8) : Prop where
  stands : signedOf bytes = n
  shortest : ∀ other, signedOf other = n → bytes.length ≤ other.length
  only : ∀ other, signedOf other = n → other.length = bytes.length → other = bytes

/-- The text is an optional `-` and at least one decimal digit, and the integer is the one it denotes. -/
def Denotes (text : String) (n : Int) : Prop :=
  ∃ (negative : Bool) (digits : List Char), text.toList = (if negative then ['-'] else []) ++ digits ∧
    digits ≠ [] ∧ (∀ c ∈ digits, c.isDigit) ∧
    n = (if negative then -1 else 1) * (value 10 (digits.map fun c => c.toNat - '0'.toNat) : Int)

/-- Short bytes are the canonical ones. -/
theorem canonical_of_short (h : signedOf bytes = n) (hs : Short 128 (bytes.map UInt8.toNat)) :
    Canonical n bytes where
  stands := h
  shortest other ho := by
    have hle := hs.length_le toNat_lt_of_mem toNat_lt_of_mem (ho.trans h.symm)
    rwa [List.length_map, List.length_map] at hle
  only other ho hlength := by
    have hsame : other.map UInt8.toNat = bytes.map UInt8.toNat :=
      signed_injective toNat_lt_of_mem toNat_lt_of_mem (by rw [List.length_map, List.length_map, hlength])
        (ho.trans h.symm)
    exact map_toNat_injective hsame

theorem Canonical.unique {bytes' : List UInt8} (h : Canonical n bytes) (h' : Canonical n bytes') :
    bytes = bytes' :=
  h'.only bytes h.stands (le_antisymm (h.shortest _ h'.stands) (h'.shortest _ h.stands))

/-! ### The loops -/

theorem timesTen_spec (hd : digit < 10) (bytes : List UInt8) :
    magnitudeOf (timesTen digit bytes).1 + (timesTen digit bytes).2 * 256 ^ bytes.length =
        magnitudeOf bytes * 10 + digit ∧
      (timesTen digit bytes).1.length = bytes.length ∧ (timesTen digit bytes).2 < 10 := by
  induction bytes with
  | nil => simp [timesTen, magnitudeOf, hd]
  | cons byte rest ih =>
    obtain ⟨hvalue, hlength, hcarry⟩ := ih
    have hbyte := byte.toNat_lt
    generalize hnext : byte.toNat * 10 + (timesTen digit rest).2 = next
    have htoNat : next.toUInt8.toNat = next % 256 := rfl
    simp only [timesTen, magnitudeOf_cons, hnext, htoNat, hlength, List.length_cons,
      Nat.shiftRight_eq_div_pow, Nat.reducePow]
    refine ⟨?_, trivial, by omega⟩
    calc next % 256 * 256 ^ rest.length + magnitudeOf (timesTen digit rest).1 +
          next / 256 * 256 ^ (rest.length + 1)
        = (256 * (next / 256) + next % 256) * 256 ^ rest.length + magnitudeOf (timesTen digit rest).1 := by
          rw [pow_succ]
          ring
      _ = byte.toNat * 10 * 256 ^ rest.length +
            (magnitudeOf (timesTen digit rest).1 + (timesTen digit rest).2 * 256 ^ rest.length) := by
          rw [Nat.div_add_mod, ← hnext]
          ring
      _ = (byte.toNat * 256 ^ rest.length + magnitudeOf rest) * 10 + digit := by
          rw [hvalue]
          ring

theorem magnitudeOf_pushDigit (hd : digit < 10) (bytes : List UInt8) :
    magnitudeOf (pushDigit bytes digit) = magnitudeOf bytes * 10 + digit := by
  obtain ⟨hvalue, hlength, hcarry⟩ := timesTen_spec hd bytes
  rw [pushDigit]
  simp only
  split
  · have htoNat : (timesTen digit bytes).2.toUInt8.toNat = (timesTen digit bytes).2 :=
      Nat.mod_eq_of_lt (hcarry.trans (by decide))
    rw [magnitudeOf_cons, htoNat, hlength, Nat.add_comm, hvalue]
  · have hzero : (timesTen digit bytes).2 = 0 := by omega
    rwa [hzero, Nat.zero_mul, Nat.add_zero] at hvalue

/-- The magnitude that has been built is the number of the digits read. -/
theorem magnitudeOf_foldl {digits : List Nat} (h : ∀ d ∈ digits, d < 10) :
    magnitudeOf (digits.foldl pushDigit []) = value 10 digits := by
  induction digits using List.reverseRecOn with
  | nil => rfl
  | append_singleton digits d ih =>
    rw [List.foldl_concat, magnitudeOf_pushDigit (h d (by simp)), value_concat,
      ih fun x hx => h x (List.mem_append_left _ hx)]

theorem magnitudeOf_dropWhile (bytes : List UInt8) :
    magnitudeOf (bytes.dropWhile (· = 0)) = magnitudeOf bytes := by
  induction bytes with
  | nil => rfl
  | cons byte rest ih =>
    rw [List.dropWhile_cons]
    split
    · rename_i hzero
      have hbyte : byte = 0 := of_decide_eq_true hzero
      rw [ih, magnitudeOf_cons, hbyte]
      simp
    · rfl

theorem incrementFrom_spec (bytes : List UInt8) :
    magnitudeOf (incrementFrom bytes).1 + (if (incrementFrom bytes).2 then 256 ^ bytes.length else 0) =
        magnitudeOf bytes + 1 ∧ (incrementFrom bytes).1.length = bytes.length := by
  induction bytes with
  | nil => simp [incrementFrom, magnitudeOf]
  | cons byte rest ih =>
    obtain ⟨hrest, hlength⟩ := ih
    rw [incrementFrom]
    cases hcarried : (incrementFrom rest).2 with
    | false =>
      rw [hcarried] at hrest
      simp only [hcarried, Bool.false_eq_true, if_false, magnitudeOf_cons, hlength, List.length_cons] at hrest ⊢
      exact ⟨by omega, trivial⟩
    | true =>
      rw [hcarried, if_pos rfl] at hrest
      simp only [hcarried, if_true, magnitudeOf_cons, hlength, List.length_cons, decide_eq_true_eq]
      refine ⟨?_, trivial⟩
      have hbyte := byte.toNat_lt
      have hadd : (byte + 1).toNat = (byte.toNat + 1) % 256 := UInt8.toNat_add byte 1
      by_cases hzero : byte + 1 = 0
      · rw [hzero, UInt8.toNat_zero] at hadd
        have hmax : byte.toNat = 255 := by omega
        rw [if_pos hzero, hzero, hmax, pow_succ, UInt8.toNat_zero]
        omega
      · have hne : (byte + 1).toNat ≠ 0 := fun h => hzero (UInt8.toNat_inj.1 h)
        have hnext : (byte + 1).toNat = byte.toNat + 1 := by omega
        rw [if_neg hzero, hnext, Nat.succ_mul]
        omega

theorem magnitudeOf_complement (bytes : List UInt8) :
    magnitudeOf (complement bytes) + magnitudeOf bytes + 1 = 256 ^ bytes.length := by
  induction bytes with
  | nil => rfl
  | cons byte rest ih =>
    have hlength : (complement rest).length = rest.length := List.length_map _
    have hbyte := byte.toNat_lt
    have hnot : (~~~byte).toNat = 255 - byte.toNat := by
      rw [UInt8.toNat_not]
      change 256 - 1 - _ = _
      omega
    change magnitudeOf ((~~~byte) :: complement rest) + _ + _ = _
    have hsum : (255 - byte.toNat) * 256 ^ rest.length + byte.toNat * 256 ^ rest.length =
        255 * 256 ^ rest.length := by
      rw [← Nat.add_mul]
      congr 1
      omega
    rw [magnitudeOf_cons, magnitudeOf_cons, hlength, hnot, List.length_cons, pow_succ]
    omega

theorem magnitudeOf_negated (h : magnitudeOf bytes ≠ 0) :
    magnitudeOf (increment (complement bytes)) + magnitudeOf bytes = 256 ^ bytes.length ∧
      (increment (complement bytes)).length = bytes.length := by
  obtain ⟨hvalue, hlength⟩ := incrementFrom_spec (complement bytes)
  have hsum := magnitudeOf_complement bytes
  have hsame : (complement bytes).length = bytes.length := List.length_map _
  rw [hsame] at hvalue hlength
  refine ⟨?_, hlength⟩
  unfold increment
  split at hvalue
  · omega
  · omega

/-! ### Encoding -/

theorem toNat_lt_two_mul (first : UInt8) (rest : List UInt8) :
    ∀ d ∈ first.toNat :: rest.map UInt8.toNat, d < 2 * 128 := @toNat_lt_of_mem (first :: rest)

/-- Bytes whose first has its top bit set are negative. -/
theorem signedOf_of_top (h : 128 ≤ first.toNat) :
    signedOf (first :: rest) = magnitudeOf (first :: rest) - (256 ^ (first :: rest).length : Nat) := by
  have hsigned := signed_of_half_le (toNat_lt_two_mul first rest) h
  rw [List.length_cons, List.length_map] at hsigned
  exact hsigned

theorem signedOf_of_not_top (h : first.toNat < 128) :
    signedOf (first :: rest) = magnitudeOf (first :: rest) :=
  signed_of_lt_half (toNat_lt_two_mul first rest) h

/-- Dropping what only repeats a negative sign leaves short bytes of the same integer. -/
theorem trimSign_spec (h : 128 ≤ first.toNat) :
    signedOf (trimSign (first :: rest)) = signedOf (first :: rest) ∧
      Short 128 ((trimSign (first :: rest)).map UInt8.toNat) := by
  induction rest generalizing first with
  | nil =>
    refine ⟨rfl, ?_⟩
    change first.toNat ≠ 0
    omega
  | cons second rest ih =>
    rw [trimSign]
    split
    · rename_i htrim
      have htop : 128 ≤ second.toNat := not_lt.1 fun hlt => htrim.2 (top_bit_iff.2 hlt)
      obtain ⟨hsame, hshort⟩ := ih htop
      refine ⟨hsame.trans ?_, hshort⟩
      rw [htrim.1]
      exact (signed_cons_max (toNat_lt_two_mul second rest) htop).symm
    · rename_i hkept
      refine ⟨rfl, fun hzero => ?_, fun hmax => hkept ⟨UInt8.toNat_inj.1 hmax.1, fun hclear => ?_⟩⟩
      · omega
      · have := top_bit_iff.1 hclear
        omega

/-- A positive number, with a zero before it where its first byte would read as a sign. -/
theorem signedOf_padded (hfirst : first ≠ 0) (rest : List UInt8) :
    signedOf (if first &&& 0x80 ≠ 0 then 0 :: first :: rest else first :: rest) =
        magnitudeOf (first :: rest) ∧
      Short 128 ((if first &&& 0x80 ≠ 0 then 0 :: first :: rest else first :: rest).map UInt8.toNat) := by
  have hne : first.toNat ≠ 0 := fun h => hfirst (UInt8.toNat_inj.1 h)
  by_cases htop : first &&& 0x80 = 0
  · rw [if_neg (not_not.2 htop)]
    have hlt := top_bit_iff.1 htop
    refine ⟨signedOf_of_not_top hlt, ?_⟩
    cases rest with
    | nil => exact hne
    | cons second rest => exact ⟨fun hzero => hne hzero.1, fun hmax => by omega⟩
  · rw [if_pos htop]
    have hge : ¬ first.toNat < 128 := fun hlt => htop (top_bit_iff.2 hlt)
    refine ⟨?_, fun hzero => hge hzero.2, fun hmax => by cases hmax.1⟩
    rw [signedOf_of_not_top (by decide), magnitudeOf_cons]
    simp

theorem magnitudeOf_lt (bytes : List UInt8) : magnitudeOf bytes < 256 ^ bytes.length := by
  have hlt := value_lt (@toNat_lt_of_mem bytes)
  rwa [List.length_map] at hlt

theorem magnitudeOf_pos (hfirst : first ≠ 0) (rest : List UInt8) : magnitudeOf (first :: rest) ≠ 0 :=
  fun h => hfirst (magnitudeOf_eq_zero.1 h first List.mem_cons_self)

/-- A negative number, negated over one byte more than it needs. -/
theorem signedOf_negated (hfirst : first ≠ 0) (rest : List UInt8) :
    signedOf (trimSign (increment (complement (0 :: first :: rest)))) = -magnitudeOf (first :: rest) ∧
      Short 128 ((trimSign (increment (complement (0 :: first :: rest)))).map UInt8.toNat) := by
  have hpadded : magnitudeOf (0 :: first :: rest) = magnitudeOf (first :: rest) := by
    rw [magnitudeOf_cons]
    simp
  have hlt := magnitudeOf_lt (first :: rest)
  have hpos : magnitudeOf (0 :: first :: rest) ≠ 0 := by
    rw [hpadded]
    exact magnitudeOf_pos hfirst rest
  obtain ⟨hsum, hlength⟩ := magnitudeOf_negated hpos
  rw [hpadded] at hsum
  cases hnegated : increment (complement (0 :: first :: rest)) with
  | nil =>
    rw [hnegated] at hlength
    cases hlength
  | cons top low =>
    rw [hnegated] at hsum hlength
    have hlow : low.length = rest.length + 1 := Nat.succ.inj hlength
    have hsigned : 128 ≤ top.toNat := by
      by_contra hclear
      have hlt' := magnitudeOf_lt low
      have hmul : (top.toNat + 1) * 256 ^ low.length ≤ 128 * 256 ^ low.length :=
        Nat.mul_le_mul_right _ (not_le.1 hclear)
      rw [Nat.succ_mul] at hmul
      rw [magnitudeOf_cons top] at hsum
      simp only [List.length_cons, ← hlow] at hsum hlt
      omega
    obtain ⟨hsame, hshort⟩ := @trimSign_spec low top hsigned
    refine ⟨?_, hshort⟩
    rw [hsame, signedOf_of_top hsigned, hlength]
    omega

theorem stripSign_eq {negative : Bool} {digits : List Char} (hne : digits ≠ [])
    (hdigits : ∀ c ∈ digits, c.isDigit) :
    stripSign ((if negative then ['-'] else []) ++ digits) = (negative, digits) := by
  cases negative with
  | true => rfl
  | false =>
    cases digits with
    | nil => exact absurd rfl hne
    | cons c rest =>
      change stripSign (c :: rest) = _
      unfold stripSign
      split
      · rename_i heq
        obtain ⟨rfl, -⟩ := List.cons_eq_cons.1 heq
        exact absurd (hdigits '-' List.mem_cons_self) (by decide)
      · rfl

theorem stripSign_append (text : List Char) :
    text = (if (stripSign text).1 then ['-'] else []) ++ (stripSign text).2 := by
  unfold stripSign
  split <;> rfl

theorem digitValue_lt {digits : List Char} (h : ∀ c ∈ digits, c.isDigit) :
    ∀ d ∈ digits.map (fun c => c.toNat - '0'.toNat), d < 10 := by
  intro d hd
  obtain ⟨c, hc, rfl⟩ := List.mem_map.1 hd
  have hdigit := h c hc
  simp only [Char.isDigit, Bool.and_eq_true, decide_eq_true_eq] at hdigit
  have hle : c.toNat ≤ 57 := hdigit.2
  change c.toNat - 48 < 10
  omega

/-- A text that denotes an integer is encoded in short bytes that stand for it. -/
theorem encode_spec (h : Denotes text n) :
    ∃ bytes, encode text = some bytes ∧ signedOf bytes = n ∧ Short 128 (bytes.map UInt8.toNat) := by
  obtain ⟨negative, digits, htext, hne, hdigits, rfl⟩ := h
  have hempty : digits.isEmpty = false := by simpa using hne
  have hall : digits.all Char.isDigit = true := List.all_eq_true.2 hdigits
  have hmagnitude := magnitudeOf_dropWhile ((digits.map fun c => c.toNat - '0'.toNat).foldl pushDigit [])
  rw [magnitudeOf_foldl (digitValue_lt hdigits)] at hmagnitude
  simp only [encode, htext, stripSign_eq hne hdigits, hempty, hall, Bool.not_true, Bool.or_false,
    Bool.false_eq_true, if_false]
  generalize value 10 (digits.map fun c => c.toNat - '0'.toNat) = number at hmagnitude ⊢
  generalize hstripped : ((digits.map fun c => c.toNat - '0'.toNat).foldl pushDigit []).dropWhile (· = 0) =
    stripped at hmagnitude ⊢
  match stripped, hmagnitude with
  | [], hmagnitude =>
    obtain rfl : number = 0 := hmagnitude.symm
    exact ⟨[], rfl, by simp [signedOf], trivial⟩
  | first :: rest, hmagnitude =>
    have hfirst : first ≠ 0 := by
      have hhead := List.head?_dropWhile_not (· = (0 : UInt8))
        ((digits.map fun c => c.toNat - '0'.toNat).foldl pushDigit [])
      rw [hstripped] at hhead
      exact of_decide_eq_false hhead
    cases negative with
    | true =>
      obtain ⟨hsigned, hshort⟩ := signedOf_negated hfirst rest
      refine ⟨_, rfl, ?_, hshort⟩
      rw [hsigned, hmagnitude]
      simp
    | false =>
      obtain ⟨hsigned, hshort⟩ := signedOf_padded hfirst rest
      refine ⟨_, ?_, ?_, hshort⟩
      · simp only [Bool.false_eq_true, if_false]
        split <;> rfl
      · rw [hsigned, hmagnitude]
        simp

/-- Only a text that denotes an integer is encoded. -/
theorem denotes_of_encode (h : encode text = some bytes) : ∃ n, Denotes text n := by
  rw [encode] at h
  simp only at h
  split at h
  · cases h
  · rename_i hdigits
    rw [Bool.or_eq_true, not_or, List.isEmpty_iff, Bool.not_eq_true', Bool.not_eq_false,
      List.all_eq_true] at hdigits
    exact ⟨_, (stripSign text.toList).1, (stripSign text.toList).2, stripSign_append _, hdigits.1,
      hdigits.2, rfl⟩

/-! ### Decoding -/

theorem digitChar_eq : ∀ d < 10, Char.ofNat ('0'.toNat + d) = d.digitChar := by decide

/-- Dividing by ten gives the digits, the last first. -/
theorem digitsOf_reverse (h : magnitudeOf bytes ≠ 0) :
    (digitsOf bytes).reverse = Nat.toDigits 10 (magnitudeOf bytes) := by
  induction hsize : magnitudeOf bytes using Nat.strongRecOn generalizing bytes with
  | _ number ih =>
    rw [hsize] at h
    obtain ⟨hquotient, hremainder⟩ := divTen_zero bytes
    rw [hsize] at hquotient hremainder
    have hany : bytes.any (· ≠ 0) = true := any_ne_zero.2 (by rwa [hsize])
    rw [digitsOf, if_pos hany, List.reverse_cons, hremainder, digitChar_eq _ (Nat.mod_lt _ (by decide)),
      Nat.toDigits_eq_if (by decide)]
    split
    · rename_i hlt
      have hnone : ¬ (divTen 0 bytes).1.any (· ≠ 0) = true := by
        rw [any_ne_zero, hquotient, Nat.div_eq_of_lt hlt]
        exact not_not.2 rfl
      rw [digitsOf, if_neg hnone, Nat.mod_eq_of_lt hlt]
      rfl
    · rename_i hge
      have hpos : magnitudeOf (divTen 0 bytes).1 ≠ 0 := by omega
      rw [ih (number / 10) (Nat.div_lt_self (Nat.pos_of_ne_zero h) (by decide)) hpos hquotient]

theorem toString_natCast (number : Nat) :
    toString (number : Int) = String.ofList (Nat.toDigits 10 number) := rfl

theorem toString_neg {number : Nat} (h : number ≠ 0) :
    toString (-number : Int) = String.ofList ('-' :: Nat.toDigits 10 number) := by
  obtain ⟨pred, rfl⟩ := Nat.exists_eq_succ_of_ne_zero h
  rw [← String.toList_inj, String.toList_ofList]
  change ("-" ++ Nat.repr (pred + 1)).toList = _
  rw [String.toList_append, Nat.toList_repr]
  rfl

/-- Bytes are decoded as the decimal text of the integer they stand for. -/
theorem decode_eq (bytes : List UInt8) : decode bytes = toString (signedOf bytes) := by
  cases bytes with
  | nil =>
    simp only [signedOf, List.map_nil, signed_nil]
    rfl
  | cons first rest =>
    rw [decode]
    by_cases hzero : magnitudeOf (first :: rest) = 0
    · have hall : (first :: rest).all (· = 0) = true := by
        rw [List.all_eq_true]
        exact fun byte hb => decide_eq_true (magnitudeOf_eq_zero.1 hzero byte hb)
      have hfirst : first = 0 := magnitudeOf_eq_zero.1 hzero first List.mem_cons_self
      rw [if_pos hall, signedOf_of_not_top (by rw [hfirst]; decide), hzero]
      rfl
    · have hall : ¬ (first :: rest).all (· = 0) = true := by
        rw [List.all_eq_true]
        exact fun h => hzero (magnitudeOf_eq_zero.2 fun byte hb => of_decide_eq_true (h byte hb))
      rw [if_neg hall]
      by_cases htop : first &&& 0x80 = 0
      · have hlt := top_bit_iff.1 htop
        rw [signedOf_of_not_top hlt, toString_natCast, ← digitsOf_reverse hzero]
        simp [htop]
      · have hge : 128 ≤ first.toNat := not_lt.1 fun hlt => htop (top_bit_iff.2 hlt)
        obtain ⟨hsum, -⟩ := magnitudeOf_negated hzero
        have hpos : magnitudeOf (increment (complement (first :: rest))) ≠ 0 := by
          have := magnitudeOf_lt (first :: rest)
          omega
        have hsigned : signedOf (first :: rest) =
            -magnitudeOf (increment (complement (first :: rest))) := by
          rw [signedOf_of_top hge]
          omega
        rw [hsigned, toString_neg hpos, ← digitsOf_reverse hpos]
        simp [htop]

theorem value_toDigits (number : Nat) :
    value 10 ((Nat.toDigits 10 number).map fun c => c.toNat - '0'.toNat) = number := by
  have hread := Nat.ofDigitChars_ten_toDigits (n := number)
  rw [Nat.ofDigitChars_eq_foldl] at hread
  rw [value, List.foldl_map]
  simpa only [Nat.mul_comm 10] using hread

theorem denotes_toString (n : Int) : Denotes (toString n) n := by
  have hdigits (number : Nat) : ∀ c ∈ Nat.toDigits 10 number, c.isDigit :=
    fun c hc => Nat.isDigit_of_mem_toDigits (by decide) (by decide) hc
  obtain ⟨number, rfl | rfl⟩ := n.eq_nat_or_neg
  · refine ⟨false, Nat.toDigits 10 number, ?_, Nat.toDigits_ne_nil, hdigits number, ?_⟩
    · rw [toString_natCast, String.toList_ofList]
      rfl
    · rw [value_toDigits]
      simp
  · by_cases hzero : number = 0
    · subst hzero
      exact ⟨false, Nat.toDigits 10 0, rfl, Nat.toDigits_ne_nil, hdigits 0, rfl⟩
    · refine ⟨true, Nat.toDigits 10 number, ?_, Nat.toDigits_ne_nil, hdigits number, ?_⟩
      · rw [toString_neg hzero, String.toList_ofList]
        rfl
      · rw [value_toDigits]
        simp

theorem encode_decode (h : encode text = some bytes) : encode (decode bytes) = some bytes := by
  obtain ⟨n, hn⟩ := denotes_of_encode h
  obtain ⟨_, hbytes, hsigned, hshort⟩ := encode_spec hn
  obtain rfl := Option.some.inj (hbytes.symm.trans h)
  obtain ⟨bytes', hbytes', hsigned', hshort'⟩ := encode_spec (denotes_toString n)
  rw [decode_eq, hsigned, hbytes',
    (canonical_of_short hsigned hshort).unique (canonical_of_short hsigned' hshort')]

/-- **Canonical bytes.**  A text of an optional `-` and decimal digits is encoded as the canonical bytes of
the integer it denotes, and any other is not encoded; bytes are decoded as the decimal text of the integer
they stand for, which is one that denotes it.  So texts have the same bytes exactly where they denote the
same integer, and what was encoded is decoded as the decimal text of its integer. -/
theorem encode_canonical :
    (∀ text n, Denotes text n → ∃ bytes, encode text = some bytes ∧ Canonical n bytes) ∧
      (∀ text, (¬ ∃ n, Denotes text n) → encode text = none) ∧
      (∀ bytes, decode bytes = toString (signedOf bytes)) ∧ (∀ n : Int, Denotes (toString n) n) ∧
      (∀ text text' n n', Denotes text n → Denotes text' n' → (encode text = encode text' ↔ n = n')) ∧
      ∀ text n, Denotes text n → (encode text).map decode = some (toString n) := by
  have hencode (text : String) (n : Int) (h : Denotes text n) :
      ∃ bytes, encode text = some bytes ∧ Canonical n bytes := by
    obtain ⟨bytes, hbytes, hsigned, hshort⟩ := encode_spec h
    exact ⟨bytes, hbytes, canonical_of_short hsigned hshort⟩
  refine ⟨hencode, fun text hnone => ?_, decode_eq, denotes_toString, fun text text' n n' h h' => ?_,
    fun text n h => ?_⟩
  · cases hbytes : encode text with
    | none => rfl
    | some bytes => exact absurd (denotes_of_encode hbytes) hnone
  · obtain ⟨bytes, hbytes, hcanonical⟩ := hencode text n h
    obtain ⟨bytes', hbytes', hcanonical'⟩ := hencode text' n' h'
    rw [hbytes, hbytes', Option.some.injEq]
    constructor
    · rintro rfl
      exact hcanonical.stands.symm.trans hcanonical'.stands
    · rintro rfl
      exact hcanonical.unique hcanonical'
  · obtain ⟨bytes, hbytes, hcanonical⟩ := hencode text n h
    rw [hbytes, Option.map_some, decode_eq, hcanonical.stands]

end BigInt

end BorgCore
