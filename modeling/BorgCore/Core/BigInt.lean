import BorgCore.Lib.Positional

/-!
# Arbitrary-precision integers as bytes

The bytes of a big integer are its identity: two's complement, most significant byte first, as few as
possible, and none for zero.  The conversions are schoolbook loops over the bytes.
-/

namespace BorgCore

namespace BigInt

/-- The number some bytes stand for without a sign. -/
def magnitudeOf (bytes : List UInt8) : Nat := Positional.value 256 (bytes.map UInt8.toNat)

/-! ### From decimal -/

/-- Multiply by ten and add, from the least significant byte on; what is carried out of the top comes
second. -/
def timesTen (digit : Nat) : List UInt8 → List UInt8 × Nat
  | [] => ([], digit)
  | byte :: rest =>
    let (rest, carry) := timesTen digit rest
    let next := byte.toNat * 10 + carry
    (next.toUInt8 :: rest, next >>> 8)

/-- The next decimal digit. -/
def pushDigit (magnitude : List UInt8) (digit : Nat) : List UInt8 :=
  let (bytes, carry) := timesTen digit magnitude
  if 0 < carry then carry.toUInt8 :: bytes else bytes

/-- Add one, from the least significant byte on, and stop where nothing is carried; a carry out of the top
is discarded. -/
def incrementFrom : List UInt8 → List UInt8 × Bool
  | [] => ([], true)
  | byte :: rest =>
    let (rest, carried) := incrementFrom rest
    if carried then ((byte + 1) :: rest, byte + 1 = 0) else (byte :: rest, false)

def increment (bytes : List UInt8) : List UInt8 := (incrementFrom bytes).1

def complement (bytes : List UInt8) : List UInt8 := bytes.map fun byte => ~~~byte

/-- Drop the sign bytes of a negative number that carry no information. -/
def trimSign : List UInt8 → List UInt8
  | first :: second :: rest =>
    if first = 0xff ∧ second &&& 0x80 ≠ 0 then trimSign (second :: rest) else first :: second :: rest
  | bytes => bytes

def stripSign : List Char → Bool × List Char
  | '-' :: rest => (true, rest)
  | digits => (false, digits)

/-- The canonical bytes of a decimal text; `none` if it is not an integer. -/
def encode (decimal : String) : Option (List UInt8) :=
  let (negative, digits) := stripSign decimal.toList
  if digits.isEmpty || !digits.all Char.isDigit then none
  else
    let magnitude := (digits.map fun c => c.toNat - '0'.toNat).foldl pushDigit []
    match magnitude.dropWhile (· = 0) with
    | [] => some []
    | first :: rest =>
      if negative then some (trimSign (increment (complement (0 :: first :: rest))))
      -- A first byte with its top bit set would read back as a negative number.
      else if first &&& 0x80 ≠ 0 then some (0 :: first :: rest)
      else some (first :: rest)

/-! ### To decimal -/

/-- Divide by ten, from the most significant byte on; the remainder comes second. -/
def divTen (remainder : Nat) : List UInt8 → List UInt8 × Nat
  | [] => ([], remainder)
  | byte :: rest =>
    let current := (remainder <<< 8) ||| byte.toNat
    let (rest, remainder) := divTen (current % 10) rest
    ((current / 10).toUInt8 :: rest, remainder)

theorem magnitudeOf_cons (byte : UInt8) (rest : List UInt8) :
    magnitudeOf (byte :: rest) = byte.toNat * 256 ^ rest.length + magnitudeOf rest := by
  rw [magnitudeOf, List.map_cons, Positional.value_cons, List.length_map]
  rfl

theorem divTen_spec {remainder : Nat} (h : remainder < 10) (bytes : List UInt8) :
    magnitudeOf (divTen remainder bytes).1 * 10 + (divTen remainder bytes).2 =
        remainder * 256 ^ bytes.length + magnitudeOf bytes ∧
      (divTen remainder bytes).1.length = bytes.length ∧ (divTen remainder bytes).2 < 10 := by
  induction bytes generalizing remainder with
  | nil => simp [divTen, magnitudeOf, h]
  | cons byte rest ih =>
    have hcurrent : (remainder <<< 8) ||| byte.toNat = remainder * 256 + byte.toNat := by
      rw [← Nat.shiftLeft_add_eq_or_of_lt (i := 8) byte.toNat_lt, Nat.shiftLeft_eq]
    obtain ⟨hvalue, hlength, hlt⟩ := ih (Nat.mod_lt (remainder * 256 + byte.toNat) (by decide : 10 > 0))
    have hbyte := byte.toNat_lt
    have hquotient : ((remainder * 256 + byte.toNat) / 10).toUInt8.toNat =
        (remainder * 256 + byte.toNat) / 10 := by
      simp only [Nat.toUInt8_eq, UInt8.toNat_ofNat']
      omega
    simp only [divTen, hcurrent, magnitudeOf_cons, hquotient, hlength, List.length_cons, pow_succ]
    refine ⟨?_, trivial, hlt⟩
    generalize hcur : remainder * 256 + byte.toNat = current at hvalue ⊢
    calc (current / 10 * 256 ^ rest.length + magnitudeOf (divTen (current % 10) rest).1) * 10 +
          (divTen (current % 10) rest).2
        = 10 * (current / 10) * 256 ^ rest.length + (magnitudeOf (divTen (current % 10) rest).1 * 10 +
            (divTen (current % 10) rest).2) := by ring
      _ = (10 * (current / 10) + current % 10) * 256 ^ rest.length + magnitudeOf rest := by
        rw [hvalue]
        ring
      _ = remainder * (256 ^ rest.length * 256) + (byte.toNat * 256 ^ rest.length + magnitudeOf rest) := by
        rw [Nat.div_add_mod, ← hcur]
        ring

theorem magnitudeOf_eq_zero {bytes : List UInt8} : magnitudeOf bytes = 0 ↔ ∀ byte ∈ bytes, byte = 0 := by
  induction bytes with
  | nil => simp [magnitudeOf]
  | cons byte rest ih =>
    have hpos : 256 ^ rest.length ≠ 0 := (Nat.pow_pos (by decide)).ne'
    rw [magnitudeOf_cons, Nat.add_eq_zero_iff, ih, Nat.mul_eq_zero, List.forall_mem_cons]
    simp only [hpos, or_false, and_congr_left_iff]
    exact fun _ => UInt8.toNat_inj (b := 0)

theorem any_ne_zero {bytes : List UInt8} : bytes.any (· ≠ 0) = true ↔ magnitudeOf bytes ≠ 0 := by
  rw [Ne, magnitudeOf_eq_zero]
  simp

theorem divTen_zero (bytes : List UInt8) :
    magnitudeOf (divTen 0 bytes).1 = magnitudeOf bytes / 10 ∧
      (divTen 0 bytes).2 = magnitudeOf bytes % 10 := by
  obtain ⟨hvalue, -, hlt⟩ := divTen_spec (by decide : 0 < 10) bytes
  omega

/-- The decimal digits of a number, least significant first. -/
def digitsOf (value : List UInt8) : List Char :=
  if value.any (· ≠ 0) then
    Char.ofNat ('0'.toNat + (divTen 0 value).2) :: digitsOf (divTen 0 value).1
  else []
termination_by magnitudeOf value
decreasing_by
  rename_i h
  rw [(divTen_zero value).1]
  exact Nat.div_lt_self (Nat.pos_of_ne_zero (any_ne_zero.1 h)) (by decide)

def decode (bytes : List UInt8) : String :=
  match bytes with
  | [] => "0"
  | first :: rest =>
    if (first :: rest).all (· = 0) then "0"
    else
      let negative : Bool := first &&& 0x80 ≠ 0
      let value := if negative then increment (complement (first :: rest)) else first :: rest
      let digits := digitsOf value
      String.ofList (if negative then digits ++ ['-'] else digits).reverse

end BigInt

end BorgCore
