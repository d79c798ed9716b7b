import Mathlib.Data.List.Basic

/-!
# Text as bytes

UTF-8, and its reading that never fails: where the bytes are no text, as many of them as could still have
started a character are replaced by one that says so.
-/

namespace BorgCore

namespace Utf8

def encode (text : List Char) : List UInt8 := text.flatMap String.utf8EncodeChar

def decodeChar (bytes : List UInt8) : Option Char := bytes.toByteArray.utf8DecodeChar? 0

def continues (byte : UInt8) : Bool := byte &&& 0xc0 = 0x80

/-- Whether the second byte can follow the first one of a character of three or four. -/
def follows (first second : UInt8) : Bool :=
  continues second && ((first = 0xe0 && 0xa0 ≤ second) || (0xe1 ≤ first && first ≤ 0xec) ||
    (first = 0xed && second ≤ 0x9f) || (first = 0xee) || (first = 0xef) || (first = 0xf0 && 0x90 ≤ second) ||
    (0xf1 ≤ first && first ≤ 0xf3) || (first = 0xf4 && second ≤ 0x8f))

/-- How many bytes after the first could have been of its character, which the bytes break off. -/
def broken (first : UInt8) : List UInt8 → Nat
  | [] => 0
  | second :: rest =>
    if follows first second then
      if 0xf0 ≤ first && (rest.head?.any continues) then 2 else 1
    else 0

/-- The text that some bytes are, with a replacement for what is none. -/
def lossy (bytes : List UInt8) : List Char :=
  match bytes with
  | [] => []
  | first :: rest =>
    match decodeChar (first :: rest) with
    | some c => c :: lossy (rest.drop (c.utf8Size - 1))
    | none => '\uFFFD' :: lossy (rest.drop (broken first rest))
termination_by bytes.length
decreasing_by
  all_goals
    rw [List.length_drop, List.length_cons]
    omega

@[simp] theorem encode_cons (c : Char) (text : List Char) :
    encode (c :: text) = String.utf8EncodeChar c ++ encode text := rfl

@[simp] theorem encode_append (text more : List Char) : encode (text ++ more) = encode text ++ encode more :=
  List.flatMap_append ..

theorem decodeChar_encode (c : Char) (rest : List UInt8) :
    decodeChar (String.utf8EncodeChar c ++ rest) = some c := by
  rw [decodeChar, List.toByteArray_append]
  exact ByteArray.utf8DecodeChar?_utf8EncodeChar_append

theorem lossy_encode (text : List Char) : lossy (encode text) = text := by
  induction text with
  | nil => rw [encode, List.flatMap_nil, lossy]
  | cons c text ih =>
    have hlength := String.length_utf8EncodeChar c
    have hread := decodeChar_encode c (encode text)
    rw [encode_cons]
    cases hbytes : String.utf8EncodeChar c with
    | nil =>
      rw [hbytes, List.length_nil] at hlength
      exact absurd hlength (Nat.ne_of_lt c.utf8Size_pos)
    | cons first rest =>
      rw [hbytes, List.length_cons] at hlength
      rw [hbytes, List.cons_append] at hread
      rw [List.cons_append, lossy, hread]
      simp only
      rw [show c.utf8Size - 1 = rest.length by omega, List.drop_left, ih]

/-! ### White space -/

/-- A character of Unicode's `White_Space`. -/
def isWhite (c : Char) : Bool :=
  c.toNat ∈ [0x9, 0xa, 0xb, 0xc, 0xd, 0x20, 0x85, 0xa0, 0x1680, 0x2028, 0x2029, 0x202f, 0x205f, 0x3000] ||
    0x2000 ≤ c.toNat && c.toNat ≤ 0x200a

/-- A text without the white space at its ends. -/
def trimmed (text : String) : List Char := ((text.toList.dropWhile isWhite).reverse.dropWhile isWhite).reverse

end Utf8

end BorgCore
