import BorgCore.Core.Literal

/-!
# What is printed, read again

Each form of a value is read from the text it is printed as.  Only an untyped field can tell a double by
nothing but its text, and one without a fraction is printed as the integer that it is not.
-/

namespace BorgCore

namespace Parse

variable {doubles : Doubles} {ty : ValueType} {text : String} {chars digits : List Char} {branch : BranchId}
  {allocator : AllocatorId} {input : ValueInput} {bytes : List UInt8} {bits : UInt64}

/-! ### Numbers -/

/-- A character of a number in any of its forms. -/
def Numeral (c : Char) : Prop := c.isDigit = true ∨ c ∈ ['+', '-', '.', 'e', 'E']

theorem Numeral.ne {c d : Char} (h : Numeral c) (hdigit : d.isDigit = false)
    (hsign : d ∉ ['+', '-', '.', 'e', 'E']) : c ≠ d := by
  rintro rfl
  rcases h with h | h
  · rw [hdigit] at h
    cases h
  · exact hsign h

theorem numeral_toString (n : Int) : ∀ c ∈ (toString n).toList, Numeral c := by
  intro c hc
  obtain ⟨negative, digits, htext, -, hdigits, -⟩ := BigInt.denotes_toString n
  rw [htext] at hc
  rcases List.mem_append.1 hc with hc | hc
  · cases negative with
    | false => cases hc
    | true => exact Or.inr (by rw [List.mem_singleton.1 hc]; decide)
  · exact Or.inl (hdigits c hc)

theorem dropPrefix?_eq_none {word : List Char} {c : Char} (hc : c ∈ word) (h : c ∉ chars) :
    chars.dropPrefix? word = none := by
  cases heq : chars.dropPrefix? word with
  | none => rfl
  | some rest =>
    obtain ⟨word', rfl, hword⟩ := List.dropPrefix?_eq_some_iff.1 heq
    rw [eq_of_beq hword] at h
    exact absurd (List.mem_append_left _ hc) h

theorem dropSuffix?_eq_none {c : Char} (h : c ∉ chars) : chars.dropSuffix? [c] = none := by
  cases heq : chars.dropSuffix? [c] with
  | none => rfl
  | some rest =>
    obtain ⟨word, rfl, hword⟩ := List.dropSuffix?_eq_some_iff.1 heq
    rw [eq_of_beq hword] at h
    exact absurd (List.mem_append_right _ (List.mem_singleton_self c)) h

/-- A numeral is none of the forms before the numbers, unless an `n` ends it. -/
theorem value_of_numeral (h : ∀ c ∈ text.toList, Numeral c) :
    value doubles text branch allocator = numberOrWord doubles text := by
  have hnot {c : Char} (hdigit : c.isDigit = false) (hsign : c ∉ ['+', '-', '.', 'e', 'E']) :
      c ∉ text.toList := fun hc => (h c hc).ne hdigit hsign rfl
  have htrue : text ≠ "true" := by
    rintro rfl
    exact hnot (c := 't') (by decide) (by decide) (by decide)
  have hfalse : text ≠ "false" := by
    rintro rfl
    exact hnot (c := 'f') (by decide) (by decide) (by decide)
  have htilde : text ≠ "~" := by
    rintro rfl
    exact hnot (c := '~') (by decide) (by decide) (by decide)
  have hat : text.toList.dropPrefix? ['@'] = none :=
    dropPrefix?_eq_none (c := '@') (by decide) (hnot (by decide) (by decide))
  have hx : text.toList.dropPrefix? ['0', 'x'] = none :=
    dropPrefix?_eq_none (c := 'x') (by decide) (hnot (by decide) (by decide))
  have hn : text.toList.dropSuffix? ['n'] = none := dropSuffix?_eq_none (hnot (by decide) (by decide))
  simp only [value, if_neg htrue, if_neg hfalse, if_neg htilde, hat, hx, hn, Option.bind_none]

/-! ### Signs, digits and points -/

theorem isIntegerLiteral_digits {sign : List Char} (hne : digits ≠ [])
    (hdigits : ∀ c ∈ digits, c.isDigit = true) (hsign : sign = [] ∨ sign = ['+'] ∨ sign = ['-']) :
    isIntegerLiteral (sign ++ digits) = true := by
  have hall : (!digits.isEmpty && digits.all Char.isDigit) = true := by
    rw [Bool.and_eq_true, Bool.not_eq_true', List.isEmpty_eq_false_iff, List.all_eq_true]
    exact ⟨hne, hdigits⟩
  rcases hsign with rfl | rfl | rfl
  · rw [List.nil_append]
    unfold isIntegerLiteral
    split
    · exact absurd (hdigits '+' List.mem_cons_self) (by decide)
    · exact absurd (hdigits '-' List.mem_cons_self) (by decide)
    · exact hall
  · exact hall
  · exact hall

theorem isIntegerLiteral_of_parseI64 {n : Int64} (h : Number.parseI64 chars = some n) :
    isIntegerLiteral chars = true := by
  have hread {rest : List Char} {p : Nat → Bool} {f : Nat → Int64}
      (h : ((Number.digitsOf rest).filter p).map f = some n) : rest ≠ [] ∧ ∀ c ∈ rest, c.isDigit = true := by
    obtain ⟨number, hnumber, -⟩ := Option.map_eq_some_iff.1 h
    obtain ⟨hne, hdigits, -⟩ := Number.digitsOf_eq_some.1 (Option.filter_eq_some_iff.1 hnumber).1
    exact ⟨hne, hdigits⟩
  unfold Number.parseI64 at h
  split at h
  · obtain ⟨hne, hdigits⟩ := hread h
    exact @isIntegerLiteral_digits _ ['-'] hne hdigits (by simp)
  · obtain ⟨hne, hdigits⟩ := hread h
    exact @isIntegerLiteral_digits _ ['+'] hne hdigits (by simp)
  · obtain ⟨hne, hdigits⟩ := hread h
    exact @isIntegerLiteral_digits _ [] hne hdigits (by simp)

theorem isIntegerLiteral_point (h : '.' ∈ chars) : isIntegerLiteral chars = false := by
  have hrest {rest : List Char} (h : '.' ∈ rest) : (!rest.isEmpty && rest.all Char.isDigit) = false := by
    have hall : rest.all Char.isDigit = false := by
      rw [List.all_eq_false]
      exact ⟨'.', h, by decide⟩
    rw [hall, Bool.and_false]
  unfold isIntegerLiteral
  split
  · exact hrest (by simpa using h)
  · exact hrest (by simpa using h)
  · exact hrest h

theorem parseI64_point (h : '.' ∈ chars) : Number.parseI64 chars = none := by
  cases heq : Number.parseI64 chars with
  | none => rfl
  | some n =>
    have hliteral := isIntegerLiteral_of_parseI64 heq
    rw [isIntegerLiteral_point h] at hliteral
    cases hliteral

/-! ### Each form -/

variable {hash : List UInt8 → Vector UInt8 32} {pid : Pid}

theorem ofList_ne {word : String} {c : Char} (hc : c ∈ chars) (hnot : c ∉ word.toList) :
    String.ofList chars ≠ word := by
  rintro rfl
  rw [String.toList_ofList] at hnot
  exact hnot hc

theorem dropPrefix?_append (word rest : List Char) : (word ++ rest).dropPrefix? word = some rest :=
  List.dropPrefix?_append_of_beq rest (beq_self_eq_true word)

theorem valueAs_tilde : valueAs doubles ty "~" branch allocator = .ok (.immediate .tombstone) :=
  if_pos rfl

theorem reference_sized (hb : branch < 2 ^ 64) (ha : allocator < 2 ^ 32)
    (h : reference chars text branch allocator = .ok input) :
    ∃ pid, input = .immediate (.ref pid) ∧ pid.Sized := by
  unfold reference at h
  split at h
  · rename_i pid hpid
    cases h
    exact ⟨pid, rfl, Pid.sized_of_fromStr hpid⟩
  · split at h
    · rename_i cell hcell
      cases h
      exact ⟨cell.pid, rfl, (addressed_of_cellRef hb ha hcell).1⟩
    · cases h

variable (doubles branch allocator) in
/-- A reference is printed as its PID, and is read from that wherever a reference is. -/
theorem renderRef_read (h : pid.Sized) :
    ∃ text, renderRef pid = some text ∧
      value doubles text branch allocator = .ok (.immediate (.ref pid)) ∧
      ∀ ty, (∃ name, ty = .object name) ∨ (∃ element, ty = .list element) →
        valueAs doubles ty text branch allocator = .ok (.immediate (.ref pid)) := by
  obtain ⟨id, hdisplay, hread, -⟩ := Pid.display_plain h
  have hreference (input : String) :
      reference id.toList input branch allocator = .ok (.immediate (.ref pid)) := by
    simp only [reference, String.ofList_toList, hread]
  have hsigil : (String.ofList ('@' :: id.toList)).toList.dropPrefix? ['@'] = some id.toList := by
    rw [String.toList_ofList]
    exact dropPrefix?_append ['@'] id.toList
  have hne (word : String) (h : '@' ∉ word.toList) : String.ofList ('@' :: id.toList) ≠ word :=
    ofList_ne List.mem_cons_self h
  refine ⟨_, by rw [renderRef, hdisplay, Option.map_some], ?_, ?_⟩
  · rw [value, if_neg (hne _ (by decide)), if_neg (hne _ (by decide)), if_neg (hne _ (by decide)), hsigil]
    exact hreference _
  · rintro ty (⟨name, rfl⟩ | ⟨element, rfl⟩)
    · simp only [valueAs, if_neg (hne "~" (by decide)), hsigil]
      exact hreference _
    · simp only [valueAs, if_neg (hne "~" (by decide)), hsigil]
      exact hreference _

def hexByte (digit : UInt8) : UInt8 := (hexChar digit).val.toUInt8

theorem hex_byte (byte : UInt8) :
    Utf8.encode (hex [byte]) = [hexByte (byte >>> 4), hexByte (byte &&& 0xf)] ∧
      hexDigit (hexByte (byte >>> 4)) = some (byte >>> 4) ∧
      hexDigit (hexByte (byte &&& 0xf)) = some (byte &&& 0xf) ∧
      byte >>> 4 <<< 4 ||| byte &&& 0xf = byte := by
  have hall : ∀ n < 256, Utf8.encode (hex [UInt8.ofNat n]) =
        [hexByte (UInt8.ofNat n >>> 4), hexByte (UInt8.ofNat n &&& 0xf)] ∧
      hexDigit (hexByte (UInt8.ofNat n >>> 4)) = some (UInt8.ofNat n >>> 4) ∧
      hexDigit (hexByte (UInt8.ofNat n &&& 0xf)) = some (UInt8.ofNat n &&& 0xf) ∧
      UInt8.ofNat n >>> 4 <<< 4 ||| UInt8.ofNat n &&& 0xf = UInt8.ofNat n := by decide +kernel
  have hbyte := hall byte.toNat byte.toNat_lt
  rwa [UInt8.ofNat_toNat] at hbyte

theorem octets_hex_cons (byte : UInt8) (rest : List UInt8) :
    octets (Utf8.encode (hex [byte]) ++ rest) = (octets rest).map (byte :: ·) := by
  obtain ⟨hbytes, hhigh, hlow, hsame⟩ := hex_byte byte
  simp only [hbytes, List.cons_append, List.nil_append, octets, hhigh, hlow, Option.bind_eq_bind,
    Option.bind_some, hsame]
  cases octets rest <;> rfl

theorem unhex_hex (bytes : List UInt8) : unhex (hex bytes) = some bytes := by
  induction bytes with
  | nil => rfl
  | cons byte rest ih =>
    have hsplit : Utf8.encode (hex (byte :: rest)) = Utf8.encode (hex [byte]) ++ Utf8.encode (hex rest) := by
      rw [← Utf8.encode_append]
      rfl
    rw [unhex, hsplit, octets_hex_cons]
    rw [unhex] at ih
    rw [ih, Option.map_some]

theorem binary_read (bytes : List UInt8) :
    value doubles (String.ofList ('0' :: 'x' :: hex bytes)) branch allocator = .ok (.content .binary bytes) ∧
      valueAs doubles .binary (String.ofList ('0' :: 'x' :: hex bytes)) branch allocator =
        .ok (.content .binary bytes) := by
  have hne (word : String) (h : 'x' ∉ word.toList) : String.ofList ('0' :: 'x' :: hex bytes) ≠ word :=
    ofList_ne (by simp) h
  have hsigil : ('0' :: 'x' :: hex bytes).dropPrefix? ['0', 'x'] = some (hex bytes) :=
    dropPrefix?_append ['0', 'x'] (hex bytes)
  have hat : ('0' :: 'x' :: hex bytes).dropPrefix? ['@'] = none := rfl
  constructor
  · rw [value, if_neg (hne _ (by decide)), if_neg (hne _ (by decide)), if_neg (hne _ (by decide)),
      String.toList_ofList, hat]
    simp only [hsigil, unhex_hex]
  · simp only [valueAs, if_neg (hne "~" (by decide)), String.toList_ofList, hsigil,
      Option.bind_some, unhex_hex]

variable (doubles branch allocator) in
/-- A big integer is read with its suffix, whatever the type leaves to guess. -/
theorem bigInt_read {decimal : String} (h : BigInt.encode decimal = some bytes) :
    value doubles (String.ofList ((BigInt.decode bytes).toList ++ ['n'])) branch allocator =
        .ok (.content .bigInt bytes) ∧
      valueAs doubles .bigInt (String.ofList ((BigInt.decode bytes).toList ++ ['n'])) branch allocator =
        .ok (.content .bigInt bytes) := by
  have hdecode := BigInt.encode_decode h
  have hnumeral : ∀ c ∈ (BigInt.decode bytes).toList, Numeral c := by
    rw [BigInt.decode_eq]
    exact numeral_toString _
  generalize BigInt.decode bytes = decimal at hdecode hnumeral
  have hne (word : String) (h : 'n' ∉ word.toList) : String.ofList (decimal.toList ++ ['n']) ≠ word :=
    ofList_ne (by simp) h
  have hnot {c : Char} (hdigit : c.isDigit = false) (hsign : c ∉ ['+', '-', '.', 'e', 'E']) (hn : c ≠ 'n') :
      c ∉ decimal.toList ++ ['n'] := by
    rw [List.mem_append, List.mem_singleton]
    rintro (hc | rfl)
    · exact (hnumeral c hc).ne hdigit hsign rfl
    · exact hn rfl
  have hat : (decimal.toList ++ ['n']).dropPrefix? ['@'] = none :=
    dropPrefix?_eq_none (c := '@') (by decide) (hnot (by decide) (by decide) (by decide))
  have hx : (decimal.toList ++ ['n']).dropPrefix? ['0', 'x'] = none :=
    dropPrefix?_eq_none (c := 'x') (by decide) (hnot (by decide) (by decide) (by decide))
  have hsuffix : (decimal.toList ++ ['n']).dropSuffix? ['n'] = some decimal.toList :=
    List.dropSuffix?_eq_some_iff.2 ⟨['n'], rfl, beq_self_eq_true _⟩
  constructor
  · rw [value, if_neg (hne _ (by decide)), if_neg (hne _ (by decide)), if_neg (hne _ (by decide)),
      String.toList_ofList]
    simp only [hat, hx, hsuffix, Option.bind_some, String.ofList_toList, hdecode]
  · simp only [valueAs, if_neg (hne "~" (by decide)), String.toList_ofList, hsuffix,
      Option.getD_some, String.ofList_toList, hdecode]

variable (doubles branch allocator) in
theorem int_read (n : Int64) :
    value doubles (toString n.toInt) branch allocator = .ok (.immediate (.int n)) ∧
      valueAs doubles .int (toString n.toInt) branch allocator = .ok (.immediate (.int n)) := by
  have hread := Number.parseI64_toString n
  have htilde : toString n.toInt ≠ "~" := by
    intro heq
    rw [heq] at hread
    cases hread
  constructor
  · rw [value_of_numeral (numeral_toString n.toInt), numberOrWord, hread]
  · simp only [valueAs, if_neg htilde, hread]

/-! ### Doubles -/

/-- Digits after a minus at most, and digits after a point at most. -/
def Decimal (text : List Char) : Prop :=
  ∃ (sign whole fraction : List Char), text = sign ++ whole ++ fraction ∧ (sign = [] ∨ sign = ['-']) ∧
    whole ≠ [] ∧ (∀ c ∈ whole, c.isDigit = true) ∧
    (fraction = [] ∨ ∃ digits, fraction = '.' :: digits ∧ ∀ c ∈ digits, c.isDigit = true)

/-- What the standard library says of doubles: a finite one is printed in decimal, and that is read as it;
the others are printed as words; and what is read from a text that is no word is a numeral. -/
structure Standard (doubles : Doubles) : Prop where
  reads : ∀ bits, isFinite bits = true → doubles.parse (doubles.display bits) = some bits
  prints : ∀ bits, isFinite bits = true → Decimal (doubles.display bits).toList
  words : ∀ bits, isFinite bits = false → doubles.display bits ∈ ["inf", "-inf", "NaN"]
  numerals : ∀ text bits, doubles.parse text = some bits → looksNumeric text.toList = true →
    ∀ c ∈ text.toList, Numeral c

theorem Decimal.numeral (h : Decimal chars) : ∀ c ∈ chars, Numeral c := by
  obtain ⟨sign, whole, fraction, rfl, hsign, -, hwhole, hfraction⟩ := h
  intro c hc
  rcases List.mem_append.1 hc with hc | hc
  · rcases List.mem_append.1 hc with hc | hc
    · rcases hsign with rfl | rfl
      · cases hc
      · exact Or.inr (by rw [List.mem_singleton.1 hc]; decide)
    · exact Or.inl (hwhole c hc)
  · rcases hfraction with rfl | ⟨digits, rfl, hdigits⟩
    · cases hc
    · rcases List.mem_cons.1 hc with rfl | hc
      · exact Or.inr (by decide)
      · exact Or.inl (hdigits c hc)

theorem Decimal.looksNumeric (h : Decimal chars) : looksNumeric chars = true := by
  obtain ⟨sign, whole, fraction, rfl, hsign, hne, hwhole, -⟩ := h
  obtain ⟨first, rest, rfl⟩ := List.exists_cons_of_ne_nil hne
  have hfirst := hwhole first List.mem_cons_self
  rcases hsign with rfl | rfl <;> simp [Parse.looksNumeric, hfirst]

theorem Decimal.isIntegerLiteral (h : Decimal chars) (hpoint : '.' ∉ chars) :
    isIntegerLiteral chars = true := by
  obtain ⟨sign, whole, fraction, rfl, hsign, hne, hwhole, rfl | ⟨digits, rfl, -⟩⟩ := h
  · rw [List.append_nil]
    exact isIntegerLiteral_digits hne hwhole (hsign.imp_right Or.inr)
  · exact absurd (List.mem_append_right _ List.mem_cons_self) hpoint

theorem double_read (hd : Standard doubles) (hfinite : isFinite bits = true)
    (hpoint : '.' ∈ (doubles.display bits).toList) :
    value doubles (doubles.display bits) branch allocator = .ok (.immediate (.double bits)) := by
  have hdecimal := hd.prints bits hfinite
  rw [value_of_numeral hdecimal.numeral, numberOrWord, parseI64_point hpoint]
  simp only [isIntegerLiteral_point hpoint, Bool.false_eq_true, if_false, hdecimal.looksNumeric, if_true,
    hd.reads bits hfinite]

theorem numberOrWord_integer (hliteral : isIntegerLiteral text.toList = true) :
    numberOrWord doubles text ≠ .ok (.immediate (.double bits)) := by
  unfold numberOrWord
  split
  · simp
  · rw [if_pos hliteral]
    simp

/-- One that is printed without is read as something else: an integer, or a word. -/
theorem double_lost (hd : Standard doubles) (hpoint : '.' ∉ (doubles.display bits).toList) :
    value doubles (doubles.display bits) branch allocator ≠ .ok (.immediate (.double bits)) := by
  cases hfinite : isFinite bits with
  | true =>
    have hdecimal := hd.prints bits hfinite
    rw [value_of_numeral hdecimal.numeral]
    exact numberOrWord_integer (hdecimal.isIntegerLiteral hpoint)
  | false =>
    have hwords := hd.words bits hfinite
    generalize doubles.display bits = word at hwords
    have hword : value doubles word branch allocator = .ok (.string word) := by
      simp only [List.mem_cons, List.not_mem_nil, or_false] at hwords
      rcases hwords with rfl | rfl | rfl <;> rfl
    rw [hword]
    intro h
    cases h

/-- What an untyped parse can find in a text. -/
inductive Reading (doubles : Doubles) (text : String) : ValueInput → Prop
  | bool (b : Bool) : Reading doubles text (.immediate (.bool b))
  | tombstone : Reading doubles text (.immediate .tombstone)
  | ref {pid : Pid} : pid.Sized → Reading doubles text (.immediate (.ref pid))
  | binary (bytes : List UInt8) : Reading doubles text (.content .binary bytes)
  | bigInt {decimal : String} {bytes : List UInt8} : BigInt.encode decimal = some bytes →
      Reading doubles text (.content .bigInt bytes)
  | int (n : Int64) : Reading doubles text (.immediate (.int n))
  | double {bits : UInt64} : isIntegerLiteral text.toList = false → looksNumeric text.toList = true →
      doubles.parse text = some bits → Reading doubles text (.immediate (.double bits))
  | string : Reading doubles text (.string text)

theorem reading_numberOrWord (h : numberOrWord doubles text = .ok input) : Reading doubles text input := by
  unfold numberOrWord at h
  split at h
  · cases h
    exact .int _
  · split at h
    · cases h
    · rename_i hliteral
      split at h
      · rename_i bits hbits
        cases h
        split at hbits
        · rename_i hnumeric
          exact .double (Bool.not_eq_true _ ▸ hliteral) hnumeric hbits
        · cases hbits
      · cases h
        exact .string

theorem reading_of_value (hb : branch < 2 ^ 64) (ha : allocator < 2 ^ 32)
    (h : value doubles text branch allocator = .ok input) : Reading doubles text input := by
  unfold value at h
  split at h
  · cases h
    exact .bool true
  · split at h
    · cases h
      exact .bool false
    · split at h
      · cases h
        exact .tombstone
      · split at h
        · obtain ⟨pid, rfl, hsized⟩ := reference_sized hb ha h
          exact .ref hsized
        · split at h
          · split at h
            · cases h
              exact .binary _
            · cases h
          · split at h
            · rename_i bytes hbytes
              cases h
              obtain ⟨digits, -, hencode⟩ := Option.bind_eq_some_iff.1 hbytes
              exact .bigInt hencode
            · exact reading_numberOrWord h

/-! ### Every text -/

/-- The types that give the parse nothing to go by. -/
def untyped : ValueType → Bool
  | .any | .anyNumber | .anyObject | .anyArray => true
  | _ => false

/-- The text is a decimal and no integer, and the double it is read as is printed without a point. -/
def LosesPoint (doubles : Doubles) (text : String) : Prop :=
  isIntegerLiteral text.toList = false ∧ looksNumeric text.toList = true ∧
    ∃ bits, doubles.parse text = some bits ∧ '.' ∉ (doubles.display bits).toList

/-- What is printed for the input is read as the input again. -/
def ReadBack (doubles : Doubles) (hash : List UInt8 → Vector UInt8 32) (ty : ValueType) (branch : BranchId)
    (allocator : AllocatorId) (input : ValueInput) : Prop :=
  ∃ printed, input.print doubles hash = some printed ∧
    valueAs doubles ty printed branch allocator = .ok input

theorem valueAs_untyped (h : untyped ty = true) :
    valueAs doubles ty text branch allocator = value doubles text branch allocator := by
  by_cases htilde : text = "~"
  · subst htilde
    rw [valueAs_tilde]
    rfl
  · cases ty with
    | any | anyNumber | anyObject | anyArray => simp only [valueAs, if_neg htilde]
    | _ => cases h

theorem value_of_losesPoint (hd : Standard doubles) (hliteral : isIntegerLiteral text.toList = false)
    (hnumeric : looksNumeric text.toList = true) (hparse : doubles.parse text = some bits) :
    value doubles text branch allocator = .ok (.immediate (.double bits)) := by
  have hnone : Number.parseI64 text.toList = none := by
    cases heq : Number.parseI64 text.toList with
    | none => rfl
    | some n =>
      rw [isIntegerLiteral_of_parseI64 heq] at hliteral
      cases hliteral
  rw [value_of_numeral (hd.numerals text bits hparse hnumeric), numberOrWord, hnone]
  simp only [hliteral, Bool.false_eq_true, if_false, hnumeric, if_true, hparse]

theorem string_print (text : String) : (ValueInput.string text).print doubles hash = some text := by
  simp only [ValueInput.string, ValueInput.print, renderInterned, Pid.kind, Utf8.lossy_encode,
    String.ofList_toList]

theorem not_losesPoint (hlost : LosesPoint doubles text → ∃ bits, input = .immediate (.double bits) ∧
    '.' ∉ (doubles.display bits).toList) (h : ∀ bits, input ≠ .immediate (.double bits)) :
    ¬ LosesPoint doubles text := fun hloses => by
  obtain ⟨bits, heq, -⟩ := hlost hloses
  exact h bits heq

/-- Read against no type, what was printed is read back but for a double that lost its point. -/
theorem readBack_untyped (hd : Standard doubles) (hb : branch < 2 ^ 64) (ha : allocator < 2 ^ 32)
    (hty : untyped ty = true) (h : value doubles text branch allocator = .ok input) :
    ReadBack doubles hash ty branch allocator input ↔ ¬ LosesPoint doubles text := by
  have hlost : LosesPoint doubles text → ∃ bits, input = .immediate (.double bits) ∧
      '.' ∉ (doubles.display bits).toList := by
    rintro ⟨hliteral, hnumeric, bits, hparse, hpoint⟩
    rw [value_of_losesPoint hd hliteral hnumeric hparse] at h
    cases h
    exact ⟨bits, rfl, hpoint⟩
  simp only [ReadBack, valueAs_untyped hty]
  cases reading_of_value hb ha h with
  | double hliteral hnumeric hparse =>
    rename_i bits
    constructor
    · rintro ⟨printed, hprint, hread⟩ hloses
      obtain ⟨bits', heq, hpoint⟩ := hlost hloses
      cases heq
      obtain rfl : doubles.display bits = printed := Option.some.inj hprint
      exact double_lost hd hpoint hread
    · intro hkept
      have hpoint : '.' ∈ (doubles.display bits).toList := by
        by_contra hpoint
        exact hkept ⟨hliteral, hnumeric, bits, hparse, hpoint⟩
      have hfinite : isFinite bits = true := by
        by_contra hinfinite
        have hword := hd.words bits (Bool.not_eq_true _ ▸ hinfinite)
        generalize doubles.display bits = word at hword hpoint
        revert word
        simp
      exact ⟨_, rfl, double_read hd hfinite hpoint⟩
  | string =>
    exact iff_of_true ⟨text, string_print text, h⟩ (not_losesPoint hlost (by simp [ValueInput.string]))
  | bool b =>
    refine iff_of_true ⟨if b then "true" else "false", rfl, ?_⟩ (not_losesPoint hlost (by simp))
    cases b <;> rfl
  | tombstone => exact iff_of_true ⟨"~", rfl, rfl⟩ (not_losesPoint hlost (by simp))
  | ref hsized =>
    obtain ⟨printed, hprint, hread, -⟩ := renderRef_read doubles branch allocator hsized
    exact iff_of_true ⟨printed, hprint, hread⟩ (not_losesPoint hlost (by simp))
  | binary bytes => exact iff_of_true ⟨_, rfl, (binary_read bytes).1⟩ (not_losesPoint hlost (by simp))
  | bigInt hencode =>
    exact iff_of_true ⟨_, rfl, (bigInt_read doubles branch allocator hencode).1⟩ (not_losesPoint hlost (by simp))
  | int n => exact iff_of_true ⟨_, rfl, (int_read doubles branch allocator n).1⟩ (not_losesPoint hlost (by simp))

theorem decimal_ne_tilde (h : Decimal text.toList) : text ≠ "~" := by
  rintro rfl
  exact (h.numeral '~' (by decide)).ne (d := '~') (by decide) (by decide) rfl

/-- Read against a declared type, what was printed is read back. -/
theorem readBack_typed (hd : Standard doubles) (hb : branch < 2 ^ 64) (ha : allocator < 2 ^ 32)
    (hty : untyped ty = false) (h : valueAs doubles ty text branch allocator = .ok input) :
    ReadBack doubles hash ty branch allocator input := by
  by_cases htilde : text = "~"
  · subst htilde
    rw [valueAs_tilde] at h
    cases h
    exact ⟨"~", rfl, valueAs_tilde⟩
  · have hkept := h
    simp only [valueAs, if_neg htilde] at h
    cases ty with
    | any | anyNumber | anyObject | anyArray => cases hty
    | string =>
      cases h
      exact ⟨text, string_print text, hkept⟩
    | int =>
      simp only at h
      split at h
      · rename_i n hn
        cases h
        exact ⟨_, rfl, (int_read doubles branch allocator n).2⟩
      · split at h <;> cases h
    | double =>
      simp only at h
      split at h
      · rename_i bits hbits
        cases h
        have hfinite := (Option.filter_eq_some_iff.1 hbits).2
        refine ⟨_, rfl, ?_⟩
        simp only [valueAs, if_neg (decimal_ne_tilde (hd.prints bits hfinite)), hd.reads bits hfinite,
          Option.filter_some, hfinite, if_true]
      · cases h
    | bool =>
      simp only at h
      split at h
      · cases h
        exact ⟨_, rfl, rfl⟩
      · split at h
        · cases h
          exact ⟨_, rfl, rfl⟩
        · cases h
    | binary =>
      simp only at h
      split at h
      · rename_i bytes hbytes
        cases h
        exact ⟨_, rfl, (binary_read bytes).2⟩
      · cases h
    | bigInt =>
      simp only at h
      split at h
      · rename_i bytes hbytes
        cases h
        exact ⟨_, rfl, (bigInt_read doubles branch allocator hbytes).2⟩
      · cases h
    | object name =>
      simp only at h
      split at h
      · obtain ⟨pid, rfl, hsized⟩ := reference_sized hb ha h
        obtain ⟨printed, hprint, -, hread⟩ := renderRef_read doubles branch allocator hsized
        exact ⟨printed, hprint, hread _ (Or.inl ⟨name, rfl⟩)⟩
      · cases h
    | list element =>
      simp only at h
      split at h
      · obtain ⟨pid, rfl, hsized⟩ := reference_sized hb ha h
        obtain ⟨printed, hprint, -, hread⟩ := renderRef_read doubles branch allocator hsized
        exact ⟨printed, hprint, hread _ (Or.inr ⟨element, rfl⟩)⟩
      · cases h

/-- What is printed is read back, unless nothing but the text could say that it was a double. -/
theorem readBack_iff (hd : Standard doubles) (hb : branch < 2 ^ 64) (ha : allocator < 2 ^ 32)
    (h : valueAs doubles ty text branch allocator = .ok input) :
    ReadBack doubles hash ty branch allocator input ↔ ¬ (untyped ty = true ∧ LosesPoint doubles text) := by
  cases hty : untyped ty with
  | false => exact iff_of_true (readBack_typed hd hb ha hty h) (by simp)
  | true =>
    rw [valueAs_untyped hty] at h
    simpa using readBack_untyped hd hb ha hty h

end Parse

end BorgCore
