import BorgCore.Sdk.Values

/-!
# What is written is read

Both SDKs write what a field holds as one canonical text, the engine reads it as the value and prints it as that
text, and each SDK reads from it what was written, or refuses what its language cannot hold.  An object of a
subclass goes by what it answers of itself, which need not be a spelling of what it is.
-/

namespace BorgCore

namespace Sdk

open Parse

/-- What a field holds, in any language. -/
inductive Datum where
  | string (s : String)
  | int (n : Int)
  | bool (b : Bool)
  | binary (bytes : List UInt8)
  | bigint (n : Int)
  | ref (ref : Ref)
deriving DecidableEq

def Datum.text : Datum → String
  | .string s => s
  | .int n => toString n
  | .bool b => if b then "true" else "false"
  | .binary bytes => String.ofList ('0' :: 'x' :: hex bytes)
  | .bigint n => String.ofList ((toString n).toList ++ ['n'])
  | .ref held => held.text

/-- A field of the type can hold the datum. -/
inductive Holds : FieldType → Datum → Prop
  | string {s : String} : s ≠ "~" → Holds .string (.string s)
  | int {n : Int} : -2 ^ 63 ≤ n → n < 2 ^ 63 → Holds .int (.int n)
  | bool (b : Bool) : Holds .bool (.bool b)
  | binary (bytes : List UInt8) : Holds .binary (.binary bytes)
  | bigint (n : Int) : Holds .bigint (.bigint n)
  | ref {ref : Ref} (struct : ObjectTypeName) : Holds (.ref struct) (.ref ref)
  | list {ref : Ref} (element : ValueType) : Holds (.list element) (.ref ref)

/-- How a field comes by its text: it is the canonical text of what the field then holds, or what an object of a
subclass answers of itself. -/
inductive Written : FieldType → Datum → Option String → String → Prop
  | canonical {ty : FieldType} {datum : Datum} : Holds ty datum → Written ty datum none datum.text
  | string (s : String) : Written .string (.string s) (some s) s
  | int (n : Int) (own : String) : Written .int (.int n) (some own) own
  | bigint (n : Int) (own : String) : Written .bigint (.bigint n) (some own) (own ++ "n")
  | ref (struct : ObjectTypeName) (ref : Ref) (own : String) : Written (.ref struct) (.ref ref) (some own) own
  | list (element : ValueType) (ref : Ref) (own : String) : Written (.list element) (.ref ref) (some own) own

theorem Written.plain {ty : FieldType} {datum : Datum} {text : String} (h : Written ty datum none text) :
    datum.text = text ∧ Holds ty datum := by
  cases h with
  | canonical h => exact ⟨rfl, h⟩

/-- One SDK: its table, what a host value of a field stands for, and what the language can hold. -/
structure Table where
  Host : Type
  encode : FieldType → Host → Except String String
  decode : FieldType → String → Except String Host
  datum : FieldType → Host → Option Datum
  /-- The text that an object of a subclass answers of itself, where the field goes by that text. -/
  own : FieldType → Host → Option String
  CanHold : Datum → Prop

inductive Language where
  | typeScript
  | python
deriving DecidableEq, Repr

namespace TypeScript

def datum : FieldType → Value → Option Datum
  | .string, .string s => some (.string s)
  | .int, .number (.whole n _) => some (.int n)
  | .bool, .boolean b => some (.bool b)
  | .binary, .bytes bytes => some (.binary bytes)
  | .bigint, .bigint n => some (.bigint n)
  | .ref _, .ref ref => some (.ref ref)
  | .list _, .ref ref => some (.ref ref)
  | .ref _, .subRef _ ref _ => some (.ref ref)
  | .list _, .subRef _ ref _ => some (.ref ref)
  | _, _ => none

def own : FieldType → Value → Option String
  | .ref _, .subRef _ _ text => some text
  | .list _, .subRef _ _ text => some text
  | _, _ => none

/-- An `Int` past the safe integers is no number. -/
def CanHold : Datum → Prop
  | .int n => n.natAbs ≤ maxSafeInteger
  | _ => True

def table : Table := ⟨Value, encode, decode, datum, own, CanHold⟩

end TypeScript

namespace Python

def datum : FieldType → Value → Option Datum
  | .string, .str s => some (.string s)
  | .int, .int n => some (.int n)
  | .bool, .bool b => some (.bool b)
  | .binary, .bytes _ bytes => some (.binary bytes)
  | .bigint, .int n => some (.bigint n)
  | .ref _, .ref ref => some (.ref ref)
  | .list _, .ref ref => some (.ref ref)
  | .string, .subStr s _ => some (.string s)
  | .int, .subInt n _ => some (.int n)
  | .bigint, .subInt n _ => some (.bigint n)
  | .ref _, .subRef ref _ => some (.ref ref)
  | .list _, .subRef ref _ => some (.ref ref)
  | _, _ => none

def own : FieldType → Value → Option String
  | .string, .subStr s _ => some s
  | .int, .subInt _ own => own.str.toOption
  | .bigint, .subInt _ own => own.format.toOption
  | .ref _, .subRef _ own => own.str.toOption
  | .list _, .subRef _ own => own.str.toOption
  | _, _ => none

/-- An integer with more digits than the interpreter converts is not read. -/
def CanHold (interpreter : Interpreter) : Datum → Prop
  | .bigint n => interpreter.converts (Nat.toDigits 10 n.natAbs).length = true
  | _ => True

def table (interpreter : Interpreter) : Table :=
  ⟨Value, encode interpreter, decode interpreter, datum, own, CanHold interpreter⟩

end Python

def Language.table (interpreter : Python.Interpreter) : Language → Table
  | .typeScript => TypeScript.table
  | .python => Python.table interpreter

variable {doubles : Doubles} {hash : List UInt8 → Vector UInt8 32} {branch : BranchId} {allocator : AllocatorId}
  {ty : FieldType} {datum : Datum} {text : String} {interpreter : Python.Interpreter} {n : Int}
  {chars : List Char} {bytes : List UInt8} {pid : Pid}

/-! ### What a host writes -/

theorem ofList_append_n (n : Int) : toString n ++ "n" = String.ofList ((toString n).toList ++ ['n']) := by
  rw [← String.toList_inj, String.toList_append]
  simp only [String.toList_ofList]
  rfl

theorem pad_hex (bytes : List UInt8) :
    (bytes.flatMap fun byte => (Nat.toDigits 16 byte.toNat).leftpad 2 '0') = hex bytes := by
  have hall : ∀ n < 256, (Nat.toDigits 16 (UInt8.ofNat n).toNat).leftpad 2 '0' =
      [hexChar (UInt8.ofNat n >>> 4), hexChar (UInt8.ofNat n &&& 0xf)] := by decide +kernel
  refine List.flatMap_congr fun byte _ => ?_
  have hbyte := hall byte.toNat byte.toNat_lt
  rwa [UInt8.ofNat_toNat] at hbyte

theorem TypeScript.encode_spec {value : TypeScript.Value} (h : TypeScript.encode ty value = .ok text) :
    ∃ datum, TypeScript.datum ty value = some datum ∧ Written ty datum (TypeScript.own ty value) text := by
  cases ty <;> cases value <;> simp only [TypeScript.encode] at h <;> try cases h
  · rename_i s
    split at h <;> cases h
    exact ⟨.string text, rfl, .canonical (.string ‹_›)⟩
  · rename_i number
    cases number with
    | other integral text' =>
      split at h
      · cases h
      · cases h
    | whole n short =>
      split at h
      · cases h
      · split at h
        · cases h
        · rename_i hsafe
          cases h
          have hle : n.natAbs ≤ TypeScript.maxSafeInteger := by
            simpa [TypeScript.Number.isSafeInteger] using hsafe
          rw [TypeScript.maxSafeInteger] at hle
          exact ⟨.int n, rfl, .canonical (.int (by omega) (by omega))⟩
  · rename_i b
    have htext : toString b = (Datum.bool b).text := by cases b <;> rfl
    exact ⟨.bool b, rfl, htext ▸ .canonical (.bool b)⟩
  · rename_i bytes
    rw [pad_hex]
    exact ⟨.binary bytes, rfl, .canonical (.binary bytes)⟩
  · rename_i n
    rw [ofList_append_n]
    exact ⟨.bigint n, rfl, .canonical (.bigint n)⟩
  · rename_i struct ref
    exact ⟨.ref ref, rfl, .canonical (.ref struct)⟩
  · rename_i struct _ ref
    exact ⟨.ref ref, rfl, .ref struct ref text⟩
  · rename_i element ref
    exact ⟨.ref ref, rfl, .canonical (.list element)⟩
  · rename_i element _ ref
    exact ⟨.ref ref, rfl, .list element ref text⟩

theorem Python.str_eq (h : interpreter.str n = .ok text) : text = toString n := by
  unfold Python.Interpreter.str at h
  split at h <;> cases h
  rfl

theorem Python.refuse_ne {takes : String} {value : Python.Value} :
    Python.refuse interpreter takes value ≠ .ok text := by
  unfold Python.refuse
  split <;> simp

theorem map_eq_ok {answer : Except String String} {f : String → String} (h : answer.map f = .ok text) :
    ∃ given, answer = .ok given ∧ f given = text := by
  cases answer with
  | error reason => cases h
  | ok given =>
    cases h
    exact ⟨given, rfl, rfl⟩

theorem toOption_eq {answer : Except String String} (h : answer = .ok text) : answer.toOption = some text := by
  rw [h]
  rfl

theorem Python.encode_spec {value : Python.Value} (h : Python.encode interpreter ty value = .ok text) :
    ∃ datum, Python.datum ty value = some datum ∧ Written ty datum (Python.own ty value) text := by
  cases ty <;> cases value <;> simp only [Python.encode] at h <;> try exact absurd h Python.refuse_ne
  · split at h <;> cases h
    exact ⟨.string text, rfl, .canonical (.string ‹_›)⟩
  · rename_i s own
    obtain ⟨isTombstone, -, h⟩ := Calls.except_bind_eq_ok h
    split at h <;> cases h
    exact ⟨.string text, rfl, .string text⟩
  · rename_i n
    split at h
    · rename_i hrange
      rw [Python.str_eq h]
      exact ⟨.int n, rfl, .canonical (.int hrange.1 (by omega))⟩
    · obtain ⟨_, -, h⟩ := Calls.except_bind_eq_ok h
      cases h
  · rename_i n own
    obtain ⟨within, -, h⟩ := Calls.except_bind_eq_ok h
    split at h
    · refine ⟨.int n, rfl, ?_⟩
      rw [Python.own, toOption_eq h]
      exact .int n text
    · obtain ⟨_, -, h⟩ := Calls.except_bind_eq_ok h
      cases h
  · rename_i b
    cases h
    exact ⟨.bool b, rfl, .canonical (.bool b)⟩
  · rename_i bytes
    cases h
    exact ⟨.binary bytes, rfl, .canonical (.binary bytes)⟩
  · rename_i n
    obtain ⟨digits, hstr, rfl⟩ := map_eq_ok h
    rw [Python.str_eq hstr, ofList_append_n]
    exact ⟨.bigint n, rfl, .canonical (.bigint n)⟩
  · rename_i n own
    obtain ⟨digits, hformat, rfl⟩ := map_eq_ok h
    refine ⟨.bigint n, rfl, ?_⟩
    rw [Python.own, toOption_eq hformat]
    exact .bigint n digits
  · rename_i struct ref
    cases h
    exact ⟨.ref ref, rfl, .canonical (.ref struct)⟩
  · rename_i struct ref own
    refine ⟨.ref ref, rfl, ?_⟩
    rw [Python.own, toOption_eq h]
    exact .ref struct ref text
  · rename_i element ref
    cases h
    exact ⟨.ref ref, rfl, .canonical (.list element)⟩
  · rename_i element ref own
    refine ⟨.ref ref, rfl, ?_⟩
    rw [Python.own, toOption_eq h]
    exact .list element ref text

/-- Whatever an SDK writes is the canonical text of what the field then holds, or an object's own. -/
theorem encode_spec {writer : Language} {value : (writer.table interpreter).Host}
    (h : (writer.table interpreter).encode ty value = .ok text) :
    ∃ datum, (writer.table interpreter).datum ty value = some datum ∧
      Written ty datum ((writer.table interpreter).own ty value) text := by
  cases writer with
  | typeScript => exact TypeScript.encode_spec h
  | python => exact Python.encode_spec h

/-! ### What the engine makes of it -/

/-- A reference holds the canonical text of an allocated PID. -/
def Canonical : Datum → Prop
  | .ref held => ∃ kind branch allocator counter, (Pid.allocated kind branch allocator counter).Sized ∧
      (Pid.allocated kind branch allocator counter).display = some held.pid
  | _ => True

theorem bigInt_text (n : Int) :
    ∃ bytes, BigInt.encode (toString n) = some bytes ∧ BigInt.decode bytes = toString n := by
  obtain ⟨bytes, hbytes, hsigned, -⟩ := BigInt.encode_spec (BigInt.denotes_toString n)
  exact ⟨bytes, hbytes, by rw [BigInt.decode_eq, hsigned]⟩

theorem ref_text {ref : Ref} (h : Canonical (.ref ref)) (ty : ValueType)
    (hty : (∃ name, ty = .object name) ∨ ∃ element, ty = .list element) :
    ∃ input, valueAs doubles ty ref.text branch allocator = .ok input ∧
      input.print doubles hash = some ref.text := by
  obtain ⟨kind, branch', allocator', counter, hsized, hdisplay⟩ := h
  obtain ⟨printed, hprint, -, hread⟩ := renderRef_read doubles branch allocator hsized
  obtain rfl : ref.text = printed := by
    rw [renderRef, hdisplay, Option.map_some] at hprint
    exact Option.some.inj hprint
  exact ⟨_, hread ty hty, hprint⟩

variable (doubles hash branch allocator) in
/-- **The engine keeps the text.**  It reads a canonical text as a value of the type, and prints the value as
that text. -/
theorem engine_keeps (h : Holds ty datum) (hcanonical : Canonical datum) :
    ∃ input, valueAs doubles ty.declared datum.text branch allocator = .ok input ∧
      input.print doubles hash = some datum.text := by
  cases h with
  | @string s hne => exact ⟨.string s, if_neg hne, string_print s⟩
  | @int n hle hlt =>
    have hn : (Int64.ofInt n).toInt = n := Int64.toInt_ofInt_of_le hle hlt
    have hread := (int_read doubles branch allocator (Int64.ofInt n)).2
    rw [hn] at hread
    refine ⟨_, hread, ?_⟩
    rw [ValueInput.print, render, hn]
    rfl
  | bool b => cases b <;> exact ⟨_, rfl, rfl⟩
  | binary bytes => exact ⟨_, (binary_read bytes).2, rfl⟩
  | bigint n =>
    obtain ⟨bytes, hencode, hdecode⟩ := bigInt_text n
    have hread := (bigInt_read doubles branch allocator hencode).2
    rw [hdecode] at hread
    refine ⟨_, hread, ?_⟩
    simp only [ValueInput.print, renderInterned, Pid.kind, hdecode]
    rfl
  | ref struct => exact ref_text hcanonical _ (Or.inl ⟨struct, rfl⟩)
  | list element => exact ref_text hcanonical _ (Or.inr ⟨element, rfl⟩)

/-! ### What an object says of itself -/

/-- The text is a spelling of the datum: of a 64-bit integer one that the standard parser reads as it, of a big
integer its digits after an optional minus, of a reference `@` and what names it. -/
def Spells (branch : BranchId) (allocator : AllocatorId) : Datum → String → Prop
  | .string _, own => own ≠ "~"
  | .int n, own => ∃ m, Number.parseI64 own.toList = some m ∧ m.toInt = n
  | .bigint n, own => BigInt.Denotes own n
  | .ref held, own => ∃ target pid, own.toList = '@' :: target ∧ pid.display = some held.pid ∧
      (Pid.fromStr (String.ofList target) = .ok pid ∨
        (∃ reason, Pid.fromStr (String.ofList target) = .error reason) ∧
          ∃ cell, cellRef (String.ofList target) branch allocator = .ok cell ∧ cell.pid = pid)
  | .bool _, _ | .binary _, _ => True

/-- What an `@` introduces is a reference to what is named. -/
theorem reference_iff {target : List Char} {input : String} {found : ValueInput} :
    reference target input branch allocator = .ok found ↔ ∃ pid, found = .immediate (.ref pid) ∧
      (Pid.fromStr (String.ofList target) = .ok pid ∨
        (∃ reason, Pid.fromStr (String.ofList target) = .error reason) ∧
          ∃ cell, cellRef (String.ofList target) branch allocator = .ok cell ∧ cell.pid = pid) := by
  unfold reference
  cases hpid : Pid.fromStr (String.ofList target) with
  | ok pid =>
    constructor
    · rintro ⟨⟩
      exact ⟨pid, rfl, Or.inl rfl⟩
    · rintro ⟨_, rfl, ⟨⟨⟩⟩ | ⟨⟨_, ⟨⟩⟩, _⟩⟩
      rfl
  | error reason =>
    cases hcell : cellRef (String.ofList target) branch allocator with
    | ok cell =>
      constructor
      · rintro ⟨⟩
        exact ⟨_, rfl, Or.inr ⟨⟨reason, rfl⟩, cell, rfl, rfl⟩⟩
      · rintro ⟨_, rfl, ⟨⟨⟩⟩ | ⟨_, _, ⟨⟩, rfl⟩⟩
        rfl
    | error reason' =>
      constructor
      · rintro ⟨⟩
      · rintro ⟨_, rfl, ⟨⟨⟩⟩ | ⟨_, _, ⟨⟩, _⟩⟩

theorem valueAs_reference {ty : ValueType} (hty : (∃ name, ty = .object name) ∨ ∃ element, ty = .list element)
    {target : List Char} (htext : text.toList = '@' :: target) :
    valueAs doubles ty text branch allocator = reference target text branch allocator := by
  have hne : text ≠ "~" := by
    rintro rfl
    cases htext
  have hsigil : text.toList.dropPrefix? ['@'] = some target := by
    rw [htext]
    exact dropPrefix?_append ['@'] target
  rcases hty with ⟨name, rfl⟩ | ⟨element, rfl⟩ <;> simp only [valueAs, if_neg hne, hsigil]

theorem parseI64_of_valueAs {input : ValueInput} (h : valueAs doubles .int text branch allocator = .ok input)
    (hne : text ≠ "~") : ∃ m, Number.parseI64 text.toList = some m ∧ input = .immediate (.int m) := by
  unfold valueAs at h
  rw [if_neg hne] at h
  cases hparse : Number.parseI64 text.toList with
  | some m =>
    simp only [hparse] at h
    cases h
    exact ⟨m, rfl, rfl⟩
  | none =>
    simp only [hparse] at h
    split at h <;> cases h

theorem dropSuffix?_own (own : String) : (own ++ "n").toList.dropSuffix? ['n'] = some own.toList := by
  rw [String.toList_append]
  exact List.dropSuffix?_eq_some_iff.2 ⟨['n'], rfl, beq_self_eq_true _⟩

theorem valueAs_bigInt (own : String) : valueAs doubles .bigInt (own ++ "n") branch allocator =
    match BigInt.encode own with
    | some bytes => .ok (.content .bigInt bytes)
    | none => .error ⟨"value", own ++ "n", "a field declared BigInt takes decimal digits, like `-129` or `-129n`"⟩ := by
  have hne : own ++ "n" ≠ "~" := by
    intro heq
    have hlast := dropSuffix?_own own
    rw [heq] at hlast
    cases hlast
  simp only [valueAs, if_neg hne, dropSuffix?_own, Option.getD_some, String.ofList_toList]
  rfl

theorem print_bigInt (hsigned : BigInt.signedOf bytes = n) :
    (ValueInput.content .bigInt bytes).print doubles hash = some (Datum.bigint n).text := by
  simp only [ValueInput.print, renderInterned, Pid.kind, BigInt.decode_eq, hsigned]
  rfl

theorem print_ref (hdisplay : pid.display = some text) :
    (ValueInput.immediate (.ref pid)).print doubles hash = some (String.ofList ('@' :: text.toList)) := by
  rw [ValueInput.print, render, renderRef, hdisplay]
  rfl

variable (doubles hash) in
/-- A spelling of a reference is read as the entity or the list it names, and printed in its own letters. -/
theorem engine_names {held : Ref} {own : String} {ty : ValueType} (hs : Spells branch allocator (.ref held) own)
    (hty : (∃ name, ty = .object name) ∨ ∃ element, ty = .list element) :
    ∃ input, valueAs doubles ty own branch allocator = .ok input ∧
      input.print doubles hash = some (Datum.ref held).text ∧ input ≠ .immediate .tombstone := by
  obtain ⟨target, pid, htext, hdisplay, hnames⟩ := hs
  exact ⟨_, (valueAs_reference hty htext).trans (reference_iff.2 ⟨pid, rfl, hnames⟩), print_ref hdisplay, by simp⟩

theorem string_ne_tombstone (text : String) : ValueInput.string text ≠ .immediate .tombstone := nofun

variable (doubles hash) in
/-- **The engine keeps what an object says of itself**, where that is a spelling of what it is. -/
theorem engine_keeps_own {own : String} (hw : Written ty datum (some own) text)
    (hs : Spells branch allocator datum own) :
    ∃ input, valueAs doubles ty.declared text branch allocator = .ok input ∧
      input.print doubles hash = some datum.text ∧ input ≠ .immediate .tombstone ∧ Holds ty datum := by
  cases hw with
  | string => exact ⟨.string text, if_neg hs, string_print text, string_ne_tombstone text, .string hs⟩
  | int n =>
    obtain ⟨m, hparse, rfl⟩ := hs
    have hne : text ≠ "~" := by
      rintro rfl
      cases hparse
    refine ⟨.immediate (.int m), by simp only [FieldType.declared, valueAs, if_neg hne, hparse], rfl, by simp, ?_⟩
    exact .int (Int64.le_toInt m) (Int64.toInt_lt m)
  | bigint n =>
    obtain ⟨bytes, hbytes, hsigned, -⟩ := BigInt.encode_spec hs
    exact ⟨.content .bigInt bytes, by rw [FieldType.declared, valueAs_bigInt, hbytes], print_bigInt hsigned,
      by simp, .bigint n⟩
  | ref struct held =>
    obtain ⟨input, hread, hprint, hne⟩ := engine_names doubles hash hs (Or.inl ⟨struct, rfl⟩)
    exact ⟨input, hread, hprint, hne, .ref struct⟩
  | list element held =>
    obtain ⟨input, hread, hprint, hne⟩ := engine_names doubles hash hs (Or.inr ⟨element, rfl⟩)
    exact ⟨input, hread, hprint, hne, .list element⟩

/-! ### What a host reads -/

theorem mapM_decimal {decimal : Char → Option Nat}
    (hdecimal : ∀ c, c.isDigit = true → decimal c = some (c.toNat - '0'.toNat)) {digits : List Char}
    (hdigits : ∀ c ∈ digits, c.isDigit = true) :
    digits.mapM decimal = some (digits.map fun c => c.toNat - '0'.toNat) := by
  induction digits with
  | nil => rfl
  | cons c digits ih =>
    have hrest := ih fun c hc => hdigits c (List.mem_cons_of_mem _ hc)
    rw [List.mapM_cons, hdecimal c (hdigits c List.mem_cons_self), hrest]
    rfl

theorem splitSign_digits {digits : List Char} {number : Nat} (h : Number.digitsOf digits = some number) :
    splitSign digits = (1, digits) := by
  unfold splitSign
  split
  · exact absurd rfl (Number.ne_sign h (by decide) _)
  · exact absurd rfl (Number.ne_sign h (by decide) _)
  · rfl

theorem signedDigits_eq {decimal : Char → Option Nat}
    (hdecimal : ∀ c, c.isDigit = true → decimal c = some (c.toNat - '0'.toNat)) (sign : Int) (number : Nat)
    (hsplit : splitSign chars = (sign, Nat.toDigits 10 number)) :
    signedDigits decimal chars = some (sign * number, (Nat.toDigits 10 number).length) := by
  have hempty : (Nat.toDigits 10 number).isEmpty = false := by
    rw [List.isEmpty_eq_false_iff]
    exact Nat.toDigits_ne_nil
  have hdigits : ∀ c ∈ Nat.toDigits 10 number, c.isDigit = true :=
    fun c hc => Nat.isDigit_of_mem_toDigits (by decide) (by decide) hc
  simp only [signedDigits, hsplit, hempty, Bool.false_eq_true, if_false, mapM_decimal hdecimal hdigits,
    Option.map_some, BigInt.value_toDigits]

theorem signedDigits_toString (decimal : Char → Option Nat)
    (hdecimal : ∀ c, c.isDigit = true → decimal c = some (c.toNat - '0'.toNat)) (n : Int) :
    signedDigits decimal (toString n).toList = some (n, (Nat.toDigits 10 n.natAbs).length) := by
  obtain ⟨number, hpos | hneg⟩ := n.eq_nat_or_neg
  · subst hpos
    rw [BigInt.toString_natCast, String.toList_ofList, signedDigits_eq hdecimal 1 number
      (splitSign_digits (Number.digitsOf_toDigits number)), one_mul, Int.natAbs_natCast]
  · by_cases hzero : number = 0
    · subst hneg hzero
      rw [show toString (-((0 : Nat) : Int)) = toString ((0 : Nat) : Int) from rfl, BigInt.toString_natCast,
        String.toList_ofList, signedDigits_eq hdecimal 1 0 (splitSign_digits (Number.digitsOf_toDigits 0))]
      rfl
    · subst hneg
      rw [BigInt.toString_neg hzero, String.toList_ofList, signedDigits_eq hdecimal (-1) number rfl,
        neg_one_mul, Int.natAbs_neg, Int.natAbs_natCast]

/-! #### TypeScript -/

namespace TypeScript

theorem shift_of_safe {number : Nat} (h : number ≤ maxSafeInteger) : Nat.log2 number - 52 = 0 := by
  by_cases hne : number = 0
  · subst hne
    rfl
  · have hlt : number < 2 ^ 53 := lt_of_le_of_lt h (by decide)
    have hlog := (Nat.log2_lt hne).2 hlt
    omega

theorem nearest_of_safe {number : Nat} (h : number ≤ maxSafeInteger) : nearest number = number := by
  simp [nearest, shift_of_safe h, Nat.mod_one]

theorem safe_of_nearest {number : Nat} (h : nearest number ≤ maxSafeInteger) : number ≤ maxSafeInteger := by
  by_contra hlarge
  have hlarge : 2 ^ 53 ≤ number := by
    rw [maxSafeInteger] at hlarge
    omega
  have hne : number ≠ 0 := by
    rintro rfl
    exact absurd hlarge (by decide)
  have hlog : 53 ≤ Nat.log2 number := (Nat.le_log2 hne).2 hlarge
  -- the quotient has 53 bits, and what it is rounded to is not less
  have hquotient : 2 ^ 52 ≤ number >>> (Nat.log2 number - 52) := by
    rw [Nat.shiftRight_eq_div_pow, Nat.le_div_iff_mul_le (Nat.two_pow_pos _), ← pow_add,
      Nat.add_sub_cancel' (by omega)]
    exact Nat.log2_self_le hne
  have hrounded : number >>> (Nat.log2 number - 52) <<< (Nat.log2 number - 52) ≤ nearest number := by
    unfold nearest
    simp only [Nat.shiftLeft_eq]
    refine Nat.mul_le_mul_right _ ?_
    split
    · exact Nat.le_succ _
    · exact le_rfl
  have hpow : 2 ^ 53 ≤ number >>> (Nat.log2 number - 52) <<< (Nat.log2 number - 52) := by
    rw [Nat.shiftLeft_eq]
    calc 2 ^ 53 = 2 ^ 52 * 2 ^ 1 := rfl
      _ ≤ _ := Nat.mul_le_mul hquotient (Nat.pow_le_pow_right (by decide) (by omega))
  have hsafe : nearest number ≤ 2 ^ 53 - 1 := h
  omega
end TypeScript

theorem hexPairs_hex (bytes : List UInt8) : hexPairs (hex bytes) = some bytes := by
  induction bytes with
  | nil => rfl
  | cons byte rest ih =>
    have hall : ∀ n < 256, hexValue (hexChar (UInt8.ofNat n >>> 4)) = some (UInt8.ofNat n >>> 4) ∧
        hexValue (hexChar (UInt8.ofNat n &&& 0xf)) = some (UInt8.ofNat n &&& 0xf) ∧
        (16 : UInt8) * (UInt8.ofNat n >>> 4) + (UInt8.ofNat n &&& 0xf) = UInt8.ofNat n := by decide +kernel
    obtain ⟨hhigh, hlow, hsame⟩ := hall byte.toNat byte.toNat_lt
    rw [UInt8.ofNat_toNat] at hhigh hlow hsame
    have hcons : hex (byte :: rest) = hexChar (byte >>> 4) :: hexChar (byte &&& 0xf) :: hex rest := rfl
    simp only [hcons, hexPairs, hhigh, hlow, ih, Option.bind_eq_bind, Option.bind_some, hsame]
    rfl

theorem dropPrefix?_sigil (ref : Ref) : ref.text.toList.dropPrefix? ['@'] = some ref.pid.toList := by
  rw [Ref.text, String.toList_ofList]
  exact dropPrefix?_append ['@'] ref.pid.toList

theorem Ref.new_pid (ref : Ref) : Ref.new (String.ofList ref.pid.toList) = .ok ref := by
  rw [String.ofList_toList, Ref.new, dif_neg ref.bare]

theorem dropSuffix?_n (n : Int) : ((toString n).toList ++ ['n']).dropSuffix? ['n'] = some (toString n).toList :=
  List.dropSuffix?_eq_some_iff.2 ⟨['n'], rfl, beq_self_eq_true _⟩

theorem TypeScript.decode_spec (h : Holds ty datum) :
    (∃ value, TypeScript.decode ty datum.text = .ok value ∧ TypeScript.datum ty value = some datum) ∨
      (¬ TypeScript.CanHold datum ∧ ∃ reason, TypeScript.decode ty datum.text = .error reason) := by
  cases h with
  | string hne => exact Or.inl ⟨_, rfl, rfl⟩
  | @int n _ _ =>
    have hread := signedDigits_toString asciiDecimal (fun c hc => if_pos hc) n
    by_cases hsafe : n.natAbs ≤ TypeScript.maxSafeInteger
    · have hvalue : n.sign * (TypeScript.nearest n.natAbs : Int) = n := by
        rw [TypeScript.nearest_of_safe hsafe, Int.sign_mul_natAbs]
      refine Or.inl ⟨.number (.whole n (TypeScript.short_of_safe hsafe)), ?_, rfl⟩
      simp only [TypeScript.decode, Datum.text, hread, hvalue, dif_pos hsafe]
    · have hne : n ≠ 0 := by
        rintro rfl
        exact hsafe (Nat.zero_le _)
      have hvalue : ¬ (n.sign * (TypeScript.nearest n.natAbs : Int)).natAbs ≤ TypeScript.maxSafeInteger := by
        rw [Int.natAbs_mul, Int.natAbs_sign_of_ne_zero hne, one_mul, Int.natAbs_natCast]
        exact fun hle => hsafe (TypeScript.safe_of_nearest hle)
      refine Or.inr ⟨hsafe, ?_⟩
      simp only [TypeScript.decode, Datum.text, hread, dif_neg hvalue]
      exact ⟨_, rfl⟩
  | bool b => cases b <;> exact Or.inl ⟨_, rfl, rfl⟩
  | binary bytes =>
    refine Or.inl ⟨.bytes bytes, ?_, rfl⟩
    have hsigil : ('0' :: 'x' :: hex bytes).dropPrefix? ['0', 'x'] = some (hex bytes) :=
      dropPrefix?_append ['0', 'x'] (hex bytes)
    simp only [TypeScript.decode, Datum.text, String.toList_ofList, hsigil, Option.bind_some, hexPairs_hex]
  | bigint n =>
    refine Or.inl ⟨.bigint n, ?_, rfl⟩
    simp only [TypeScript.decode, Datum.text, String.toList_ofList, dropSuffix?_n, Option.getD_some,
      signedDigits_toString asciiDecimal (fun c hc => if_pos hc)]
  | @ref held struct =>
    refine Or.inl ⟨.ref held, ?_, rfl⟩
    simp only [TypeScript.decode, Datum.text, dropPrefix?_sigil, Ref.new_pid]
    rfl
  | @list held element =>
    refine Or.inl ⟨.ref held, ?_, rfl⟩
    simp only [TypeScript.decode, Datum.text, dropPrefix?_sigil, Ref.new_pid]
    rfl

theorem integer_eq (h : '\n' ∉ chars) : interpreter.integer chars = signedDigits interpreter.decimal chars := by
  rw [Python.Interpreter.integer, dropSuffix?_eq_none h, Option.getD_none]

theorem newline_not_mem (n : Int) : '\n' ∉ (toString n).toList := fun hc =>
  (numeral_toString n '\n' hc).ne (d := '\n') (by decide) (by decide) rfl

theorem newline_not_mem_hex (bytes : List UInt8) : '\n' ∉ hex bytes := by
  have hall : ∀ n < 256, '\n' ∉ [hexChar (UInt8.ofNat n >>> 4), hexChar (UInt8.ofNat n &&& 0xf)] := by
    decide +kernel
  intro hmem
  obtain ⟨byte, -, hbyte⟩ := List.mem_flatMap.1 hmem
  have hnot := hall byte.toNat byte.toNat_lt
  rw [UInt8.ofNat_toNat] at hnot
  exact hnot hbyte

theorem Python.converts_int (hle : -2 ^ 63 ≤ n) (hlt : n < 2 ^ 63) :
    interpreter.converts (Nat.toDigits 10 n.natAbs).length = true := by
  have hlength : (Nat.toDigits 10 n.natAbs).length ≤ 19 :=
    (Nat.length_toDigits_le_iff (by decide) (by decide)).2 (by omega)
  unfold Python.Interpreter.converts
  cases hlimit : interpreter.limit with
  | none => rfl
  | some limit =>
    have hleast := interpreter.least limit hlimit
    exact decide_eq_true (by omega)

theorem Python.decode_spec (h : Holds ty datum) :
    (∃ value, Python.decode interpreter ty datum.text = .ok value ∧ Python.datum ty value = some datum) ∨
      (¬ Python.CanHold interpreter datum ∧
        ∃ reason, Python.decode interpreter ty datum.text = .error reason) := by
  cases h with
  | string hne => exact Or.inl ⟨_, rfl, rfl⟩
  | @int n hle hlt =>
    refine Or.inl ⟨.int n, ?_, rfl⟩
    simp only [Python.decode, Datum.text, integer_eq (newline_not_mem n),
      signedDigits_toString interpreter.decimal interpreter.ascii, Python.converted,
      Python.converts_int hle hlt, if_true]
  | bool b => cases b <;> exact Or.inl ⟨_, rfl, rfl⟩
  | binary bytes =>
    refine Or.inl ⟨.bytes "bytes" bytes, ?_, rfl⟩
    have hsigil : ('0' :: 'x' :: hex bytes).dropPrefix? ['0', 'x'] = some (hex bytes) :=
      dropPrefix?_append ['0', 'x'] (hex bytes)
    have hline := newline_not_mem_hex bytes
    simp only [Python.decode, Datum.text, String.toList_ofList, hsigil, Option.map_some, Option.bind_some,
      dropSuffix?_eq_none hline, Option.getD_none, hexPairs_hex]
  | bigint n =>
    have hread : Python.decode interpreter .bigint (Datum.bigint n).text =
        Python.converted interpreter (n, (Nat.toDigits 10 n.natAbs).length) := by
      simp only [Python.decode, Datum.text, String.toList_ofList, dropSuffix?_n, Option.getD_some,
        integer_eq (newline_not_mem n), signedDigits_toString interpreter.decimal interpreter.ascii]
    rw [hread, Python.converted]
    by_cases hconverts : interpreter.converts (Nat.toDigits 10 n.natAbs).length = true
    · exact Or.inl ⟨.int n, if_pos hconverts, rfl⟩
    · exact Or.inr ⟨hconverts, _, if_neg hconverts⟩
  | @ref held struct =>
    refine Or.inl ⟨.ref held, ?_, rfl⟩
    simp only [Python.decode, Datum.text, dropPrefix?_sigil, Ref.new_pid]
    rfl
  | @list held element =>
    refine Or.inl ⟨.ref held, ?_, rfl⟩
    simp only [Python.decode, Datum.text, dropPrefix?_sigil, Ref.new_pid]
    rfl

/-- Either SDK reads what a field holds, or refuses what its language cannot hold. -/
theorem decode_spec (reader : Language) (h : Holds ty datum) :
    (∃ value, (reader.table interpreter).decode ty datum.text = .ok value ∧
        (reader.table interpreter).datum ty value = some datum) ∨
      (¬ (reader.table interpreter).CanHold datum ∧
        ∃ reason, (reader.table interpreter).decode ty datum.text = .error reason) := by
  cases reader with
  | typeScript => exact TypeScript.decode_spec h
  | python => exact Python.decode_spec h

/-! ### What is written reads back -/

/-- The engine accepts the text, and not as a deletion; it prints what it stored, and either SDK reads from that
the value that was written, or an error where its language cannot hold it. -/
def ReadsBack (doubles : Doubles) (hash : List UInt8 → Vector UInt8 32) (branch : BranchId)
    (allocator : AllocatorId) (interpreter : Python.Interpreter) (writer : Language) (ty : FieldType)
    (value : (writer.table interpreter).Host) (text : String) : Prop :=
  ∃ datum input printed, (writer.table interpreter).datum ty value = some datum ∧
    valueAs doubles ty.declared text branch allocator = .ok input ∧ input ≠ .immediate .tombstone ∧
    input.print doubles hash = some printed ∧
    (∀ store, Values.Distinct hash store input →
      ∃ stored store', Values.intern hash store input = .ok (stored, store') ∧
        Values.render doubles store' stored = .ok (some printed)) ∧
    ∀ reader : Language,
      (∃ value', (reader.table interpreter).decode ty printed = .ok value' ∧
          (reader.table interpreter).datum ty value' = some datum) ∨
        (¬ (reader.table interpreter).CanHold datum ∧
          ∃ reason, (reader.table interpreter).decode ty printed = .error reason)

theorem immediate_ne_tombstone (h : Holds ty datum) {input : ValueInput}
    (hprint : input.print doubles hash = some datum.text) : input ≠ .immediate .tombstone := by
  rintro rfl
  have htilde : datum.text = "~" := (Option.some.inj hprint).symm
  have hlength : datum.text.toList = ['~'] := by rw [htilde]; rfl
  cases h with
  | string hne => exact hne htilde
  | @int n _ _ =>
    have hmem : '~' ∈ (toString n).toList := by
      rw [show (toString n).toList = ['~'] from hlength]
      exact List.mem_singleton_self _
    exact (numeral_toString n '~' hmem).ne (d := '~') (by decide) (by decide) rfl
  | bool b => cases b <;> exact absurd htilde (by decide)
  | binary bytes =>
    rw [Datum.text, String.toList_ofList] at hlength
    cases hlength
  | bigint n =>
    rw [Datum.text, String.toList_ofList] at hlength
    have hlast := congrArg List.getLast? hlength
    rw [List.getLast?_append, List.getLast?_singleton] at hlast
    cases hlast
  | ref | list =>
    rw [Datum.text, Ref.text, String.toList_ofList] at hlength
    cases hlength

variable (interpreter) in
/-- A read of what was printed has the datum that was printed. -/
theorem datum_of_reads (reader : Language) {held : Datum} (h : Holds ty datum)
    (hcan : (reader.table interpreter).CanHold datum) (hheld : (reader.table interpreter).CanHold held)
    (hreads : (∃ value', (reader.table interpreter).decode ty datum.text = .ok value' ∧
        (reader.table interpreter).datum ty value' = some held) ∨
      (¬ (reader.table interpreter).CanHold held ∧
        ∃ reason, (reader.table interpreter).decode ty datum.text = .error reason)) : datum = held := by
  rcases decode_spec reader h with ⟨value, hdecode, hdatum⟩ | ⟨hnot, _⟩
  · rcases hreads with ⟨value', hdecode', hdatum'⟩ | ⟨hnot, _⟩
    · rw [hdecode] at hdecode'
      cases hdecode'
      exact Option.some.inj (hdatum.symm.trans hdatum')
    · exact absurd hheld hnot
  · exact absurd hcan hnot

theorem TypeScript.text_of_ref (ty : FieldType) {value : TypeScript.Value} {held : Ref}
    (hty : TypeScript.decode ty text = match text.toList.dropPrefix? ['@'] with
      | some pid => (Ref.new (String.ofList pid)).map .ref
      | none => .error s!"a {ty.wireType} field answered `{text}`, which is not a reference")
    (h : TypeScript.decode ty text = .ok value) (hd : TypeScript.datum ty value = some (.ref held)) :
    text = held.text := by
  rw [hty] at h
  cases hsigil : text.toList.dropPrefix? ['@'] with
  | none =>
    rw [hsigil] at h
    cases h
  | some pid =>
    obtain ⟨sigil, htext, hsame⟩ := List.dropPrefix?_eq_some_iff.1 hsigil
    simp only [hsigil] at h
    by_cases hbare : (String.ofList pid).toList.head? = some '@'
    · rw [Ref.new, dif_pos hbare] at h
      cases h
    · rw [Ref.new, dif_neg hbare] at h
      cases h
      have hheld : held.pid = String.ofList pid := by
        cases ty <;> cases hd <;> rfl
      rw [← String.toList_inj, Ref.text, hheld, htext, eq_of_beq hsame]
      simp

theorem spells_of_named {own printed : String} {held : Ref} {input : ValueInput} {ty : ValueType}
    (hty : (∃ name, ty = .object name) ∨ ∃ element, ty = .list element)
    (hread : valueAs doubles ty own branch allocator = .ok input) (hne : input ≠ .immediate .tombstone)
    (hprint : input.print doubles hash = some printed) (hheld : printed = held.text) :
    Spells branch allocator (.ref held) own := by
  have htarget : ∃ target, own.toList = '@' :: target := by
    cases hsigil : own.toList.dropPrefix? ['@'] with
    | some target =>
      obtain ⟨sigil, htext, hsame⟩ := List.dropPrefix?_eq_some_iff.1 hsigil
      exact ⟨target, by rw [htext, eq_of_beq hsame]; rfl⟩
    | none =>
      by_cases htilde : own = "~"
      · rw [htilde, valueAs_tilde] at hread
        cases hread
        exact absurd rfl hne
      · rcases hty with ⟨name, rfl⟩ | ⟨element, rfl⟩ <;> simp only [valueAs, if_neg htilde, hsigil] at hread <;>
          cases hread
  obtain ⟨target, htext⟩ := htarget
  rw [valueAs_reference hty htext] at hread
  obtain ⟨pid, rfl, hnames⟩ := reference_iff.1 hread
  refine ⟨target, pid, htext, ?_, hnames⟩
  rw [ValueInput.print, render, renderRef] at hprint
  cases hdisplay : pid.display with
  | none =>
    rw [hdisplay] at hprint
    cases hprint
  | some id =>
    rw [hdisplay, Option.map_some, hheld, Ref.text] at hprint
    have hsame := String.ofList_inj.1 (Option.some.inj hprint)
    rw [String.toList_inj.1 (List.cons.inj hsame).2]

theorem spells_of_reads {own printed : String} {input : ValueInput} (hw : Written ty datum (some own) text)
    (hread : valueAs doubles ty.declared text branch allocator = .ok input) (hne : input ≠ .immediate .tombstone)
    (hprint : input.print doubles hash = some printed)
    (hreads : ∀ reader : Language,
      (∃ value', (reader.table interpreter).decode ty printed = .ok value' ∧
          (reader.table interpreter).datum ty value' = some datum) ∨
        (¬ (reader.table interpreter).CanHold datum ∧
          ∃ reason, (reader.table interpreter).decode ty printed = .error reason)) :
    Spells branch allocator datum own := by
  have htilde : text ≠ "~" := by
    rintro rfl
    rw [valueAs_tilde] at hread
    cases hread
    exact hne rfl
  cases hw with
  | string => exact htilde
  | int n =>
    obtain ⟨m, hparse, rfl⟩ := parseI64_of_valueAs hread htilde
    obtain rfl : toString m.toInt = printed := Option.some.inj hprint
    have hholds : Holds .int (.int m.toInt) := .int (Int64.le_toInt m) (Int64.toInt_lt m)
    have hcan (datum : Int) : (Language.python.table interpreter).CanHold (.int datum) := trivial
    have hsame := datum_of_reads interpreter .python hholds (hcan _) (hcan n) (hreads .python)
    exact ⟨m, hparse, Datum.int.inj hsame⟩
  | bigint n =>
    rw [FieldType.declared, valueAs_bigInt] at hread
    cases hbytes : BigInt.encode own with
    | none =>
      rw [hbytes] at hread
      cases hread
    | some bytes =>
      rw [hbytes] at hread
      cases hread
      obtain ⟨number, hdenotes⟩ := BigInt.denotes_of_encode hbytes
      obtain ⟨bytes', hbytes', hsigned, -⟩ := BigInt.encode_spec hdenotes
      rw [hbytes] at hbytes'
      cases hbytes'
      rw [print_bigInt hsigned] at hprint
      obtain rfl := Option.some.inj hprint
      have hcan (datum : Int) : (Language.typeScript.table interpreter).CanHold (.bigint datum) := trivial
      have hsame := datum_of_reads interpreter .typeScript (.bigint number) (hcan _) (hcan n) (hreads .typeScript)
      cases hsame
      exact hdenotes
  | ref struct held =>
    obtain ⟨value, hdecode, hdatum⟩ := (hreads .typeScript).resolve_right fun hnot => hnot.1 trivial
    exact spells_of_named (Or.inl ⟨struct, rfl⟩) hread hne hprint
      (TypeScript.text_of_ref (.ref struct) rfl hdecode hdatum)
  | list element held =>
    obtain ⟨value, hdecode, hdatum⟩ := (hreads .typeScript).resolve_right fun hnot => hnot.1 trivial
    exact spells_of_named (Or.inr ⟨element, rfl⟩) hread hne hprint
      (TypeScript.text_of_ref (.list element) rfl hdecode hdatum)

/-- An interpreter that knows the digits of one script, at the limit that is set from the start. -/
def Python.plain : Python.Interpreter where
  decimal := asciiDecimal
  ascii _ hc := if_pos hc
  limit := some 4300
  least n hn := by
    cases hn
    decide

/-- A member of an enumeration whose members are integers too, and which prints as its name. -/
def Python.member : Python.Value := .subInt 1 ⟨"Color", .ok "Color.RED", .ok "Color.RED", .ok true⟩

/-- One that prints as its number, with a sign. -/
def Python.signedMember : Python.Value := .subInt 7 ⟨"Offset", .ok "+7", .ok "+7", .ok true⟩

end Sdk

end BorgCore
