import BorgCore.Core.Printed
import BorgCore.Lib.AssocMap

/-!
# Text and value, where the conversion needs the store

Strings, binary and big integers are content-addressed: their PID is the hash of their content, so text becomes
a value only by interning it, and a reference to content becomes text only by reading it.
-/

namespace BorgCore

/-- Content-addressed kinds are immutable and their PIDs are eternal. -/
def PidKind.isContentAddressed : PidKind → Bool
  | .string | .binary | .bigInt => true
  | .object | .list | .any | .anyObject | .anyArray | .anyNumber => false

/-- What the store holds of content, by its PID. -/
abbrev Interned := AssocMap Pid (List UInt8)

namespace Values

open Parse

variable {doubles : Doubles} {hash : List UInt8 → Vector UInt8 32} {ty : ValueType} {text : String}
  {branch : BranchId} {allocator : AllocatorId} {input : ValueInput} {store : Interned} {value : Value}
  {kind : PidKind} {bytes : List UInt8} {pid : Pid}

/-- The PID of some bytes; the error is the kind, where its PIDs are no hashes. -/
def contentPid (hash : List UInt8 → Vector UInt8 32) (kind : PidKind) (bytes : List UInt8) :
    Except PidKind Pid :=
  if kind.isContentAddressed then .ok (.content kind (hash bytes)) else .error kind

/-- Turn what was parsed into what can be stored.  To intern content again changes nothing. -/
def intern (hash : List UInt8 → Vector UInt8 32) (store : Interned) :
    ValueInput → Except PidKind (Value × Interned)
  | .immediate value => .ok (value, store)
  | .content kind bytes =>
    match contentPid hash kind bytes with
    | .error kind => .error kind
    | .ok pid => .ok (.ref pid, if (store.lookup pid).isSome then store else store.insert pid bytes)

/-- An allocated PID names no content: it is refused and not answered with a miss. -/
def readInterned (store : Interned) : Pid → Except PidKind (Option (List UInt8))
  | .content kind hash => .ok (store.lookup (.content kind hash))
  | .allocated kind .. => .error kind

/-- The PID of content that a value stores, if it stores one. -/
def contentOf : Value → Option Pid
  | .ref pid => if pid.kind.isContentAddressed then some pid else none
  | _ => none

/-- Render a value, resolving interned content; what the store has never seen stays a reference. -/
def render (doubles : Doubles) (store : Interned) (value : Value) : Except PidKind (Option String) :=
  match contentOf value with
  | none => .ok (Parse.render doubles value)
  | some pid =>
    match readInterned store pid with
    | .error kind => .error kind
    | .ok (some bytes) => .ok (renderInterned pid bytes)
    | .ok none => .ok (Parse.render doubles value)

/-- The store can tell the input from any other: no other bytes are held under the hash of its own, and a
reference is not to content that the store holds. -/
structure Distinct (hash : List UInt8 → Vector UInt8 32) (store : Interned) (input : ValueInput) : Prop where
  own : ∀ kind bytes held, input = .content kind bytes →
    store.lookup (.content kind (hash bytes)) = some held → held = bytes
  foreign : ∀ pid, input = .immediate (.ref pid) → pid.kind.isContentAddressed = true →
    readInterned store pid = .ok none

theorem render_immediate (h : Distinct hash store (.immediate value)) :
    render doubles store value = .ok (Parse.render doubles value) := by
  unfold render
  split
  · rfl
  · rename_i pid hpid
    obtain ⟨rfl, hkind⟩ : value = .ref pid ∧ pid.kind.isContentAddressed = true := by
      unfold contentOf at hpid
      split at hpid
      · split at hpid
        · rename_i hkind
          cases hpid
          exact ⟨rfl, hkind⟩
        · cases hpid
      · cases hpid
    rw [h.foreign pid rfl hkind]

/-- **Interning is invisible.**  What was interned is rendered from its content, and anything else on its
own. -/
theorem render_intern (h : Distinct hash store input)
    (hkind : ∀ kind bytes, input = .content kind bytes → kind.isContentAddressed = true) :
    ∃ value store', intern hash store input = .ok (value, store') ∧
      render doubles store' value = .ok (input.print doubles hash) := by
  cases input with
  | immediate value => exact ⟨value, store, rfl, render_immediate h⟩
  | content kind bytes =>
    have hcontent := hkind kind bytes rfl
    have hintern : intern hash store (.content kind bytes) = .ok (.ref (.content kind (hash bytes)),
        if (store.lookup (.content kind (hash bytes))).isSome then store
        else store.insert (.content kind (hash bytes)) bytes) := by
      rw [intern, contentPid, if_pos hcontent]
    have hheld : (if (store.lookup (.content kind (hash bytes))).isSome then store
        else store.insert (.content kind (hash bytes)) bytes).lookup (.content kind (hash bytes)) =
        some bytes := by
      split
      · rename_i hsome
        obtain ⟨held, hheld⟩ := Option.isSome_iff_exists.1 hsome
        rw [hheld, h.own kind bytes held rfl hheld]
      · rw [AssocMap.lookup_insert_eq, if_pos rfl]
    have hof : contentOf (.ref (.content kind (hash bytes))) = some (.content kind (hash bytes)) :=
      if_pos hcontent
    refine ⟨_, _, hintern, ?_⟩
    simp only [render, hof, readInterned, hheld]
    rfl

theorem content_of_reading (h : Reading doubles text (.content kind bytes)) :
    kind.isContentAddressed = true := by
  generalize heq : ValueInput.content kind bytes = input at h
  cases h <;> cases heq <;> rfl

/-- Only content of its kinds is ever parsed. -/
theorem content_of_valueAs (hb : branch < 2 ^ 64) (ha : allocator < 2 ^ 32)
    (h : valueAs doubles ty text branch allocator = .ok (.content kind bytes)) :
    kind.isContentAddressed = true := by
  cases hty : untyped ty with
  | true =>
    rw [valueAs_untyped hty] at h
    exact content_of_reading (reading_of_value hb ha h)
  | false =>
    by_cases htilde : text = "~"
    · rw [htilde, valueAs_tilde] at h
      cases h
    · simp only [valueAs, if_neg htilde] at h
      cases ty with
      | any | anyNumber | anyObject | anyArray => cases hty
      | string =>
        cases h
        rfl
      | binary | bigInt =>
        simp only at h
        split at h <;> cases h
        rfl
      | double =>
        simp only at h
        split at h <;> cases h
      | int | bool =>
        simp only at h
        split at h
        · cases h
        · split at h <;> cases h
      | object | list =>
        simp only at h
        split at h
        · obtain ⟨pid, heq, -⟩ := reference_sized hb ha h
          cases heq
        · cases h

/-- **What a read prints means the same value when it is written back**, unless it is a double of an untyped
field that was typed with a point and is printed without; and what is stored is printed so from any store that
can tell it from what it holds. -/
theorem printed_read_back_iff (hd : Standard doubles) (hb : branch < 2 ^ 64) (ha : allocator < 2 ^ 32)
    (h : valueAs doubles ty text branch allocator = .ok input) :
    (ReadBack doubles hash ty branch allocator input ↔ ¬ (untyped ty = true ∧ LosesPoint doubles text)) ∧
      ∀ store, Distinct hash store input → ∃ value store', intern hash store input = .ok (value, store') ∧
        render doubles store' value = .ok (input.print doubles hash) := by
  refine ⟨readBack_iff hd hb ha h, fun store hdistinct => render_intern hdistinct ?_⟩
  rintro kind bytes rfl
  exact content_of_valueAs hb ha h

/-! ### Two doubles -/

namespace Sample

def one : UInt64 := 0x3ff0000000000000

def oneAndAHalf : UInt64 := 0x3ff8000000000000

/-- Two doubles as they are printed, the words, and any text for the rest. -/
def display (bits : UInt64) : String :=
  if isFinite bits = false then
    if bits = 0x7ff0000000000000 then "inf" else if bits = 0xfff0000000000000 then "-inf" else "NaN"
  else if bits = one then "1"
  else if bits = oneAndAHalf then "1.5"
  else String.ofList (Nat.toDigits 10 bits.toNat ++ ['.', '2', '5'])

def parse (text : String) : Option UInt64 :=
  if text = "1" ∨ text = "1.0" then some one
  else if text = "1.5" then some oneAndAHalf
  else (text.toList.dropSuffix? ['.', '2', '5']).bind fun digits =>
    (Number.parseU64 digits).map UInt64.ofNat

def two : Doubles := ⟨parse, display⟩

theorem display_other {bits : UInt64} (hfinite : isFinite bits = true) (hone : bits ≠ one)
    (hhalf : bits ≠ oneAndAHalf) :
    display bits = String.ofList (Nat.toDigits 10 bits.toNat ++ ['.', '2', '5']) := by
  have hnot : ¬ isFinite bits = false := by simp [hfinite]
  rw [display, if_neg hnot, if_neg hone, if_neg hhalf]

theorem parse_other (digits : List Char) :
    parse (String.ofList (digits ++ ['.', '2', '5'])) = (Number.parseU64 digits).map UInt64.ofNat := by
  have hne {word : String} (h : '2' ∉ word.toList) : String.ofList (digits ++ ['.', '2', '5']) ≠ word :=
    ofList_ne (by simp) h
  have hsuffix : (digits ++ ['.', '2', '5']).dropSuffix? ['.', '2', '5'] = some digits :=
    List.dropSuffix?_eq_some_iff.2 ⟨_, rfl, beq_self_eq_true _⟩
  have hone : ¬ (String.ofList (digits ++ ['.', '2', '5']) = "1" ∨
      String.ofList (digits ++ ['.', '2', '5']) = "1.0") := by
    rintro (heq | heq)
    · exact hne (by decide) heq
    · exact hne (by decide) heq
  rw [parse, if_neg hone, if_neg (hne (by decide)), String.toList_ofList, hsuffix, Option.bind_some]

theorem standard : Standard two where
  reads bits hfinite := by
    change parse (display bits) = some bits
    by_cases hone : bits = one
    · rw [hone]
      decide +kernel
    · by_cases hhalf : bits = oneAndAHalf
      · rw [hhalf]
        decide +kernel
      · rw [display_other hfinite hone hhalf, parse_other, Number.parseU64_toDigits bits.toNat_lt,
          Option.map_some, UInt64.ofNat_toNat]
  prints bits hfinite := by
    change Decimal (display bits).toList
    by_cases hone : bits = one
    · rw [hone]
      exact ⟨[], ['1'], [], by decide +kernel, Or.inl rfl, by simp, List.forall_mem_singleton.2 rfl, Or.inl rfl⟩
    · by_cases hhalf : bits = oneAndAHalf
      · rw [hhalf]
        exact ⟨[], ['1'], ['.', '5'], by decide +kernel, Or.inl rfl, by simp, List.forall_mem_singleton.2 rfl,
          Or.inr ⟨['5'], rfl, List.forall_mem_singleton.2 rfl⟩⟩
      · rw [display_other hfinite hone hhalf, String.toList_ofList]
        refine ⟨[], Nat.toDigits 10 bits.toNat, ['.', '2', '5'], rfl, Or.inl rfl, Nat.toDigits_ne_nil, ?_,
          Or.inr ⟨['2', '5'], rfl, List.forall_mem_cons.2 ⟨rfl, List.forall_mem_singleton.2 rfl⟩⟩⟩
        exact fun c hc => Nat.isDigit_of_mem_toDigits (by decide) (by decide) hc
  words bits hfinite := by
    change display bits ∈ ["inf", "-inf", "NaN"]
    rw [display, if_pos hfinite]
    split
    · simp
    · split <;> simp
  numerals text bits hparse _ := by
    change parse text = some bits at hparse
    have hword {word : List Char} (h : word.all (fun c => c.isDigit || c == '.') = true) :
        ∀ c ∈ word, Numeral c := by
      intro c hc
      rcases Bool.or_eq_true_iff.1 (List.all_eq_true.1 h c hc) with hdigit | heq
      · exact Or.inl hdigit
      · exact Or.inr (by simp [eq_of_beq heq])
    unfold parse at hparse
    split at hparse
    · rename_i heq
      rcases heq with rfl | rfl
      · exact hword rfl
      · exact hword rfl
    · split at hparse
      · rename_i heq
        rw [heq]
        exact hword rfl
      · obtain ⟨digits, hsuffix, hread⟩ := Option.bind_eq_some_iff.1 hparse
        obtain ⟨n, hn, -⟩ := Option.map_eq_some_iff.1 hread
        obtain ⟨suffix, htext, hsame⟩ := List.dropSuffix?_eq_some_iff.1 hsuffix
        rw [htext, eq_of_beq hsame]
        intro c hc
        rcases List.mem_append.1 hc with hc | hc
        · exact (Number.unsigned_chars (Option.filter_eq_some_iff.1 hn).1 c hc).imp_right fun heq => by simp [heq]
        · exact hword rfl c hc

/-- A field of any type that was written `1.5` reads as that, and is written back. -/
theorem printed_read_back_half :
    valueAs two .any "1.5" 1 0 = .ok (.immediate (.double oneAndAHalf)) ∧
      (ReadBack two (fun _ => Vector.replicate 32 0) .any 1 0 (.immediate (.double oneAndAHalf)) ↔
        ¬ (untyped .any = true ∧ LosesPoint two "1.5")) ∧
      ∀ store, Distinct (fun _ => Vector.replicate 32 0) store (.immediate (.double oneAndAHalf)) →
        ∃ value store', intern (fun _ => Vector.replicate 32 0) store (.immediate (.double oneAndAHalf)) =
            .ok (value, store') ∧
          render two store' value =
            .ok ((ValueInput.immediate (.double oneAndAHalf)).print two fun _ => Vector.replicate 32 0) := by
  have hread : valueAs two .any "1.5" 1 0 = .ok (.immediate (.double oneAndAHalf)) := by decide +kernel
  exact ⟨hread, printed_read_back_iff standard (by decide) (by decide) hread⟩

/-- **A double is read back as an integer.**  A field of any type that was written `1.0` reads `1`, and that is
written back as the integer. -/
theorem printed_read_back_fails :
    ¬ ∀ (doubles : Doubles) (hash : List UInt8 → Vector UInt8 32) (ty : ValueType) (text : String)
        (branch : BranchId) (allocator : AllocatorId) (input : ValueInput), Standard doubles →
      branch < 2 ^ 64 → allocator < 2 ^ 32 → valueAs doubles ty text branch allocator = .ok input →
      ReadBack doubles hash ty branch allocator input := by
  intro h
  have hread : valueAs two .any "1.0" 1 0 = .ok (.immediate (.double one)) := by decide +kernel
  obtain ⟨printed, hprint, hback⟩ := h two (fun _ => Vector.replicate 32 0) .any "1.0" 1 0 _ standard
    (by decide) (by decide) hread
  obtain rfl : "1" = printed := Option.some.inj hprint
  have hinteger : valueAs two .any "1" 1 0 = .ok (.immediate (.int 1)) := by decide +kernel
  rw [hinteger] at hback
  cases hback

end Sample

end Values

end BorgCore
