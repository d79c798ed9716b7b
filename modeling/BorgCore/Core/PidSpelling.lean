import BorgCore.Core.PidCodec

/-!
# One PID, its spellings

What `display` writes is read back as the same PID, in either case.  The other way round a text may be read
that `display` would not write: the padding may be a digit too long, and a varint may go on with zeros.
-/

namespace BorgCore

namespace Pid

open Positional Varint

variable {pid : Pid} {kind : PidKind} {branch allocator counter pad : Nat} {bytes bytes' : List UInt8}
  {text : String} {letter : Char} {payload : List Char} {digits : List Nat}

/-! ### Allocated PIDs -/

/-- The bytes spell the numbers of an allocated PID, one after another. -/
def Spelled (bytes : List UInt8) (branch allocator counter : Nat) : Prop :=
  ∃ first second third, bytes = first ++ (second ++ third) ∧ Spells first branch ∧
    Spells second allocator ∧ Spells third counter

theorem Spelled.trim_unique (h : Spelled bytes branch allocator counter)
    (h' : Spelled bytes' branch allocator counter) (ht : Trim bytes) (ht' : Trim bytes') :
    bytes = bytes' := by
  obtain ⟨first, second, third, rfl, h₁, h₂, h₃⟩ := h
  obtain ⟨first', second', third', rfl, h₁', h₂', h₃'⟩ := h'
  rw [h₁.trim_append, h₂.trim_append] at ht
  rw [h₁'.trim_append, h₂'.trim_append] at ht'
  rw [h₁.trim_unique h₁' rfl ht.1 ht'.1, h₂.trim_unique h₂' rfl ht.2.1 ht'.2.1,
    h₃.trim_unique h₃' rfl ht.2.2 ht'.2.2]

theorem takeVarint_sound {value : Nat} {rest : List UInt8} (h : takeVarint bytes = some (value, rest)) :
    ∃ used, bytes = used ++ rest ∧ Spells used value ∧ value < 2 ^ 64 := by
  obtain ⟨used, n, rfl, hspells, rfl, hlt⟩ := takeVarintFrom_sound (Nat.two_pow_pos 0) h
  rw [Nat.pow_zero, Nat.mul_one, Nat.zero_add] at hlt ⊢
  exact ⟨used, rfl, hspells, hlt⟩

theorem takeVarint_complete {value : Nat} {used rest : List UInt8} (hused : Spells used value)
    (hvalue : value < 2 ^ 64) (hlength : used.length ≤ 10) :
    takeVarint (used ++ rest) = some (value, rest) := by
  have hfits : 0 + value * 2 ^ 0 < 2 ^ 64 := by rwa [Nat.pow_zero, Nat.mul_one, Nat.zero_add]
  have htake : takeVarintFrom 0 0 (used ++ rest) = some (0 + value * 2 ^ 0, rest) :=
    takeVarintFrom_complete hused (Nat.two_pow_pos 0) hfits (by omega)
  rwa [Nat.pow_zero, Nat.mul_one, Nat.zero_add] at htake

/-- What is read as an allocated PID spells its numbers, and these are as wide as their types. -/
theorem allocatedFrom_sound (h : allocatedFrom kind bytes = some pid) :
    ∃ branch allocator counter, pid = .allocated kind branch allocator counter ∧
      Spelled bytes branch allocator counter ∧ pid.Sized := by
  simp only [allocatedFrom, Option.bind_eq_bind, Option.bind_eq_some_iff, Prod.exists] at h
  obtain ⟨branch, rest, hbranch, allocator, rest', hallocator, counter, rest'', hcounter, h⟩ := h
  split at h
  · cases h
  · rename_i hempty
    split at h
    · rename_i hwide
      cases h
      obtain ⟨first, rfl, hfirst, hb⟩ := takeVarint_sound hbranch
      obtain ⟨second, rfl, hsecond, -⟩ := takeVarint_sound hallocator
      obtain ⟨third, rfl, hthird, hc⟩ := takeVarint_sound hcounter
      rw [not_not.1 hempty, List.append_nil]
      exact ⟨branch, allocator, counter, rfl, ⟨first, second, third, rfl, hfirst, hsecond, hthird⟩,
        hb, hwide, hc⟩
    · cases h

/-- **Rendering an allocated PID.**  Its payload fits the buffer and is no hash, spells its numbers without
waste, and is read back as the PID. -/
theorem payload_allocated (h : (Pid.allocated kind branch allocator counter).Sized) :
    ∃ bytes, (Pid.allocated kind branch allocator counter).payload = some bytes ∧
      bytes.length ≤ maxAllocated ∧ Spelled bytes branch allocator counter ∧ Trim bytes ∧
      allocatedFrom kind bytes = some (.allocated kind branch allocator counter) := by
  obtain ⟨hb, ha, hc⟩ := h
  obtain ⟨first, hput₁, hspells₁, htrim₁, hlen₁⟩ : ∃ first, putVarint hashLen branch = some first ∧
      Spells first branch ∧ Trim first ∧ first.length ≤ 10 :=
    putVarint_spec (by decide) (by decide) (hb.trans (by decide))
  have hroom₂ : 5 ≤ hashLen - first.length := by
    rw [hashLen]
    omega
  obtain ⟨second, hput₂, hspells₂, htrim₂, hlen₂⟩ : ∃ second,
      putVarint (hashLen - first.length) allocator = some second ∧ Spells second allocator ∧
        Trim second ∧ second.length ≤ 5 :=
    putVarint_spec (by decide) hroom₂ (ha.trans (by decide))
  have hroom₃ : 10 ≤ hashLen - first.length - second.length := by
    rw [hashLen]
    omega
  obtain ⟨third, hput₃, hspells₃, htrim₃, hlen₃⟩ : ∃ third,
      putVarint (hashLen - first.length - second.length) counter = some third ∧
        Spells third counter ∧ Trim third ∧ third.length ≤ 10 :=
    putVarint_spec (by decide) hroom₃ (hc.trans (by decide))
  refine ⟨first ++ (second ++ third), ?_, ?_, ⟨_, _, _, rfl, hspells₁, hspells₂, hspells₃⟩, ?_, ?_⟩
  · simp [Pid.payload, hput₁, hput₂, hput₃]
  · simp only [List.length_append, maxAllocated]
    omega
  · rw [hspells₁.trim_append, hspells₂.trim_append]
    exact ⟨htrim₁, htrim₂, htrim₃⟩
  · have hread₃ := @takeVarint_complete counter third [] hspells₃ hc hlen₃
    rw [List.append_nil] at hread₃
    have hread₂ := @takeVarint_complete allocator second third hspells₂ (ha.trans (by decide)) (by omega)
    have hread₁ := @takeVarint_complete branch first (second ++ third) hspells₁ hb hlen₁
    simp only [allocatedFrom, hread₁, hread₂, hread₃, Option.bind_eq_bind, Option.bind_some, ne_eq,
      not_true_eq_false, if_false, if_pos ha]

/-! ### Reading a text -/

/-- Bytes of a kind are a PID: a hash, or the three numbers. -/
def Carries (bytes : List UInt8) (kind : PidKind) (pid : Pid) : Prop :=
  (∃ h : bytes.length = hashLen, pid = .content kind ⟨bytes.toArray, h⟩) ∨
    (bytes.length ≠ hashLen ∧ allocatedFrom kind bytes = some pid)

theorem splitOnce_eq_some {sep : Char} {chars before after : List Char} :
    splitOnce sep chars = some (before, after) ↔ chars = before ++ sep :: after ∧ sep ∉ before := by
  induction chars generalizing before with
  | nil => simp [splitOnce]
  | cons c rest ih =>
    rw [splitOnce]
    by_cases hc : c = sep
    · subst hc
      rw [if_pos rfl]
      cases before with
      | nil => simp [eq_comm]
      | cons b before =>
        simp only [Option.some.injEq, Prod.mk.injEq, reduceCtorEq, false_and, List.cons_append,
          List.cons.injEq, List.mem_cons, not_or, false_iff, not_and]
        rintro ⟨rfl, -⟩ hne
        exact absurd rfl hne
    · rw [if_neg hc]
      cases before with
      | nil => simp [hc]
      | cons b before =>
        have hne : ¬ sep = c := fun he => hc he.symm
        simp only [Option.map_eq_some_iff, Prod.exists, Prod.mk.injEq, List.cons.injEq, List.cons_append,
          List.mem_cons, not_or]
        constructor
        · rintro ⟨before', after', hsplit, ⟨rfl, rfl⟩, rfl⟩
          obtain ⟨hrest, hmem⟩ := ih.1 hsplit
          exact ⟨⟨rfl, hrest⟩, hne, hmem⟩
        · rintro ⟨⟨rfl, hrest⟩, -, hmem⟩
          exact ⟨before, after, ih.2 ⟨hrest, hmem⟩, ⟨rfl, rfl⟩, rfl⟩

theorem kindOf_eq_some {letters : List Char} :
    kindOf letters = some kind ↔ ∃ letter, letters = [letter] ∧ PidKind.fromLetter letter = some kind := by
  match letters with
  | [] => simp [kindOf]
  | [letter] => simp [kindOf]
  | _ :: _ :: _ => simp [kindOf]

theorem splitOnce_letter (htext : text.toList = letter :: '-' :: payload)
    (hletter : PidKind.fromLetter letter = some kind) :
    splitOnce '-' text.toList = some ([letter], payload) := by
  refine splitOnce_eq_some.2 ⟨htext, fun hmem => ?_⟩
  have hnone : PidKind.fromLetter '-' = none := by decide
  rw [← List.mem_singleton.1 hmem, hnone] at hletter
  cases hletter

/-- **What is accepted.**  A kind letter, a hyphen, and digits whose bytes are a PID. -/
theorem fromStr_eq_ok :
    fromStr text = .ok pid ↔ ∃ letter payload kind bytes, text.toList = letter :: '-' :: payload ∧
      PidKind.fromLetter letter = some kind ∧ decodeBase32 payload = .ok bytes ∧
      Carries bytes kind pid := by
  constructor
  · intro h
    rw [fromStr] at h
    split at h
    · cases h
    · rename_i letters payload hsplit
      split at h
      · cases h
      · rename_i kind hkind
        split at h
        · cases h
        · rename_i bytes hbytes
          obtain ⟨letter, rfl, hletter⟩ := kindOf_eq_some.1 hkind
          refine ⟨letter, payload, kind, bytes, (splitOnce_eq_some.1 hsplit).1, hletter, hbytes, ?_⟩
          split at h
          · rename_i hlength
            cases h
            exact Or.inl ⟨hlength, rfl⟩
          · rename_i hlength
            split at h
            · rename_i found hfound
              cases h
              exact Or.inr ⟨hlength, hfound⟩
            · cases h
  · rintro ⟨letter, payload, kind, bytes, htext, hletter, hbytes, hcarries⟩
    have hkind : kindOf [letter] = some kind := hletter
    simp only [fromStr, splitOnce_letter htext hletter, hkind, hbytes]
    rcases hcarries with ⟨hlength, rfl⟩ | ⟨hlength, hfound⟩
    · rw [dif_pos hlength]
    · rw [dif_neg hlength, hfound]

/-! ### Writing and reading back -/

theorem fromLetter_letter (kind : PidKind) :
    PidKind.fromLetter kind.letter = some kind ∧ PidKind.fromLetter kind.letter.toUpper = some kind := by
  cases kind <;> decide

/-- The payload of a PID fits the buffer and is its own, and it is as long as a hash only if it is one. -/
theorem payload_carries (h : pid.Sized) :
    ∃ bytes, pid.payload = some bytes ∧ (bytes.length ≤ maxAllocated ∨ bytes.length = hashLen) ∧
      Carries bytes pid.kind pid := by
  cases pid with
  | allocated kind branch allocator counter =>
    obtain ⟨bytes, hpayload, hlength, -, -, hread⟩ := payload_allocated h
    have hne : bytes.length ≠ hashLen := (hlength.trans_lt (by decide)).ne
    exact ⟨bytes, hpayload, Or.inl hlength, Or.inr ⟨hne, hread⟩⟩
  | content kind hash =>
    have hlength : hash.toList.length = hashLen := hash.length_toList
    exact ⟨hash.toList, rfl, Or.inr hlength, Or.inl ⟨hlength, rfl⟩⟩

theorem map_digit (hdigits : ∀ d ∈ digits, d < 2 ^ 5) :
    (digits.map digitAt).map digit = digits.map some ∧
      ((digits.map digitAt).map Char.toUpper).map digit = digits.map some := by
  rw [List.map_map, List.map_map, List.map_map]
  exact ⟨List.map_congr_left fun d hd => digit_digitAt d (hdigits d hd),
    List.map_congr_left fun d hd => digit_toUpper d (hdigits d hd)⟩

/-- What is written for a PID: a kind letter, a hyphen and digits, which are read as its bytes. -/
theorem display_digits (h : pid.Sized) :
    ∃ (bytes : List UInt8) (digits : List Nat),
      pid.display = some (String.ofList (pid.kind.letter :: '-' :: digits.map digitAt)) ∧
      (∀ d ∈ digits, d < 2 ^ 5) ∧ Carries bytes pid.kind pid ∧
      ∀ payload, payload.map digit = digits.map some → decodeBase32 payload = .ok bytes := by
  obtain ⟨bytes, hpayload, hlength, hcarries⟩ := payload_carries h
  obtain ⟨digits, pad, hencode, hpad, hpadded, hdigits⟩ := encodeBase32_spec bytes
  refine ⟨bytes, digits, ?_, hdigits, hcarries, fun payload hread => ?_⟩
  · rw [display, hpayload, Option.map_some, hencode]
  · exact decodeBase32_complete hread hpadded (hpad.trans (by decide)) hlength

theorem fromStr_letters {digits : List Nat} (hdigits : ∀ d ∈ digits, d < 2 ^ 5)
    (hcarries : Carries bytes pid.kind pid)
    (hread : ∀ payload, payload.map digit = digits.map some → decodeBase32 payload = .ok bytes) :
    fromStr (String.ofList (pid.kind.letter :: '-' :: digits.map digitAt)) = .ok pid :=
  fromStr_eq_ok.2 ⟨_, _, _, bytes, String.toList_ofList, (fromLetter_letter pid.kind).1,
    hread _ (map_digit hdigits).1, hcarries⟩

/-- **The text form is lossless.**  Every PID has one, its payload staying inside the buffer, and it is read
back as the PID, in upper case too. -/
theorem fromStr_display (h : pid.Sized) :
    ∃ text, pid.display = some text ∧ fromStr text = .ok pid ∧ fromStr text.toUpper = .ok pid := by
  obtain ⟨bytes, digits, hdisplay, hdigits, hcarries, hread⟩ := display_digits h
  refine ⟨_, hdisplay, fromStr_letters hdigits hcarries hread, ?_⟩
  refine fromStr_eq_ok.2 ⟨pid.kind.letter.toUpper, (digits.map digitAt).map Char.toUpper, _, bytes, ?_,
    (fromLetter_letter pid.kind).2, hread _ (map_digit hdigits).2, hcarries⟩
  rw [String.toUpper, String.toList_map, String.toList_ofList]
  rfl

theorem fromStr_display_widest :
    (Pid.allocated .anyArray (2 ^ 64 - 1) (2 ^ 32 - 1) (2 ^ 64 - 1)).Sized ∧
      ∃ text, (Pid.allocated .anyArray (2 ^ 64 - 1) (2 ^ 32 - 1) (2 ^ 64 - 1)).display = some text ∧
        fromStr text = .ok (.allocated .anyArray (2 ^ 64 - 1) (2 ^ 32 - 1) (2 ^ 64 - 1)) ∧
        fromStr text.toUpper = .ok (.allocated .anyArray (2 ^ 64 - 1) (2 ^ 32 - 1) (2 ^ 64 - 1)) := by
  have hsized : (Pid.allocated .anyArray (2 ^ 64 - 1) (2 ^ 32 - 1) (2 ^ 64 - 1)).Sized := by
    exact ⟨by decide, by decide, by decide⟩
  exact ⟨hsized, fromStr_display hsized⟩

/-! ### Spellings of one PID -/

/-- A text under the folding of its alphabet: in lower case, and in the payload `i` and `l` read as `1` and
`o` as `0`. -/
def fold (text : String) : String :=
  match splitOnce '-' text.toList with
  | some (letters, payload) =>
    String.ofList (letters.map Char.toLower ++ '-' :: payload.map foldDigit)
  | none => text.toLower

/-- What stands after the hyphen. -/
def payloadOf (text : String) : List Char :=
  ((splitOnce '-' text.toList).map Prod.snd).getD []

/-- A text without waste.  It has no more digits than its bytes need, and these bytes are a hash, or none of
them that says a number goes on is followed by a zero. -/
def Tight (text : String) : Prop :=
  5 * (payloadOf text).length % 8 < 5 ∧
    ∀ digits bytes pad, (payloadOf text).map digit = digits.map some →
      Padded 8 5 (values bytes) digits pad → pad < 8 → bytes.length = hashLen ∨ Trim bytes

theorem letter_of_fromLetter (h : PidKind.fromLetter letter = some kind) :
    letter.toLower = kind.letter := by
  unfold PidKind.fromLetter at h
  split at h <;> cases h <;> assumption

theorem map_foldDigit (h : payload.map digit = digits.map some) :
    payload.map foldDigit = digits.map digitAt ∧ ∀ d ∈ digits, d < 2 ^ 5 := by
  induction payload generalizing digits with
  | nil =>
    obtain rfl : digits = [] := List.map_eq_nil_iff.1 h.symm
    simp
  | cons c payload ih =>
    cases digits with
    | nil => cases h
    | cons value digits =>
      obtain ⟨hc, hrest⟩ := List.cons_eq_cons.1 h
      obtain ⟨hlt, heq⟩ := digitAt_eq hc
      obtain ⟨hfold, hall⟩ := ih hrest
      exact ⟨by rw [List.map_cons, List.map_cons, hfold, heq], List.forall_mem_cons.2 ⟨hlt, hall⟩⟩

/-- What would be written for what was read: the same bytes, unless a number in them is not trim. -/
theorem Carries.written (h : Carries bytes kind pid) :
    pid.Sized ∧ pid.kind = kind ∧ ∃ written, pid.payload = some written ∧
      (written = bytes ↔ bytes.length = hashLen ∨ Trim bytes) := by
  rcases h with ⟨hlength, rfl⟩ | ⟨hlength, hread⟩
  · exact ⟨trivial, rfl, bytes, rfl, by simp [hlength]⟩
  · obtain ⟨branch, allocator, counter, rfl, hspelled, hsized⟩ := allocatedFrom_sound hread
    obtain ⟨written, hpayload, -, hspelled', htrim, -⟩ := payload_allocated hsized
    refine ⟨hsized, rfl, written, hpayload, ?_⟩
    constructor
    · rintro rfl
      exact Or.inr htrim
    · rintro (heq | htight)
      · exact absurd heq hlength
      · exact hspelled'.trim_unique hspelled htrim htight

theorem sized_of_fromStr (h : fromStr text = .ok pid) : pid.Sized := by
  obtain ⟨_, _, _, _, -, -, -, hcarries⟩ := fromStr_eq_ok.1 h
  exact hcarries.written.1

theorem isAlphanum_digitAt : ∀ value < 32, (digitAt value).isAlphanum = true := by decide +kernel

/-- The text of a PID is letters and digits around one hyphen, and is read back. -/
theorem display_plain (h : pid.Sized) :
    ∃ text, pid.display = some text ∧ fromStr text = .ok pid ∧
      ∀ c ∈ text.toList, c.isAlphanum = true ∨ c = '-' := by
  obtain ⟨bytes, digits, hdisplay, hdigits, hcarries, hread⟩ := display_digits h
  refine ⟨_, hdisplay, fromStr_letters hdigits hcarries hread, fun c hc => ?_⟩
  rw [String.toList_ofList] at hc
  rcases List.mem_cons.1 hc with rfl | hc
  · exact Or.inl (by cases pid.kind <;> decide)
  · rcases List.mem_cons.1 hc with rfl | hc
    · exact Or.inr rfl
    · obtain ⟨d, hd, rfl⟩ := List.mem_map.1 hc
      exact Or.inl (isAlphanum_digitAt d (hdigits d hd))

/-- What `Tight` asks of a text whose digits are some bytes and padding. -/
theorem tight_iff (hsplit : splitOnce '-' text.toList = some ([letter], payload))
    (hdigits : payload.map digit = digits.map some) (hpadded : Padded 8 5 (values bytes) digits pad)
    (hpad : pad < 8) : Tight text ↔ pad < 5 ∧ (bytes.length = hashLen ∨ Trim bytes) := by
  have hpayload : payloadOf text = payload := by
    rw [payloadOf, hsplit]
    rfl
  have hlengths : payload.length = digits.length := by
    rw [← List.length_map digit, hdigits, List.length_map]
  have hbits := hpadded.length
  have hmod : 5 * payload.length % 8 = pad := by
    rw [hlengths]
    omega
  rw [Tight, hpayload, hmod]
  refine and_congr_right fun _ => ⟨fun hall => hall digits bytes pad hdigits hpadded hpad, ?_⟩
  intro htrim digits' bytes' pad' hdigits' hpadded' hpad'
  have hsame : digits' = digits :=
    List.map_injective_iff.2 (Option.some_injective _) (hdigits'.symm.trans hdigits)
  rw [hsame] at hpadded'
  rwa [map_toNat_injective (hpadded'.taken_eq hpadded hpad' hpad values_lt values_lt)]

theorem display_eq_iff {written : List UInt8} {digits' : List Nat}
    (hsplit : splitOnce '-' text.toList = some ([letter], payload))
    (hletter : letter.toLower = pid.kind.letter) (hdigits : payload.map digit = digits.map some)
    (hwritten : pid.payload = some written) (hencode : encodeBase32 written = digits'.map digitAt)
    (hlt : ∀ d ∈ digits', d < 2 ^ 5) : pid.display = some (fold text) ↔ digits' = digits := by
  obtain ⟨hfold, hlt'⟩ := map_foldDigit hdigits
  have hfoldText : fold text = String.ofList (pid.kind.letter :: '-' :: digits.map digitAt) := by
    rw [fold, hsplit, ← hletter, ← hfold]
    rfl
  rw [display, hwritten, hfoldText, Option.map_some, hencode, Option.some.injEq, String.ofList_inj]
  constructor
  · intro heq
    obtain ⟨-, hchars⟩ := List.cons.inj (List.cons.inj heq).2
    have hvalues : digits'.map some = digits.map some := by
      rw [← (map_digit hlt).1, ← (map_digit hlt').1, hchars]
    exact List.map_injective_iff.2 (Option.some_injective _) hvalues
  · rintro rfl
    rfl

/-- A text that is read as a PID is what is written for it, up to folding, where it has no waste. -/
theorem display_eq_fold_iff (h : fromStr text = .ok pid) :
    pid.display = some (fold text) ↔ Tight text := by
  obtain ⟨letter, payload, kind, bytes, htext, hletter, hbytes, hcarries⟩ := fromStr_eq_ok.1 h
  obtain ⟨digits, pad, hdigits, hpad, hpadded, -⟩ := decodeBase32_sound hbytes
  obtain ⟨-, rfl, written, hwritten, hsame⟩ := hcarries.written
  obtain ⟨digits', pad', hencode, hpad', hpadded', hlt'⟩ := encodeBase32_spec written
  have hsplit := splitOnce_letter htext hletter
  rw [display_eq_iff hsplit (letter_of_fromLetter hletter) hdigits hwritten hencode hlt',
    tight_iff hsplit hdigits hpadded hpad, ← hsame]
  have hbits := hpadded.length
  have hbits' := hpadded'.length
  constructor
  · rintro rfl
    have hpad'' : pad' < 8 := hpad'.trans (by decide)
    have heq := map_toNat_injective (hpadded'.taken_eq hpadded hpad'' hpad values_lt values_lt)
    rw [heq] at hbits'
    exact ⟨by omega, heq⟩
  · rintro ⟨hshort, rfl⟩
    exact hpadded'.given_eq hpadded hpad' hshort hlt' (map_foldDigit hdigits).2

/-- **When a PID has one spelling.**  A text that is read as a PID is, up to folding, the text that is
written for it exactly where it has no waste; and so two such texts of one PID are the same up to folding. -/
theorem one_spelling_iff (h : fromStr text = .ok pid) :
    (pid.display = some (fold text) ↔ Tight text) ∧
      ∀ text', fromStr text' = .ok pid → Tight text → Tight text' → fold text = fold text' := by
  refine ⟨display_eq_fold_iff h, fun text' h' ht ht' => ?_⟩
  have hwritten := (display_eq_fold_iff h).2 ht
  rw [(display_eq_fold_iff h').2 ht'] at hwritten
  exact (Option.some.inj hwritten).symm

theorem one_spelling_folded :
    fromStr "O-O4lAr0G" = .ok (.allocated .object 1 2 300) ∧
      ((Pid.allocated .object 1 2 300).display = some (fold "O-O4lAr0G") ↔ Tight "O-O4lAr0G") ∧
      ∀ text', fromStr text' = .ok (.allocated .object 1 2 300) → Tight "O-O4lAr0G" → Tight text' →
        fold "O-O4lAr0G" = fold text' := by
  have hread : fromStr "O-O4lAr0G" = .ok (.allocated .object 1 2 300) := by decide +kernel
  exact ⟨hread, one_spelling_iff hread⟩

/-- A zero too many: both texts are read as the object of three zeros, and they do not fold to one text. -/
theorem two_spellings :
    ¬ ∀ text text' pid, fromStr text = .ok pid → fromStr text' = .ok pid → fold text = fold text' := by
  intro h
  have hread : fromStr "o-00000" = .ok (.allocated .object 0 0 0) := by decide +kernel
  have hread' : fromStr "o-000000" = .ok (.allocated .object 0 0 0) := by decide +kernel
  have hfold := h _ _ _ hread hread'
  revert hfold
  decide +kernel

end Pid

end BorgCore
