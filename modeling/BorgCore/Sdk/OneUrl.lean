import BorgCore.Sdk.Connection

/-!
# One URL, one meaning

The two parsers take the same strings for the same connections, except where a port is spelled as the one's
integers can be and the other's pattern does not allow.
-/

namespace BorgCore

namespace Sdk

namespace OneUrl

variable {α β ε ε' : Type} {text : String} {rest port : List Char} {secure : Bool}

/-- Both refuse, or both accept and what they found is related. -/
def Agree (R : α → β → Prop) : Except ε α → Except ε' β → Prop
  | .ok a, .ok b => R a b
  | .error _, .error _ => True
  | _, _ => False

theorem Agree.map {α' β' : Type} {R : α → β → Prop} {S : α' → β' → Prop} {x : Except ε α} {y : Except ε' β}
    {f : α → α'} {g : β → β'} (h : Agree R x y) (hfg : ∀ a b, R a b → S (f a) (g b)) :
    Agree S (x.map f) (y.map g) := by
  cases x <;> cases y
  · trivial
  · exact h
  · exact h
  · exact hfg _ _ h

theorem Agree.map_iff {α' β' : Type} {R : α → β → Prop} {S : α' → β' → Prop} {x : Except ε α}
    {y : Except ε' β} {f : α → α'} {g : β → β'} (hfg : ∀ a b, R a b ↔ S (f a) (g b)) :
    Agree S (x.map f) (y.map g) ↔ Agree R x y := by
  cases x <;> cases y
  · rfl
  · rfl
  · rfl
  · exact (hfg _ _).symm

/-- The two results name one address. -/
def SameAddress (url' : TypeScript.BorgUrl) : Url.Transport → Prop
  | .localSocket => url'.transport = .localSocket ∧ url'.path = none ∧ url'.ws = none
  | .unix path => url'.transport = .unix ∧ url'.path = some path ∧ url'.ws = none
  | .ws secure host port => url'.transport = .ws ∧ url'.path = none ∧ url'.ws = some ⟨secure, host, port⟩

structure Alike (url : Url.ConnectionUrl) (url' : TypeScript.BorgUrl) : Prop where
  address : SameAddress url' url.transport
  registry : url'.registry = url.registry

structure Same (url : Url.ConnectionUrl) (url' : TypeScript.BorgUrl) : Prop extends Alike url url' where
  credential : url'.credential = url.credential

/-- The text means one thing in both languages, and is quoted alike. -/
def OneMeaning (text : String) : Prop :=
  Agree Same (Url.parse text) (TypeScript.parseBorgUrl text) ∧
    Url.redacted text = TypeScript.redactBorgUrl text

/-! ### Pieces -/

theorem take_slash (rest : List Char) :
    rest.take ((rest.idxOf? '/').getD rest.length) = TypeScript.authorityOf rest := by
  unfold TypeScript.authorityOf
  cases rest.idxOf? '/' with
  | none => exact List.take_length
  | some slash => rfl

theorem splitSlash_eq (rest : List Char) :
    Url.splitSlash rest = (TypeScript.authorityOf rest, TypeScript.tailOf rest) := by
  unfold Url.splitSlash TypeScript.authorityOf TypeScript.tailOf
  cases rest.idxOf? '/' <;> rfl

theorem redacted_eq (text : String) : Url.redacted text = TypeScript.redactBorgUrl text := by
  unfold Url.redacted TypeScript.redactBorgUrl
  cases Text.find Url.mark text.toList with
  | none => rfl
  | some i =>
    simp only [take_slash]
    cases (TypeScript.authorityOf (text.toList.drop (i + 3))).idxOf? '@' <;> rfl

theorem nameIsValid_eq (name : List Char) : TypeScript.nameIsValid name = Url.nameIsValid name := by
  have hpattern : (fun c : Char => c.isAlphanum || c = '_' || c = '-') =
      fun c : Char => c.isAlphanum || c = '-' || c = '_' := by
    funext c
    rw [Bool.or_assoc, Bool.or_comm (decide (c = '_')), ← Bool.or_assoc]
  unfold TypeScript.nameIsValid Url.nameIsValid
  rw [hpattern]
  cases name <;> rfl

theorem registrySegment_agree (text : String) (tail : List Char) :
    Agree (· = ·) (Url.registrySegment text tail) (TypeScript.registrySegment text tail) := by
  unfold Url.registrySegment TypeScript.registrySegment
  simp only [nameIsValid_eq, List.isEmpty_iff]
  split
  · rfl
  · split
    · trivial
    · split
      · trivial
      · rfl

theorem take_authority {i : Nat} (h : (TypeScript.authorityOf rest).idxOf? '@' = some i) :
    (TypeScript.authorityOf rest).take i = rest.take i := by
  obtain ⟨hlt, -⟩ := List.idxOf?_eq_some_iff.1 h
  rw [← take_slash] at hlt ⊢
  rw [List.length_take] at hlt
  rw [List.take_take, Nat.min_eq_left (by omega)]

theorem key_eq (written : List Char) :
    (written.dropPrefix? [':']).getD written =
      if written.head? = some ':' then written.drop 1 else written := by
  cases written with
  | nil => rfl
  | cons c rest =>
    by_cases hc : c = ':'
    · simp [List.dropPrefix?, hc]
    · have hnone : (c :: rest).dropPrefix? [':'] = none := by simp [List.dropPrefix?, hc]
      simp [hnone, hc]

theorem userinfo_agree (text : String) (rest : List Char) :
    Agree (· = ·) (Url.userinfo text rest) (TypeScript.userinfo text rest) := by
  simp only [Url.userinfo, TypeScript.userinfo, take_slash]
  cases hat : (TypeScript.authorityOf rest).idxOf? '@' with
  | none => rfl
  | some i =>
    simp only [take_authority hat, key_eq, List.isEmpty_iff]
    generalize (if (rest.take i).head? = some ':' then (rest.take i).drop 1 else rest.take i) = key
    split
    · trivial
    · split
      · trivial
      · rfl

/-! ### Addresses -/

theorem localUrl_agree : Agree Alike (Url.localUrl text rest) (TypeScript.localUrl text rest) := by
  have hregistry := registrySegment_agree text (TypeScript.tailOf rest)
  simp only [Url.localUrl, TypeScript.localUrl, splitSlash_eq]
  generalize "localhost".toList = word
  have hhost : (!(TypeScript.authorityOf rest).isEmpty && decide (TypeScript.authorityOf rest ≠ word)) = true ↔
      TypeScript.authorityOf rest ≠ [] ∧ TypeScript.authorityOf rest ≠ word := by
    rw [Bool.and_eq_true, decide_eq_true_eq, Bool.not_eq_true', List.isEmpty_eq_false_iff]
  by_cases hremote : TypeScript.authorityOf rest ≠ [] ∧ TypeScript.authorityOf rest ≠ word
  · rw [if_pos hremote, if_pos (hhost.2 hremote)]
    trivial
  · rw [if_neg hremote, if_neg (mt hhost.1 hremote)]
    refine hregistry.map ?_
    rintro registry _ rfl
    exact ⟨⟨rfl, rfl, rfl⟩, rfl⟩

theorem findLast_eq_none {c : Char} : Text.findLast c rest = none ↔ c ∉ rest := by
  rw [Text.findLast, Option.map_eq_none_iff, List.idxOf?_eq_none_iff, List.mem_reverse]

theorem unix_agree : Agree Alike (Url.unix text rest) (TypeScript.unix text rest) := by
  unfold Url.unix TypeScript.unix
  split
  · trivial
  · rename_i hhead
    split
    · simp only [List.isEmpty_iff]
      split
      · trivial
      · exact ⟨⟨rfl, rfl, rfl⟩, rfl⟩
    · cases hsplit : Text.findLast '/' rest with
      | none =>
        have hmem : '/' ∈ rest := List.mem_of_mem_head? (not_not.1 hhead)
        exact absurd hmem (findLast_eq_none.1 hsplit)
      | some i =>
        simp only [Option.getD_some, nameIsValid_eq, Bool.and_eq_true, Bool.not_eq_true',
          List.isEmpty_eq_false_iff]
        split
        · exact ⟨⟨rfl, rfl, rfl⟩, rfl⟩
        · exact ⟨⟨rfl, rfl, rfl⟩, rfl⟩

/-! ### Ports -/

/-- The port is spelled as an integer can be, and not as the pattern asks: with a sign, or with more than five
digits, which zeros begin. -/
def LooseSpelling (port : List Char) : Prop := (Number.parseU16 port).isSome = true ∧ TypeScript.isPort port = false

theorem parseU16_of_isPort (h : TypeScript.isPort port = true) :
    Number.parseU16 port =
      if 65535 < Positional.value 10 (port.map fun c => c.toNat - '0'.toNat) then none
      else some (Positional.value 10 (port.map fun c => c.toNat - '0'.toNat)) := by
  rw [TypeScript.isPort, Bool.and_eq_true, Bool.and_eq_true, decide_eq_true_eq, List.all_eq_true] at h
  obtain ⟨⟨hlength, -⟩, hdigits⟩ := h
  have hne : port ≠ [] := by
    rintro rfl
    exact absurd hlength (by decide)
  have hread := Number.digitsOf_eq_some.2 ⟨hne, hdigits, rfl⟩
  rw [Number.parseU16, Number.unsigned_of_digits hread, Option.filter_some]
  by_cases hlarge : 65535 < Positional.value 10 (port.map fun c => c.toNat - '0'.toNat)
  · rw [if_pos hlarge, if_neg (by rw [decide_eq_true_eq]; omega)]
  · rw [if_neg hlarge, if_pos (by rw [decide_eq_true_eq]; omega)]

/-- The address of a websocket that one parser takes and the other does not: all but the spelling of its port
is as it should be. -/
def LooseAddress (text : String) (rest : List Char) : Prop :=
  ∃ colon registry, Text.findLast ':' (TypeScript.authorityOf rest) = some colon ∧
    (TypeScript.authorityOf rest).take colon ≠ [] ∧
    LooseSpelling ((TypeScript.authorityOf rest).drop (colon + 1)) ∧
    Url.registrySegment text (TypeScript.tailOf rest) = .ok registry

theorem websocket_agree : Agree Alike (Url.websocket text rest secure) (TypeScript.websocket text rest secure) ↔
    ¬ LooseAddress text rest := by
  have hregistry := registrySegment_agree text (TypeScript.tailOf rest)
  have hsame (host : List Char) (port : Nat) :
      Agree Alike ((Url.registrySegment text (TypeScript.tailOf rest)).map fun registry =>
          ⟨.ws secure (String.ofList host) port, registry, none⟩)
        ((TypeScript.registrySegment text (TypeScript.tailOf rest)).map fun registry =>
          ⟨.ws, none, some ⟨secure, String.ofList host, port⟩, registry, none⟩) := by
    refine hregistry.map ?_
    rintro registry _ rfl
    exact ⟨⟨rfl, rfl, rfl⟩, rfl⟩
  simp only [Url.websocket, TypeScript.websocket, splitSlash_eq, LooseAddress]
  generalize TypeScript.authorityOf rest = authority
  by_cases hempty : authority = []
  · subst hempty
    refine iff_of_true trivial ?_
    rintro ⟨colon, registry, hcolon, -⟩
    cases hcolon
  · have hnonempty : authority.isEmpty = false := List.isEmpty_eq_false_iff.2 hempty
    rw [hnonempty, if_neg hempty]
    cases hcolon : Text.findLast ':' authority with
    | none =>
      refine iff_of_true ?_ (by simp)
      simp only [Url.hostPort, hcolon, hnonempty, if_neg hempty, Option.map_none, Bool.false_eq_true, if_false]
      exact hsame authority _
    | some colon =>
      simp only [Url.hostPort, hcolon, Option.map_some, Bool.false_eq_true, if_false, LooseSpelling,
        Option.some.injEq]
      generalize hport : authority.drop (colon + 1) = port
      by_cases hhost : authority.take colon = []
      · refine iff_of_true ?_ ?_
        · rw [if_pos hhost]
          cases Number.parseU16 port with
          | none => trivial
          | some number =>
            simp only [hhost, List.isEmpty_nil, if_true]
            trivial
        · rintro ⟨_, _, rfl, hne, -⟩
          exact hne hhost
      · have hnamed : (authority.take colon).isEmpty = false := List.isEmpty_eq_false_iff.2 hhost
        rw [if_neg hhost]
        cases hpattern : TypeScript.isPort port with
        | true =>
          refine iff_of_true ?_ ?_
          · rw [parseU16_of_isPort hpattern]
            simp only [Bool.not_true, Bool.false_eq_true, if_false]
            by_cases hlarge : 65535 < Positional.value 10 (port.map fun c => c.toNat - '0'.toNat)
            · simp only [if_pos hlarge]
              trivial
            · simp only [if_neg hlarge, hnamed, Bool.false_eq_true, if_false]
              exact hsame _ _
          · rintro ⟨_, _, rfl, -, ⟨-, hloose⟩, -⟩
            rw [hport, hpattern] at hloose
            cases hloose
        | false =>
          cases hread : Number.parseU16 port with
          | none =>
            refine iff_of_true trivial ?_
            rintro ⟨_, _, rfl, -, ⟨hloose, -⟩, -⟩
            rw [hport, hread] at hloose
            cases hloose
          | some number =>
            simp only [hnamed, Bool.false_eq_true, if_false, Bool.not_false, if_true]
            cases hsegment : Url.registrySegment text (TypeScript.tailOf rest) with
            | error err =>
              refine iff_of_true trivial ?_
              rintro ⟨_, _, -, -, -, hok⟩
              cases hok
            | ok registry =>
              refine iff_of_false id (not_not.2 ⟨colon, registry, rfl, hhost, ⟨?_, ?_⟩, rfl⟩)
              · rw [hport, hread]
                rfl
              · rw [hport, hpattern]

/-! ### Texts -/

/-- The text is the URL of a websocket that names its port so: what comes before the address is in order too. -/
def LoosePort (text : String) : Prop :=
  ∃ i credential rest, Text.find Url.mark text.toList = some i ∧
    ((text.toList.drop (i + 3)).find? fun c => c = '?' || c = '#') = none ∧
    Url.userinfo text (text.toList.drop (i + 3)) = .ok (credential, rest) ∧
    (text.toList.take i = "borg+ws".toList ∨ text.toList.take i = "borg+wss".toList) ∧ LooseAddress text rest

theorem transport_agree (text : String) (scheme rest : List Char) :
    Agree Alike (Url.transport text scheme rest) (TypeScript.transport text scheme rest) ↔
      ¬ ((scheme = "borg+ws".toList ∨ scheme = "borg+wss".toList) ∧ LooseAddress text rest) := by
  unfold Url.transport TypeScript.transport
  split
  · rename_i hscheme
    refine iff_of_true localUrl_agree ?_
    rw [hscheme]
    rintro ⟨heq | heq, -⟩
    · exact absurd heq (by decide)
    · exact absurd heq (by decide)
  · split
    · rename_i hscheme
      refine iff_of_true unix_agree ?_
      rw [hscheme]
      rintro ⟨heq | heq, -⟩
      · exact absurd heq (by decide)
      · exact absurd heq (by decide)
    · split
      · rename_i hscheme
        rw [websocket_agree]
        simp only [hscheme, true_or, true_and]
      · split
        · rename_i hscheme
          rw [websocket_agree]
          simp only [hscheme, or_true, true_and]
        · rename_i hws hwss
          refine iff_of_true trivial ?_
          rintro ⟨heq | heq, -⟩
          · exact hws heq
          · exact hwss heq

/-- **One URL means one thing** in both languages, and is redacted alike, unless it is the URL of a websocket
whose port one of them reads and the other refuses. -/
theorem oneMeaning_iff (text : String) : OneMeaning text ↔ ¬ LoosePort text := by
  rw [OneMeaning, and_iff_left (redacted_eq text)]
  unfold Url.parse TypeScript.parseBorgUrl LoosePort
  cases hmark : Text.find Url.mark text.toList with
  | none =>
    refine iff_of_true trivial ?_
    rintro ⟨_, _, _, hsome, -⟩
    cases hsome
  | some i =>
    simp only [Option.some.injEq]
    cases hstray : (text.toList.drop (i + 3)).find? fun c => c = '?' || c = '#' with
    | some stray =>
      refine iff_of_true trivial ?_
      rintro ⟨_, _, _, rfl, hnone, -⟩
      rw [hstray] at hnone
      cases hnone
    | none =>
      have huserinfo := userinfo_agree text (text.toList.drop (i + 3))
      cases hrust : Url.userinfo text (text.toList.drop (i + 3)) with
      | error err =>
        cases hts : TypeScript.userinfo text (text.toList.drop (i + 3)) with
        | ok found =>
          rw [hrust, hts] at huserinfo
          exact huserinfo.elim
        | error reason =>
          refine iff_of_true trivial ?_
          rintro ⟨_, _, _, rfl, -, hok, -⟩
          rw [hrust] at hok
          cases hok
      | ok found =>
        obtain ⟨credential, rest⟩ := found
        cases hts : TypeScript.userinfo text (text.toList.drop (i + 3)) with
        | error reason =>
          rw [hrust, hts] at huserinfo
          exact huserinfo.elim
        | ok found' =>
          rw [hrust, hts] at huserinfo
          obtain rfl : (credential, rest) = found' := huserinfo
          simp only
          rw [Agree.map_iff (R := Alike) fun url url' => ⟨fun h => ⟨⟨h.address, h.registry⟩, rfl⟩,
            fun h => ⟨h.address, h.registry⟩⟩, transport_agree, not_iff_not]
          constructor
          · rintro ⟨hscheme, hloose⟩
            exact ⟨i, credential, rest, rfl, hstray, hrust, hscheme, hloose⟩
          · rintro ⟨_, _, _, rfl, -, hok, hscheme, hloose⟩
            rw [hrust] at hok
            cases hok
            exact ⟨hscheme, hloose⟩

/-- **A port of one language.**  What Rust reads as a port with a sign is refused by the pattern. -/
theorem two_meanings : ¬ OneMeaning "borg+ws://h:+80" := by
  rintro ⟨hagree, -⟩
  have hrust : Url.parse "borg+ws://h:+80" = .ok ⟨.ws false "h" 80, none, none⟩ := by rfl
  obtain ⟨reason, hts⟩ : ∃ reason, TypeScript.parseBorgUrl "borg+ws://h:+80" = .error reason := ⟨_, rfl⟩
  rw [hrust, hts] at hagree
  exact hagree

end OneUrl

end Sdk

end BorgCore
