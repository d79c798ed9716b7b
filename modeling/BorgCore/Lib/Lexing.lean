import BorgCore.Lib.EcmaScript

/-!
# What a lexer makes of a text

The tokens a text lexes into are lawful: a name is a name, a string says what it says, a comment is not closed before
its end.  Conversely a text that is put together of lawful pieces lexes into their tokens.
-/

namespace BorgCore

namespace EcmaScript

variable {unicode : Unicode} {mode mode' mode'' : Mode} {text rest raw value : List Char}
  {tokens tokens' : List Token} {c : Char}

/-! ### What a token is -/

def close : List Char := ['*', '/']

/-- What a token says of its text. -/
def Token.Lawful (unicode : Unicode) : Token → Prop
  | .identifier name => isIdentifierName unicode name = true ∧ isReserved name = false
  | .keyword word => isReserved word = true
  | .string raw value => unescape raw = some value
  | .line text => ∀ c ∈ text, isLineTerminator c = false
  | .block text => ¬ close <:+: text
  | .number _ | .punctuator _ => True

/-- What a lexer inside of a token has seen of it. -/
def Mode.Lawful (unicode : Unicode) : Mode → Prop
  | .word text => isIdentifierName unicode text = true
  | .line text => ∀ c ∈ text, isLineTerminator c = false
  | .block text => ¬ close <:+: text ∧ ¬ ['*'] <:+ text
  | .star text => ¬ close <:+: text
  | _ => True

theorem wordToken_lawful (h : isIdentifierName unicode text = true) : (wordToken text).Lawful unicode := by
  unfold wordToken
  split
  · assumption
  · rename_i hfree
    exact ⟨h, Bool.not_eq_true _ ▸ hfree⟩

theorem isIdentifierName_concat (h : isIdentifierName unicode text = true) (hc : isIdContinue unicode c = true) :
    isIdentifierName unicode (text ++ [c]) = true := by
  cases text with
  | nil => cases h
  | cons first others =>
    obtain ⟨hfirst, hothers⟩ := Bool.and_eq_true_iff.1 h
    refine Bool.and_eq_true_iff.2 ⟨hfirst, ?_⟩
    simp [hothers, hc]

/-- A comment is closed by the character that is put to it, or was before. -/
theorem close_concat : close <:+: text ++ [c] ↔ close <:+: text ∨ ['*'] <:+ text ∧ c = '/' := by
  rw [List.infix_concat_iff, List.suffix_concat_iff]
  constructor
  · rintro ((hnil | ⟨before, hclose, hsuffix⟩) | hinside)
    · cases hnil
    · obtain ⟨rfl, hlast⟩ := List.append_inj' (show ['*'] ++ ['/'] = before ++ [c] from hclose) rfl
      cases hlast
      exact Or.inr ⟨hsuffix, rfl⟩
    · exact Or.inl hinside
  · rintro (hinside | ⟨hsuffix, rfl⟩)
    · exact Or.inr hinside
    · exact Or.inl (Or.inr ⟨['*'], rfl, hsuffix⟩)

theorem start_lawful (h : start unicode c = some mode) : mode.Lawful unicode := by
  unfold start at h
  split at h
  · rename_i hstart
    cases h
    simp [Mode.Lawful, isIdentifierName, hstart]
  · split at h
    · cases h
      trivial
    · split at h
      · cases h
        trivial
      · split at h
        · cases h
          trivial
        · split at h
          · cases h
            trivial
          · cases h

/-- Every step writes lawful tokens, and leaves a lawful state. -/
theorem step_lawful (hmode : mode.Lawful unicode) (h : step unicode mode c = some (mode', tokens)) :
    mode'.Lawful unicode ∧ ∀ token ∈ tokens, token.Lawful unicode := by
  have hfresh {pending : List Token} (hpending : ∀ token ∈ pending, token.Lawful unicode)
      (h : (start unicode c).map (fun next => (next, pending)) = some (mode', tokens)) :
      mode'.Lawful unicode ∧ ∀ token ∈ tokens, token.Lawful unicode := by
    obtain ⟨next, hnext, hpair⟩ := Option.map_eq_some_iff.1 h
    cases hpair
    exact ⟨start_lawful hnext, hpending⟩
  have hone (token : Token) (htoken : token.Lawful unicode) : ∀ other ∈ [token], other.Lawful unicode :=
    List.forall_mem_singleton.2 htoken
  cases mode with
  | code => exact hfresh (fun _ hnone => absurd hnone List.not_mem_nil) h
  | word text =>
    simp only [step] at h
    split at h
    · cases h
      exact ⟨isIdentifierName_concat hmode ‹_›, nofun⟩
    · exact hfresh (hone _ (wordToken_lawful hmode)) h
  | number text =>
    simp only [step] at h
    split at h
    · cases h
      exact ⟨trivial, nofun⟩
    · exact hfresh (hone (.number text) trivial) h
  | punctuator text =>
    simp only [step] at h
    split at h
    · cases h
      exact ⟨nofun, nofun⟩
    · split at h
      · cases h
        exact ⟨⟨by simp [close], by simp⟩, nofun⟩
      · split at h
        · cases h
          exact ⟨trivial, nofun⟩
        · refine hfresh (fun token htoken => ?_) h
          unfold punctuatorTokens at htoken
          split at htoken
          · rcases List.mem_pair.1 htoken with rfl | rfl
            · trivial
            · trivial
          · rw [List.mem_singleton.1 htoken]
            trivial
  | line text =>
    simp only [step] at h
    split at h
    · cases h
      exact ⟨trivial, hone _ hmode⟩
    · rename_i hline
      cases h
      refine ⟨fun other hother => ?_, nofun⟩
      rcases List.mem_append.1 hother with hold | hnew
      · exact hmode other hold
      · rw [List.mem_singleton.1 hnew]
        exact Bool.not_eq_true _ ▸ hline
  | block text =>
    simp only [step] at h
    split at h
    · cases h
      exact ⟨hmode.1, nofun⟩
    · rename_i hstar
      cases h
      refine ⟨⟨fun hclose => ?_, fun hsuffix => ?_⟩, nofun⟩
      · rcases close_concat.1 hclose with hinside | ⟨hsuffix, -⟩
        · exact hmode.1 hinside
        · exact hmode.2 hsuffix
      · obtain ⟨before, hlast⟩ := hsuffix
        exact hstar (List.singleton_injective (List.append_inj' hlast rfl).2).symm
  | star text =>
    simp only [step] at h
    split at h
    · cases h
      exact ⟨trivial, hone _ hmode⟩
    · rename_i hslash
      split at h
      · cases h
        refine ⟨fun hclose => ?_, nofun⟩
        rcases close_concat.1 hclose with hinside | ⟨-, hc⟩
        · exact hmode hinside
        · cases hc
      · rename_i hstar
        cases h
        refine ⟨⟨fun hclose => ?_, fun hsuffix => ?_⟩, nofun⟩
        · rw [show text ++ ['*', c] = text ++ ['*'] ++ [c] by simp] at hclose
          rcases close_concat.1 hclose with hinside | ⟨-, hc⟩
          · rcases close_concat.1 hinside with hinside | ⟨-, hc⟩
            · exact hmode hinside
            · cases hc
          · exact hslash hc
        · obtain ⟨before, hlast⟩ := hsuffix
          rw [show text ++ ['*', c] = text ++ ['*'] ++ [c] by simp] at hlast
          exact hstar (List.singleton_injective (List.append_inj' hlast rfl).2).symm
  | string quote raw =>
    simp only [step] at h
    split at h
    · obtain ⟨value, hvalue, hpair⟩ := Option.map_eq_some_iff.1 h
      cases hpair
      exact ⟨trivial, hone _ hvalue⟩
    · split at h
      · cases h
        exact ⟨trivial, nofun⟩
      · split at h
        · cases h
        · cases h
          exact ⟨trivial, nofun⟩
  | escape quote raw =>
    cases h
    exact ⟨trivial, nofun⟩

/-- **Every token a text lexes into is lawful.** -/
theorem lex_lawful (h : lex unicode text = some tokens) : ∀ token ∈ tokens, token.Lawful unicode := by
  obtain ⟨⟨mode, read⟩, hrun, hfinish⟩ := Option.bind_eq_some_iff.1 h
  obtain ⟨last, hlast, rfl⟩ := Option.map_eq_some_iff.1 hfinish
  obtain ⟨hmode, hread⟩ := Transducer.run_writes step_lawful (show Mode.code.Lawful unicode from trivial) hrun
  intro token htoken
  rcases List.mem_append.1 htoken with hold | hnew
  · exact hread token hold
  · cases mode with
    | code => cases hlast; cases hnew
    | word text =>
      cases hlast
      rw [List.mem_singleton.1 hnew]
      exact wordToken_lawful hmode
    | number text =>
      cases hlast
      rw [List.mem_singleton.1 hnew]
      trivial
    | punctuator text =>
      cases hlast
      unfold punctuatorTokens at hnew
      split at hnew
      · rcases List.mem_pair.1 hnew with rfl | rfl
        · trivial
        · trivial
      · rw [List.mem_singleton.1 hnew]
        trivial
    | line text =>
      cases hlast
      rw [List.mem_singleton.1 hnew]
      exact hmode
    | block | star | string | escape => cases hlast

/-! ### Escapes -/

theorem unescape_cons (h : c ≠ '\\') :
    unescape (c :: rest) = if c = '\n' || c = '\r' then none else (unescape rest).map (c :: ·) := by
  cases rest with
  | nil => simp [unescape, h]
  | cons next rest => simp [unescape, h]

theorem unescape_escape : unescape (escape text) = some text ↔ ∀ c ∈ text, c ≠ '\n' ∧ c ≠ '\r' := by
  induction text with
  | nil => exact ⟨fun _ => nofun, fun _ => rfl⟩
  | cons c rest ih =>
    rw [List.forall_mem_cons, ← ih]
    have hcons : some (c :: rest) = (some rest).map (c :: ·) := rfl
    by_cases hbackslash : c = '\\'
    · subst hbackslash
      change (unescape (escape rest)).map _ = _ ↔ _
      cases unescape (escape rest) <;> simp [escaped]
    · by_cases hquote : c = '"'
      · subst hquote
        change (unescape (escape rest)).map _ = _ ↔ _
        cases unescape (escape rest) <;> simp [escaped]
      · have hescape : escape (c :: rest) = c :: escape rest := by simp [escape, hbackslash, hquote]
        rw [hescape, unescape_cons hbackslash]
        by_cases hbreak : c = '\n' || c = '\r'
        · rw [if_pos hbreak]
          simp only [Bool.or_eq_true, decide_eq_true_eq] at hbreak
          grind
        · rw [if_neg hbreak]
          simp only [Bool.or_eq_true, decide_eq_true_eq] at hbreak
          cases unescape (escape rest) with
          | none => simp
          | some found => simp; grind

/-! ### Reading on -/

/-- From one state to another, writing these tokens. -/
abbrev Lexes (unicode : Unicode) (mode : Mode) (text : List Char) (mode' : Mode) (tokens : List Token) : Prop :=
  Transducer.run (step unicode) mode text = some (mode', tokens)

theorem Lexes.trans (h : Lexes unicode mode text mode' tokens) (h' : Lexes unicode mode' rest mode'' tokens') :
    Lexes unicode mode (text ++ rest) mode'' (tokens ++ tokens') := Transducer.run_append h h'

theorem isIdStart_of_ascii (h : isAscii c = true) : isIdStart unicode c = isIdStart .ascii c := by
  simp only [isIdStart, h, if_true]

theorem isIdContinue_of_ascii (h : isAscii c = true) : isIdContinue unicode c = isIdContinue .ascii c := by
  simp only [isIdContinue, h, if_true]

theorem isIdentifierName_of_ascii {word : List Char} (h : word.all isAscii = true)
    (hword : isIdentifierName .ascii word = true) : isIdentifierName unicode word = true := by
  cases word with
  | nil => exact hword
  | cons first rest =>
    obtain ⟨hfirst, hrest⟩ := Bool.and_eq_true_iff.1 h
    obtain ⟨hstart, hcontinue⟩ := Bool.and_eq_true_iff.1 hword
    refine Bool.and_eq_true_iff.2 ⟨by rwa [isIdStart_of_ascii hfirst], List.all_eq_true.2 fun c hc => ?_⟩
    rw [isIdContinue_of_ascii (List.all_eq_true.1 hrest c hc)]
    exact List.all_eq_true.1 hcontinue c hc

/-- Whether a lexer is inside of a comment. -/
def Mode.isComment : Mode → Bool
  | .line _ | .block _ | .star _ => true
  | _ => false

/-- The lexer of texts that are ASCII outside of their comments. -/
def plainStep : Transducer Mode Char Token := fun mode c =>
  if isAscii c || mode.isComment then step .ascii mode c else none

theorem step_of_plainStep {result : Mode × List Token} (h : plainStep mode c = some result) :
    step unicode mode c = some result := by
  unfold plainStep at h
  split at h
  · rename_i hplain
    rw [← h]
    rcases Bool.or_eq_true_iff.1 hplain with hascii | hcomment
    · have hstart : start unicode c = start .ascii c := by
        simp only [start, isIdStart_of_ascii hascii]
      cases mode <;> simp only [step, hstart, isIdContinue_of_ascii hascii]
    · cases mode with
      | line | block | star => rfl
      | _ => cases hcomment
  · cases h

/-- What lexes whatever names are made of. -/
theorem Lexes.plain (h : Transducer.run plainStep mode text = some (mode', tokens)) :
    Lexes unicode mode text mode' tokens := Transducer.run_mono step_of_plainStep h

theorem lexes_word_rest (h : text.all (isIdContinue unicode) = true) (read : List Char) :
    Lexes unicode (.word read) text (.word (read ++ text)) [] := by
  induction text generalizing read with
  | nil => simp [Lexes]
  | cons c rest ih =>
    obtain ⟨hc, hrest⟩ := Bool.and_eq_true_iff.1 h
    have hstep : step unicode (.word read) c = some (.word (read ++ [c]), []) := if_pos hc
    have htail := ih hrest (read ++ [c])
    rw [List.append_assoc] at htail
    exact Transducer.run_cons hstep htail

/-- A name is read as one word. -/
theorem lexes_name (h : isIdentifierName unicode text = true) : Lexes unicode .code text (.word text) [] := by
  cases text with
  | nil => cases h
  | cons first rest =>
    obtain ⟨hfirst, hrest⟩ := Bool.and_eq_true_iff.1 h
    have hstep : step unicode .code first = some (.word [first], []) := by
      simp only [step, start, hfirst, if_true, Option.map_some]
    exact Transducer.run_cons hstep (lexes_word_rest hrest [first])

theorem Lexes.after_word (hc : isIdContinue unicode c = false) (h : Lexes unicode .code (c :: rest) mode tokens)
    (word : List Char) : Lexes unicode (.word word) (c :: rest) mode (wordToken word :: tokens) := by
  have hstep : step unicode (.word word) c =
      (step unicode .code c).map fun read => (read.1, [wordToken word] ++ read.2) := by
    simp only [step, hc, Bool.false_eq_true, if_false]
    cases start unicode c <;> rfl
  exact Transducer.run_cons_of_step hstep h

theorem Lexes.after_punctuator {mark : List Char} (hmark : mark ≠ ['/']) (hc : grows (mark ++ [c]) = false)
    (h : Lexes unicode .code (c :: rest) mode tokens) :
    Lexes unicode (.punctuator mark) (c :: rest) mode (punctuatorTokens mark ++ tokens) := by
  refine Transducer.run_cons_of_step ?_ h
  simp only [step, hmark, false_and, if_false, hc, Bool.false_eq_true]
  cases start unicode c <;> simp

theorem Lexes.after_string (hvalue : unescape raw = some value) (h : Lexes unicode .code rest mode tokens) :
    Lexes unicode (.string '"' raw) ('"' :: rest) mode (.string raw value :: tokens) := by
  have hstep : step unicode (.string '"' raw) '"' = some (.code, [.string raw value]) := by
    simp only [step, if_true, hvalue, Option.map_some]
  exact Transducer.run_cons hstep h

theorem lexes_escape (h : ∀ c ∈ text, c ≠ '\n' ∧ c ≠ '\r') (raw : List Char) :
    Lexes unicode (.string '"' raw) (escape text) (.string '"' (raw ++ escape text)) [] := by
  induction text generalizing raw with
  | nil => simp [Lexes, escape]
  | cons c rest ih =>
    obtain ⟨hc, hrest⟩ := List.forall_mem_cons.1 h
    have hcons : escape (c :: rest) = (if c = '\\' || c = '"' then ['\\', c] else [c]) ++ escape rest := rfl
    rw [hcons]
    have htail := ih hrest (raw ++ if c = '\\' || c = '"' then ['\\', c] else [c])
    rw [List.append_assoc] at htail
    have hfirst : Lexes unicode (.string '"' raw) (if c = '\\' || c = '"' then ['\\', c] else [c])
        (.string '"' (raw ++ if c = '\\' || c = '"' then ['\\', c] else [c])) [] := by
      by_cases hescaped : c = '\\' || c = '"'
      · rw [if_pos hescaped]
        rfl
      · rw [if_neg hescaped]
        simp only [Bool.or_eq_true, decide_eq_true_eq, not_or] at hescaped
        have hstep : step unicode (.string '"' raw) c = some (.string '"' (raw ++ [c]), []) := by
          simp [step, hescaped, hc]
        exact Transducer.run_cons hstep rfl
    exact hfirst.trans htail

theorem lexes_line (h : ∀ c ∈ text, isLineTerminator c = false) (read : List Char) :
    Lexes unicode (.line read) text (.line (read ++ text)) [] := by
  induction text generalizing read with
  | nil => simp [Lexes]
  | cons c rest ih =>
    obtain ⟨hc, hrest⟩ := List.forall_mem_cons.1 h
    have hstep : step unicode (.line read) c = some (.line (read ++ [c]), []) := by simp [step, hc]
    have htail := ih hrest (read ++ [c])
    rw [List.append_assoc] at htail
    exact Transducer.run_cons hstep htail

theorem lexes_block (h : ¬ close <:+: text) (read : List Char) :
    Lexes unicode (.block read) (text ++ close) .code [.block (read ++ text)] := by
  have hboth : ∀ text : List Char,
      (¬ close <:+: text → ∀ read, Lexes unicode (.block read) (text ++ close) .code [.block (read ++ text)]) ∧
      (¬ close <:+: '*' :: text → ∀ read,
        Lexes unicode (.star read) (text ++ close) .code [.block (read ++ '*' :: text)]) := by
    intro text
    induction text with
    | nil => exact ⟨fun _ read => by simp [Lexes, close, Transducer.run, step], fun _ read => by
        simp [Lexes, close, Transducer.run, step]⟩
    | cons c rest ih =>
      constructor
      · intro hclose read
        by_cases hstar : c = '*'
        · subst hstar
          have hstep : step unicode (.block read) '*' = some (.star read, []) := rfl
          exact Transducer.run_cons hstep (ih.2 hclose read)
        · have hstep : step unicode (.block read) c = some (.block (read ++ [c]), []) := if_neg hstar
          have htail := ih.1 (fun hinside => hclose (hinside.trans (List.infix_cons_iff.2 (Or.inr List.infix_rfl))))
            (read ++ [c])
          rw [List.append_assoc] at htail
          exact Transducer.run_cons hstep htail
      · intro hclose read
        have hrest : ¬ close <:+: c :: rest := fun hinside => hclose (List.infix_cons_iff.2 (Or.inr hinside))
        have hslash : c ≠ '/' := by
          rintro rfl
          exact hclose ⟨[], rest, rfl⟩
        by_cases hstar : c = '*'
        · subst hstar
          have htail := ih.2 hrest (read ++ ['*'])
          rw [List.append_assoc] at htail
          have hstep : step unicode (.star read) '*' = some (.star (read ++ ['*']), []) := rfl
          exact Transducer.run_cons hstep htail
        · have hstep : step unicode (.star read) c = some (.block (read ++ ['*', c]), []) := by
            simp [step, hslash, hstar]
          have htail := ih.1 (fun hinside => hrest (List.infix_cons_iff.2 (Or.inr hinside))) (read ++ ['*', c])
          rw [List.append_assoc] at htail
          exact Transducer.run_cons hstep htail
  exact (hboth text).1 h read

/-! ### Inside of comments -/

/-- A comment that something was read of before. -/
def Mode.resume (read : List Char) : Mode → Mode
  | .line text => .line (read ++ text)
  | .block text => .block (read ++ text)
  | .star text => .star (read ++ text)
  | mode => mode

def Token.resume (read : List Char) : Token → Token
  | .line text => .line (read ++ text)
  | .block text => .block (read ++ text)
  | token => token

/-- A step inside of a comment goes on with the comment, or ends it, whatever was read of it before. -/
theorem step_resume (hmode : mode.isComment = true) (read : List Char)
    (h : step unicode mode c = some (mode', tokens)) :
    (mode'.isComment = true ∧ tokens = [] ∧ step unicode (mode.resume read) c = some (mode'.resume read, [])) ∨
      ∃ token, tokens = [token] ∧ step unicode (mode.resume read) c = some (mode', [token.resume read]) := by
  cases mode with
  | line text =>
    by_cases hc : isLineTerminator c = true
    · have hstep : step unicode (.line text) c = some (.code, [.line text]) := if_pos hc
      rw [hstep] at h
      cases h
      exact Or.inr ⟨_, rfl, if_pos hc⟩
    · have hstep : step unicode (.line text) c = some (.line (text ++ [c]), []) := if_neg hc
      rw [hstep] at h
      cases h
      refine Or.inl ⟨rfl, rfl, ?_⟩
      rw [Mode.resume, Mode.resume, ← List.append_assoc]
      exact if_neg hc
  | block text =>
    by_cases hc : c = '*'
    · have hstep : step unicode (.block text) c = some (.star text, []) := if_pos hc
      rw [hstep] at h
      cases h
      exact Or.inl ⟨rfl, rfl, if_pos hc⟩
    · have hstep : step unicode (.block text) c = some (.block (text ++ [c]), []) := if_neg hc
      rw [hstep] at h
      cases h
      refine Or.inl ⟨rfl, rfl, ?_⟩
      rw [Mode.resume, Mode.resume, ← List.append_assoc]
      exact if_neg hc
  | star text =>
    by_cases hslash : c = '/'
    · subst hslash
      cases h
      exact Or.inr ⟨_, rfl, rfl⟩
    · by_cases hstar : c = '*'
      · subst hstar
        cases h
        refine Or.inl ⟨rfl, rfl, ?_⟩
        rw [Mode.resume, Mode.resume, ← List.append_assoc]
        rfl
      · have hstep (text : List Char) : step unicode (.star text) c = some (.block (text ++ ['*', c]), []) := by
          simp [step, hslash, hstar]
        rw [hstep] at h
        cases h
        refine Or.inl ⟨rfl, rfl, ?_⟩
        rw [Mode.resume, Mode.resume, ← List.append_assoc]
        exact hstep _
  | code | word | number | punctuator | string | escape => cases hmode

/-- What ends a comment ends it whatever was read of it before. -/
theorem Lexes.resume {token : Token} (hmode : mode.isComment = true) (read : List Char)
    (h : Lexes unicode mode text mode' (token :: tokens)) :
    Lexes unicode (mode.resume read) text mode' (token.resume read :: tokens) := by
  induction text generalizing mode with
  | nil => cases h
  | cons c rest ih =>
    obtain ⟨next, written, more, hstep, hrest, heq⟩ := Transducer.run_cons_eq_some h
    rcases step_resume hmode read hstep with ⟨hnext, rfl, hresumed⟩ | ⟨ended, rfl, hresumed⟩
    · rw [List.nil_append] at heq
      subst heq
      exact Transducer.run_cons hresumed (ih hnext hrest)
    · obtain ⟨rfl, rfl⟩ := List.cons.inj heq
      exact Transducer.run_cons hresumed hrest

/-- A comment goes on over what has no star. -/
theorem lexes_block_rest (h : '*' ∉ text) (read : List Char) :
    Lexes unicode (.block read) text (.block (read ++ text)) [] := by
  induction text generalizing read with
  | nil => simp [Lexes]
  | cons c rest ih =>
    rw [List.mem_cons, not_or] at h
    have hstep : step unicode (.block read) c = some (.block (read ++ [c]), []) := if_neg (Ne.symm h.1)
    have htail := ih h.2 (read ++ [c])
    rw [List.append_assoc] at htail
    exact Transducer.run_cons hstep htail

/-! ### Where comments do not end -/

theorem not_close_of_star (h : '*' ∉ text) : ¬ close <:+: text := fun hinside => h (hinside.subset List.mem_cons_self)

theorem not_close_of_slash (h : '/' ∉ text) : ¬ close <:+: text :=
  fun hinside => h (hinside.subset (List.mem_cons_of_mem _ List.mem_cons_self))

/-- No mark goes across a character that is in none. -/
theorem close_separated (hstar : c ≠ '*') (hslash : c ≠ '/') :
    close <:+: text ++ c :: rest ↔ close <:+: text ∨ close <:+: rest := by
  constructor
  · rintro ⟨before, after, heq⟩
    rw [List.append_assoc] at heq
    rcases List.append_eq_append_iff.1 heq with ⟨middle, rfl, hrest⟩ | ⟨middle, rfl, hrest⟩
    · match middle, hrest with
      | [], hrest => exact absurd (List.cons.inj hrest).1.symm hstar
      | [d], hrest => exact absurd (List.cons.inj (List.cons.inj hrest).2).1.symm hslash
      | d :: e :: more, hrest =>
        cases hrest
        exact Or.inl ⟨before, more, by simp [close]⟩
    · match middle, hrest with
      | [], hrest => exact absurd (List.cons.inj hrest).1 hstar
      | d :: more, hrest =>
        obtain ⟨rfl, rfl⟩ := List.cons.inj hrest
        exact Or.inr ⟨more, after, by simp⟩
  · rintro (h | h)
    · exact h.trans (List.infix_append' [] text (c :: rest))
    · exact h.trans ((List.suffix_cons c rest).trans (List.suffix_append text _)).isInfix

/-! ### Reading texts -/

abbrev Reads (unicode : Unicode) (mode : Mode) (text : String) (mode' : Mode) (tokens : List Token) : Prop :=
  Lexes unicode mode text.toList mode' tokens

section Texts

variable {name text rest : String}

theorem Reads.append (h : Reads unicode mode text mode' tokens) (h' : Reads unicode mode' rest mode'' tokens') :
    Reads unicode mode (text ++ rest) mode'' (tokens ++ tokens') := by
  rw [Reads, String.toList_append]
  exact h.trans h'

theorem Reads.join {α : Type} {f : α → String} {g : α → List Token} {xs : List α}
    (h : ∀ a ∈ xs, Reads unicode .code (f a) .code (g a)) :
    Reads unicode .code (String.join (xs.map f)) .code (xs.flatMap g) := by
  rw [Reads, String.toList_join, List.flatMap_map]
  induction xs with
  | nil => rfl
  | cons a rest ih =>
    obtain ⟨ha, hrest⟩ := List.forall_mem_cons.1 h
    exact Lexes.trans ha (ih hrest)

theorem reads_block (h : ¬ close <:+: text.toList) :
    Reads unicode .code ("/*" ++ text ++ "*/") .code [.block text.toList] := by
  rw [Reads, String.toList_append, String.toList_append, List.append_assoc]
  have hopen : Lexes unicode .code "/*".toList (.block []) [] := Lexes.plain (by decide)
  exact hopen.trans (lexes_block h [])

theorem head?_append {a b : String} (h : a.toList.head? = some c) : (a ++ b).toList.head? = some c := by
  rw [String.toList_append, List.head?_append, h, Option.some_or]

theorem Reads.after_word (hhead : rest.toList.head? = some c) (hc : isIdContinue .ascii c = false)
    (hascii : isAscii c = true) (h : Reads unicode .code rest mode tokens) (word : List Char) :
    Reads unicode (.word word) rest mode (wordToken word :: tokens) := by
  obtain ⟨more, hrest⟩ := List.head?_eq_some_iff.1 hhead
  rw [Reads, hrest] at h ⊢
  exact h.after_word (by rw [isIdContinue_of_ascii hascii, hc]) word

theorem Reads.after_mark {mark : List Char} (hhead : rest.toList.head? = some c) (hmark : mark ≠ ['/'])
    (hc : grows (mark ++ [c]) = false) (h : Reads unicode .code rest mode tokens) :
    Reads unicode (.punctuator mark) rest mode (punctuatorTokens mark ++ tokens) := by
  obtain ⟨more, hrest⟩ := List.head?_eq_some_iff.1 hhead
  rw [Reads, hrest] at h ⊢
  exact h.after_punctuator hmark hc

theorem reads_word (h : isIdentifierName unicode name.toList = true) (hhead : rest.toList.head? = some c)
    (hc : isIdContinue .ascii c = false) (hascii : isAscii c = true) (hrest : Reads unicode .code rest mode tokens) :
    Reads unicode .code (name ++ rest) mode (wordToken name.toList :: tokens) :=
  Reads.append (lexes_name h) (hrest.after_word hhead hc hascii name.toList)

theorem reads_line (h : ∀ c ∈ text.toList, isLineTerminator c = false) :
    Reads unicode .code ("//" ++ text ++ "\n") .code [.line text.toList] := by
  rw [Reads, String.toList_append, String.toList_append, List.append_assoc]
  have hopen : Lexes unicode .code "//".toList (.line []) [] := Lexes.plain (by decide)
  have hend : Lexes unicode (.line text.toList) "\n".toList .code [.line text.toList] := rfl
  exact hopen.trans ((lexes_line h []).trans hend)

/-- A comment of one line with a text put into it. -/
theorem Reads.line_through {first read last : String} (hfirst : Reads unicode mode first (.line read.toList) tokens)
    (htext : ∀ c ∈ text.toList, isLineTerminator c = false)
    (hrest : Reads unicode (.line []) rest mode' (.line last.toList :: tokens')) :
    Reads unicode mode (first ++ text ++ rest) mode' (tokens ++ .line (read ++ text ++ last).toList :: tokens') := by
  have hmiddle := @lexes_line unicode _ htext read.toList
  have hresumed := Lexes.resume rfl (read.toList ++ text.toList) hrest
  simp only [Mode.resume, Token.resume, List.append_nil] at hresumed
  have hread := hfirst.trans (hmiddle.trans hresumed)
  simpa only [Reads, String.toList_append, List.append_assoc, List.nil_append] using hread

theorem Reads.block_through {first read last : String} (hfirst : Reads unicode mode first (.block read.toList) tokens)
    (htext : '*' ∉ text.toList) (hrest : Reads unicode (.block []) rest mode' (.block last.toList :: tokens')) :
    Reads unicode mode (first ++ text ++ rest) mode' (tokens ++ .block (read ++ text ++ last).toList :: tokens') := by
  have hmiddle := @lexes_block_rest unicode _ htext read.toList
  have hresumed := Lexes.resume rfl (read.toList ++ text.toList) hrest
  simp only [Mode.resume, Token.resume, List.append_nil] at hresumed
  have hread := hfirst.trans (hmiddle.trans hresumed)
  simpa only [Reads, String.toList_append, List.append_assoc, List.nil_append] using hread

/-- No punctuator goes on with a character of a name. -/
theorem grows_of_isIdContinue (h : isIdContinue unicode c = true) (mark : List Char) : grows (mark ++ [c]) = false := by
  have hnone : (punctuators.all fun punctuator => punctuator.all fun d => isAscii d &&
      !isIdContinue .ascii d) = true := by
    decide
  rw [grows, List.any_eq_false]
  intro punctuator hpunctuator hprefix
  have hmem : c ∈ punctuator :=
    (List.isPrefixOf_iff_prefix.1 hprefix).subset (List.mem_append_right _ (List.mem_singleton_self c))
  have hc := List.all_eq_true.1 (List.all_eq_true.1 hnone punctuator hpunctuator) c hmem
  rw [Bool.and_eq_true, Bool.not_eq_true'] at hc
  rw [isIdContinue_of_ascii hc.1, hc.2] at h
  cases h

end Texts

theorem lex_of_lexes (h : Lexes unicode .code text .code tokens) : lex unicode text = some tokens := by
  simp only [lex, h, Option.bind_some, finish, Option.map_some, List.append_nil]

end EcmaScript

end BorgCore
