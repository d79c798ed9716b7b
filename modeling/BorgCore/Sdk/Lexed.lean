import BorgCore.Sdk.Naming

/-!
# A generated module lexes

Piece by piece: each part of a module's text is read into the tokens that stand for it, where the names it is made of
are well chosen.
-/

namespace BorgCore

namespace Generate

open EcmaScript

variable {unicode : Unicode} {mode : Mode} {tokens : List Token} {name text rest ty : String} {c d : Char}
  {field : FieldDef} {object : StructDef} {schema : SchemaDef}

/-! ### Words and what is printed -/

theorem ne_of_isIdContinue (h : isIdContinue unicode c = true) (hascii : isAscii d = true)
    (hd : isIdContinue .ascii d = false) : c ≠ d := by
  rintro rfl
  rw [isIdContinue_of_ascii hascii, hd] at h
  cases h

theorem isLineTerminator_of_isIdContinue (h : isIdContinue unicode c = true) : isLineTerminator c = false := by
  by_cases hascii : isAscii c = true
  · have hn : c ≠ '\n' := ne_of_isIdContinue h (by decide) (by decide)
    have hr : c ≠ '\r' := ne_of_isIdContinue h (by decide) (by decide)
    have hline : c ≠ '\u2028' := by
      rintro rfl
      exact absurd hascii (by decide)
    have hparagraph : c ≠ '\u2029' := by
      rintro rfl
      exact absurd hascii (by decide)
    simp only [isLineTerminator, hn, hr, hline, hparagraph, decide_false, Bool.or_self]
  · rw [isIdContinue, if_neg hascii] at h
    exact unicode.unbroken c h

theorem isIdContinue_of_isAlphanum (h : c.isAlphanum = true) : isIdContinue unicode c = true := by
  have hascii : isAscii c = true := by
    have hbelow {last : Char} (hle : c.val ≤ last.val) (hlast : last.val < 128) : isAscii c = true :=
      decide_eq_true (UInt32.lt_of_le_of_lt hle hlast)
    rcases Bool.or_eq_true_iff.1 h with halpha | hdigit
    · rcases Bool.or_eq_true_iff.1 halpha with hupper | hlower
      · exact @hbelow 'Z' (of_decide_eq_true hupper).2 (by decide)
      · exact @hbelow 'z' (of_decide_eq_true (Bool.and_eq_true_iff.1 hlower).2) (by decide)
    · exact @hbelow '9' (of_decide_eq_true (Bool.and_eq_true_iff.1 hdigit).2) (by decide)
  rw [isIdContinue, if_pos hascii, h, Bool.true_or, Bool.true_or]

/-- A text whose characters are those of names. -/
def Wordy (unicode : Unicode) (text : String) : Prop := ∀ c ∈ text.toList, isIdContinue unicode c = true

theorem Wordy.not_mem (h : Wordy unicode text) (hascii : isAscii d = true) (hd : isIdContinue .ascii d = false) :
    d ∉ text.toList := fun hmem => ne_of_isIdContinue (h d hmem) hascii hd rfl

theorem Wordy.unbroken (h : Wordy unicode text) : Unbroken text := fun c hc =>
  ⟨ne_of_isIdContinue (h c hc) (by decide) (by decide), ne_of_isIdContinue (h c hc) (by decide) (by decide)⟩

theorem Wordy.escape_eq (h : Wordy unicode text) : escape text.toList = text.toList := by
  have hkept : ∀ chars : List Char, '\\' ∉ chars → '"' ∉ chars → escape chars = chars := by
    intro chars hbackslash hquote
    induction chars with
    | nil => rfl
    | cons c rest ih =>
      rw [List.mem_cons, not_or] at hbackslash hquote
      rw [escape, List.flatMap_cons, if_neg (by simp [Ne.symm hbackslash.1, Ne.symm hquote.1])]
      exact congrArg (c :: ·) (ih hbackslash.2 hquote.2)
  exact hkept _ (h.not_mem (by decide) (by decide)) (h.not_mem (by decide) (by decide))

theorem wordy_of_isIdentifierName (h : isIdentifierName unicode name.toList = true) : Wordy unicode name := by
  intro c hc
  cases hname : name.toList with
  | nil =>
    rw [hname] at hc
    cases hc
  | cons first others =>
    rw [hname] at h hc
    obtain ⟨hfirst, hothers⟩ := Bool.and_eq_true_iff.1 h
    rcases List.mem_cons.1 hc with rfl | hc
    · unfold isIdStart at hfirst
      unfold isIdContinue
      split at hfirst
      · rename_i hascii
        rw [if_pos hascii]
        simp only [Bool.or_eq_true, Char.isAlphanum] at hfirst ⊢
        tauto
      · rename_i hascii
        rw [if_neg hascii]
        exact unicode.continues c hfirst
    · exact List.all_eq_true.1 hothers c hc

theorem wordy_printed {letter : String} (hletter : Wordy unicode letter) (number : Nat) :
    Wordy unicode (letter ++ toString number) := by
  intro c hc
  rw [String.toList_append] at hc
  rcases List.mem_append.1 hc with hc | hc
  · exact hletter c hc
  · change c ∈ (String.ofList (Nat.toDigits 10 number)).toList at hc
    rw [String.toList_ofList] at hc
    have hdigit : c.isDigit = true := Nat.isDigit_of_mem_toDigits (by decide) (by decide) hc
    exact isIdContinue_of_isAlphanum (by rw [Char.isAlphanum, hdigit, Bool.or_true])

theorem wordy_letter (hletter : c.isAlphanum = true) : Wordy unicode (String.ofList [c]) := by
  intro other hother
  rw [String.toList_ofList, List.mem_singleton] at hother
  exact isIdContinue_of_isAlphanum (hother ▸ hletter)

theorem Held.wordy_version (h : Held schema) : Wordy unicode schema.version := by
  obtain ⟨layer, hversion⟩ := h.version
  rw [hversion]
  exact wordy_printed (@wordy_letter unicode 'L' (by decide)) layer

theorem FieldDef.Sent.wordy_version (h : field.Sent) : Wordy unicode field.version := by
  obtain ⟨layer, hversion⟩ := h.version
  rw [hversion]
  exact wordy_printed (@wordy_letter unicode 'L' (by decide)) layer

theorem FieldDef.Sent.wordy_producer (h : field.Sent) (hproducer : text ∈ field.derivedBy) :
    Wordy unicode text := by
  obtain ⟨producer, rfl⟩ := h.derivedBy text hproducer
  exact wordy_printed (@wordy_letter unicode 'P' (by decide)) producer

/-! ### Where names stand -/

theorem toList_quoted (text : String) : (quoted text).toList = '"' :: (escape text.toList ++ ['"']) := by
  have hescape : (text.toList.flatMap fun c => if c = '\\' then ['\\', '\\'] else [c]).flatMap
      (fun c => if c = '"' then ['\\', '"'] else [c]) = escape text.toList := by
    rw [List.flatMap_assoc]
    refine List.flatMap_congr fun c _ => ?_
    by_cases hbackslash : c = '\\'
    · subst hbackslash
      rfl
    · by_cases hquote : c = '"'
      · subst hquote
        rfl
      · simp [hbackslash, hquote]
  simp only [quoted, replace, String.toList_append, String.toList_ofList, hescape]
  rfl

theorem reads_quoted (h : Unbroken text) (hrest : Reads unicode .code rest mode tokens) :
    Reads unicode .code (quoted text ++ rest) mode (quotedToken text :: tokens) := by
  rw [Reads, String.toList_append, toList_quoted, List.cons_append, List.append_assoc]
  have hopen : Lexes unicode .code ['"'] (.string '"' []) [] := Lexes.plain (by decide)
  have hvalue : unescape (escape text.toList) = some text.toList := unescape_escape.2 h
  exact hopen.trans ((lexes_escape h []).trans (Lexes.after_string hvalue hrest))

theorem reads_plain (h : Wordy unicode text) (hrest : Reads unicode .code rest mode tokens) :
    Reads unicode (.string '"' []) (text ++ ("\"" ++ rest)) mode (plainToken text :: tokens) := by
  have hvalue : unescape text.toList = some text.toList := by
    have hescaped := unescape_escape.2 h.unbroken
    rwa [h.escape_eq] at hescaped
  have hread := @lexes_escape unicode _ h.unbroken []
  rw [h.escape_eq] at hread
  rw [Reads, String.toList_append, String.toList_append]
  exact hread.trans (Lexes.after_string hvalue hrest)

/-- What JavaScript can spell bare is a name. -/
theorem isIdentifierName_of_identifier (h : identifier name = true) : isIdentifierName unicode name.toList = true := by
  have hascii {c : Char} (hc : (c.isAlphanum || c = '_' || c = '$') = true) : isIdContinue unicode c = true := by
    simp only [Bool.or_eq_true, decide_eq_true_eq] at hc
    rcases hc with (halphanum | rfl) | rfl
    · exact isIdContinue_of_isAlphanum halphanum
    · exact (isIdContinue_of_ascii (by decide)).trans (by decide)
    · exact (isIdContinue_of_ascii (by decide)).trans (by decide)
  unfold identifier at h
  rw [Bool.and_eq_true, Bool.and_eq_true] at h
  obtain ⟨⟨-, hfirst⟩, hall⟩ := h
  cases hname : name.toList with
  | nil =>
    rw [hname] at hfirst
    cases hfirst
  | cons first others =>
    rw [hname] at hfirst hall
    simp only [List.head?_cons, Option.any_some] at hfirst
    refine Bool.and_eq_true_iff.2 ⟨?_, List.all_eq_true.2 fun c hc => ?_⟩
    · have hletter : isIdContinue .ascii first = true := by
        simp only [Bool.or_eq_true, decide_eq_true_eq] at hfirst
        rcases hfirst with (halpha | rfl) | rfl
        · exact isIdContinue_of_isAlphanum (by rw [Char.isAlphanum, halpha, Bool.true_or])
        · decide
        · decide
      have hfirst' : isAscii first = true := by
        by_contra hnot
        rw [isIdContinue, if_neg hnot] at hletter
        cases hletter
      rw [isIdStart, if_pos hfirst']
      simp only [Bool.or_eq_true] at hfirst ⊢
      tauto
    · exact hascii (List.all_eq_true.1 hall c (List.mem_cons_of_mem _ hc))

theorem reads_member (h : Unbroken name) (hhead : rest.toList.head? = some ':')
    (hrest : Reads unicode .code rest mode tokens) :
    Reads unicode .code (member name ++ rest) mode (memberToken name :: tokens) := by
  unfold member memberToken
  split
  · rename_i hidentifier
    exact reads_word (isIdentifierName_of_identifier hidentifier) hhead (by decide) (by decide) hrest
  · exact reads_quoted h hrest

/-! ### Types -/

/-- The types that name no struct, with what they import. -/
def primitives : List (String × String) :=
  [("number", "int"), ("number", "double"), ("boolean", "bool"), ("string", "string"), ("Uint8Array", "binary"),
    ("bigint", "bigint"), ("string", "untyped")]

theorem mapType_eq (ty : String) :
    ((mapType ty).reference = false ∧ (mapType ty).ctor = (mapType ty).imported ++ "()" ∧
      ((mapType ty).ts, (mapType ty).imported) ∈ primitives) ∨
    mapType ty = ⟨"Ref<" ++ quoted ty ++ ">", "refText(" ++ quoted ty ++ ")", "refText", true⟩ := by
  unfold mapType
  repeat' split
  all_goals first
    | exact Or.inr rfl
    | exact Or.inl ⟨rfl, rfl, by decide⟩

theorem isIdentifierName_primitives :
    ∀ entry ∈ primitives, isIdentifierName unicode entry.1.toList = true ∧
      isIdentifierName unicode entry.2.toList = true := by
  intro entry hentry
  have hnames : isIdentifierName .ascii entry.1.toList = true ∧ isIdentifierName .ascii entry.2.toList = true ∧
      entry.1.toList.all isAscii = true ∧ entry.2.toList.all isAscii = true := by
    simp only [primitives, List.mem_cons, List.not_mem_nil, or_false] at hentry
    rcases hentry with rfl | rfl | rfl | rfl | rfl | rfl | rfl <;> decide
  exact ⟨isIdentifierName_of_ascii hnames.2.2.1 hnames.1, isIdentifierName_of_ascii hnames.2.2.2 hnames.2.1⟩

theorem reads_type (h : Unbroken ty) (hhead : rest.toList.head? = some ' ')
    (hrest : Reads unicode .code rest mode tokens) :
    Reads unicode .code ((mapType ty).ts ++ rest) mode (typeTokens ty ++ tokens) := by
  unfold typeTokens
  rcases mapType_eq ty with ⟨hreference, -, hprimitive⟩ | hmapped
  · rw [hreference, if_neg Bool.false_ne_true]
    exact reads_word (isIdentifierName_primitives _ hprimitive).1 hhead (by decide) (by decide) hrest
  · rw [hmapped, if_pos rfl]
    simp only [String.append_assoc]
    have hopen : Reads unicode .code "Ref<" (.punctuator ['<']) [word "Ref"] := by
      unfold word
      rw [Reads]
      repeat rw [String.toList_ofList]
      exact Lexes.plain (by decide)
    have hclose : Reads unicode .code ">" (.punctuator ['>']) [] := Lexes.plain (by decide)
    have hmark : Reads unicode .code (">" ++ rest) mode (mark ">" :: tokens) :=
      hclose.append (hrest.after_mark hhead (by decide) (by decide))
    have hname := reads_quoted h hmark
    exact hopen.append (Reads.after_mark (head?_append (by rw [toList_quoted]; rfl)) (by decide) (by decide) hname)

theorem reads_ctor (h : Unbroken ty) (hhead : rest.toList.head? = some ',')
    (hrest : Reads unicode .code rest mode tokens) :
    Reads unicode .code ((mapType ty).ctor ++ rest) mode (ctorTokens ty ++ tokens) := by
  have hclose : Reads unicode .code ")" (.punctuator [')']) [] := Lexes.plain (by decide)
  have hmark : Reads unicode .code (")" ++ rest) mode (mark ")" :: tokens) :=
    hclose.append (hrest.after_mark hhead (by decide) (by decide))
  unfold ctorTokens
  rcases mapType_eq ty with ⟨hreference, hctor, hprimitive⟩ | hmapped
  · rw [hreference, if_neg Bool.false_ne_true, hctor, String.append_assoc]
    have hparens : Reads unicode .code ("()" ++ rest) mode (mark "(" :: mark ")" :: tokens) := by
      have hopen : Reads unicode .code "(" (.punctuator ['(']) [] := Lexes.plain (by decide)
      exact (hopen.append (hmark.after_mark (c := ')') (head?_append rfl) (by decide) (by decide)))
    exact reads_word (isIdentifierName_primitives _ hprimitive).2 (head?_append rfl) (c := '(') (by decide) (by decide)
      hparens
  · rw [hmapped, if_pos rfl]
    simp only [String.append_assoc]
    have hopen : Reads unicode .code "refText(" (.punctuator ['(']) [word "refText"] := by
      unfold word
      rw [Reads]
      repeat rw [String.toList_ofList]
      exact Lexes.plain (by decide)
    have hname := reads_quoted h hmark
    exact hopen.append (Reads.after_mark (head?_append (by rw [toList_quoted]; rfl)) (by decide) (by decide) hname)

/-! ### Fields -/

/-- What stands in a field's comment after its type. -/
def provenance (field : FieldDef) : String :=
  (match field.derivedBy with
    | some producer => " — derived by " ++ producer ++ ", so client writes are refused (§8). Repo "
    | none => " — source. Repo ") ++ toString field.repo ++ ", v" ++ field.version ++ "."

theorem describeField_eq (field : FieldDef) : describeField field = "`" ++ field.ty ++ "`" ++ provenance field := by
  have hderived : "` — derived by " = "`" ++ " — derived by " := by decide
  have hrefused : ", so client writes are refused (§8). Repo " =
    ", so client writes are refused (§8). " ++ "Repo " := by
    decide
  have hsource : "` — source. Repo " = "`" ++ " — source. Repo " := by decide
  unfold describeField provenance
  cases field.derivedBy with
  | none => simp only [hsource, String.append_assoc, toString]
  | some producer => simp only [hderived, hrefused, String.append_assoc, toString]

theorem isDigit_of_mem_toString {number : Nat} (h : c ∈ (toString number).toList) : c.isDigit = true := by
  change c ∈ (String.ofList (Nat.toDigits 10 number)).toList at h
  rw [String.toList_ofList] at h
  exact Nat.isDigit_of_mem_toDigits (by decide) (by decide) h

theorem star_not_mem_provenance (h : field.Sent) : '*' ∉ (provenance field).toList := by
  have hversion : '*' ∉ field.version.toList :=
    (@FieldDef.Sent.wordy_version .ascii _ h).not_mem (by decide) (by decide)
  have hrepo : '*' ∉ (toString field.repo).toList := fun hmem => absurd (isDigit_of_mem_toString hmem) (by decide)
  unfold provenance
  cases hproducer : field.derivedBy with
  | none =>
    simp only [String.toList_append, List.mem_append, not_or]
    exact ⟨⟨⟨⟨by decide, hrepo⟩, by decide⟩, hversion⟩, by decide⟩
  | some producer =>
    have hderived : '*' ∉ producer.toList :=
      (@FieldDef.Sent.wordy_producer .ascii _ _ h hproducer).not_mem (by decide) (by decide)
    simp only [String.toList_append, List.mem_append, not_or]
    exact ⟨⟨⟨⟨⟨⟨by decide, hderived⟩, by decide⟩, hrepo⟩, by decide⟩, hversion⟩,
      by decide⟩

/-- A field's comment is closed in it where its type closes one. -/
theorem close_describeField (h : field.Sent) :
    close <:+: ("* " ++ describeField field ++ " ").toList ↔ close <:+: field.ty.toList := by
  have htext : ("* " ++ describeField field ++ " ").toList =
      "* ".toList ++ '`' :: (field.ty.toList ++ '`' :: ((provenance field).toList ++ [' '])) := by
    rw [describeField_eq]
    simp only [String.toList_append, List.append_assoc]
    rfl
  have hafter : ¬ close <:+: (provenance field).toList ++ [' '] := by
    refine not_close_of_star fun hmem => ?_
    rcases List.mem_append.1 hmem with hmem | hmem
    · exact star_not_mem_provenance h hmem
    · exact absurd (List.mem_singleton.1 hmem) (by decide)
  have hbefore : ¬ close <:+: "* ".toList := not_close_of_slash (by decide)
  rw [htext, close_separated (by decide) (by decide), close_separated (by decide) (by decide), or_iff_right hbefore,
    or_iff_left hafter]

theorem reads_interfaceField (h : field.Sent) (hbroken : Unbroken field.name ∧ Unbroken field.ty)
    (hclose : ¬ close <:+: field.ty.toList) :
    Reads unicode .code (interfaceField field) .code (interfaceTokens field) := by
  have hnull : Reads unicode .code " | null;\n" .code [mark "|", word "null", mark ";"] := by
    unfold word mark
    rw [Reads]
    repeat rw [String.toList_ofList]
    exact Lexes.plain (by decide)
  have hcolon : Reads unicode .code ": " .code [mark ":"] := by
    unfold mark
    rw [Reads]
    repeat rw [String.toList_ofList]
    exact Lexes.plain (by decide)
  have hspace : Reads unicode .code "  " .code [] := Lexes.plain (by decide)
  have hline : Reads unicode .code "\n" .code [] := Lexes.plain (by decide)
  have hproperty := reads_member hbroken.1 (head?_append rfl) (hcolon.append (reads_type hbroken.2 rfl hnull))
  have hmodifier : Reads unicode .code (if field.derivedBy.isSome then "readonly " else "") .code
      (if field.derivedBy.isSome then [word "readonly"] else []) := by
    split
    · unfold word
      rw [Reads]
      repeat rw [String.toList_ofList]
      exact Lexes.plain (by decide)
    · rfl
  have hcomment := @reads_block unicode _ ((close_describeField h).not.2 hclose)
  have hread := hspace.append (hcomment.append (hline.append (hspace.append (hmodifier.append hproperty))))
  have hopen : "  /** " = "  " ++ ("/*" ++ "* ") := by decide
  have hend : " */\n" = " " ++ ("*/" ++ "\n") := by decide
  delta interfaceField
  simp only [hopen, hend, interfaceTokens, String.append_assoc, List.append_assoc, block] at hread ⊢
  exact hread

theorem reads_flag {flag : Bool} (hhead : rest.toList.head? = some ',') (hrest : Reads unicode .code rest mode tokens) :
    Reads unicode .code ((if flag then "true" else "false") ++ rest) mode
      (word (if flag then "true" else "false") :: tokens) := by
  cases flag with
  | true => exact reads_word (isIdentifierName_of_ascii (by decide) (by decide)) hhead (by decide) (by decide) hrest
  | false => exact reads_word (isIdentifierName_of_ascii (by decide) (by decide)) hhead (by decide) (by decide) hrest

theorem reads_descriptorField (h : field.Sent) (hbroken : Unbroken field.name ∧ Unbroken field.ty) :
    Reads unicode .code (descriptorField field) .code (descriptorTokens field) := by
  have hend : Reads unicode .code " \x7d,\n" .code [mark "\x7d", mark ","] := by
    unfold mark
    rw [Reads]
    repeat rw [String.toList_ofList]
    exact Lexes.plain (by decide)
  have hversion : Reads unicode .code ", version: \"" (.string '"' []) [mark ",", word "version", mark ":"] := by
    unfold mark word
    rw [Reads]
    repeat rw [String.toList_ofList]
    exact Lexes.plain (by decide)
  have hderived : Reads unicode .code ", derived: " .code [mark ",", word "derived", mark ":"] := by
    unfold mark word
    rw [Reads]
    repeat rw [String.toList_ofList]
    exact Lexes.plain (by decide)
  have htype : Reads unicode .code ": \x7b type: " .code [mark ":", mark "\x7b", word "type", mark ":"] := by
    unfold mark word
    rw [Reads]
    repeat rw [String.toList_ofList]
    exact Lexes.plain (by decide)
  have hspace : Reads unicode .code "  " .code [] := Lexes.plain (by decide)
  have hflag := @reads_flag unicode _ _ _ field.derivedBy.isSome (head?_append rfl)
    (hversion.append (reads_plain h.wordy_version hend))
  have hctor := reads_ctor hbroken.2 (head?_append rfl) (hderived.append hflag)
  have hread := hspace.append (reads_member hbroken.1 (head?_append rfl) (htype.append hctor))
  have hclose : "\" \x7d,\n" = "\"" ++ " \x7d,\n" := by decide
  delta descriptorField
  simp only [hclose, descriptorTokens, String.append_assoc, List.append_assoc] at hread ⊢
  exact hread

/-! ### Structs -/

/-- A name after a punctuator that has not ended. -/
theorem Reads.name_after_mark {mark : List Char} (h : Wordy unicode name)
    (hne : isIdentifierName unicode name.toList = true)
    (hmark : mark ≠ ['/']) (hread : Reads unicode .code (name ++ rest) mode tokens) :
    Reads unicode (.punctuator mark) (name ++ rest) mode (punctuatorTokens mark ++ tokens) := by
  cases hname : name.toList with
  | nil =>
    rw [hname] at hne
    cases hne
  | cons first others =>
    refine EcmaScript.Reads.after_mark (c := first) (head?_append (by rw [hname]; rfl)) hmark ?_ hread
    exact grows_of_isIdContinue (h first (by rw [hname]; exact List.mem_cons_self)) mark

theorem wordToken_name (h : isReserved name.toList = false) : wordToken name.toList = nameToken name :=
  if_neg (by rw [h]; exact Bool.false_ne_true)

theorem reads_above (h : Wordy unicode name) :
    Reads unicode .code ("\n// ── " ++ name ++ " " ++ rule name ++ "\n\n") .code
      [line (" ── " ++ name ++ " " ++ rule name)] := by
  have hrule : ∀ c ∈ (" ── " ++ name ++ " " ++ rule name).toList, isLineTerminator c = false := by
    have hdashes : " ── ".toList.all (fun c => !isLineTerminator c) = true := by decide
    have hspace : " ".toList.all (fun c => !isLineTerminator c) = true := by decide
    intro c hc
    simp only [String.toList_append, List.mem_append] at hc
    rcases hc with ((hc | hc) | hc) | hc
    · simpa only [Bool.not_eq_true'] using List.all_eq_true.1 hdashes c hc
    · exact isLineTerminator_of_isIdContinue (h c hc)
    · simpa only [Bool.not_eq_true'] using List.all_eq_true.1 hspace c hc
    · rw [rule, String.toList_ofList] at hc
      rw [List.eq_of_mem_replicate hc]
      decide
  have hline : Reads unicode .code "\n" .code [] := Lexes.plain (by decide)
  have hread := hline.append ((@reads_line unicode _ hrule).append hline)
  have hfirst : "\n// ── " = "\n" ++ ("//" ++ " ── ") := by decide
  have hblank : "\n\n" = "\n" ++ "\n" := by decide
  simp only [hfirst, hblank, String.append_assoc, line] at hread ⊢
  exact hread

theorem reads_interface (hidentifier : isIdentifierName unicode name.toList = true)
    (hreserved : isReserved name.toList = false) (hfields : Reads unicode .code text .code tokens) :
    Reads unicode .code ("export interface " ++ name ++ " \x7b\n" ++ text ++ "\x7d\n\n") .code
      ([word "export", word "interface", nameToken name, mark "\x7b"] ++ tokens ++ [mark "\x7d"]) := by
  have hexport : Reads unicode .code "export interface " .code [word "export", word "interface"] := by
    unfold word
    rw [Reads]
    repeat rw [String.toList_ofList]
    exact Lexes.plain (by decide)
  have hopen : Reads unicode .code " \x7b\n" .code [mark "\x7b"] := by
    unfold mark
    rw [Reads]
    repeat rw [String.toList_ofList]
    exact Lexes.plain (by decide)
  have hclosed : Reads unicode .code "\x7d\n\n" .code [mark "\x7d"] := by
    unfold mark
    rw [Reads]
    repeat rw [String.toList_ofList]
    exact Lexes.plain (by decide)
  have hread := hexport.append
    (reads_word hidentifier (c := ' ') (head?_append rfl) (by decide) (by decide)
      (hopen.append (hfields.append hclosed)))
  simp only [String.append_assoc, List.append_assoc, wordToken_name hreserved] at hread ⊢
  exact hread

theorem reads_runtimeHalf (h : Wordy unicode name) :
    Reads unicode .code ("/** The runtime half of \x7b@link " ++ name ++ "\x7d: what `tx.object(" ++ name ++
      ", id)` converts values with. */\n") .code
      [block ("* The runtime half of \x7b@link " ++ name ++ "\x7d: what `tx.object(" ++ name ++
        ", id)` converts values with. ")] := by
  have hslash : '/' ∉ name.toList := h.not_mem (by decide) (by decide)
  have hunclosed : ¬ close <:+: ("* The runtime half of \x7b@link " ++ name ++ "\x7d: what `tx.object(" ++
      name ++ ", id)` converts values with. ").toList := by
    refine not_close_of_slash ?_
    simp only [String.toList_append, List.mem_append, not_or]
    exact ⟨⟨⟨⟨by decide, hslash⟩, by decide⟩, hslash⟩, by decide⟩
  have hline : Reads unicode .code "\n" .code [] := Lexes.plain (by decide)
  have hread := (@reads_block unicode _ hunclosed).append hline
  have hopened : "/** The runtime half of \x7b@link " = "/*" ++ "* The runtime half of \x7b@link " := by decide
  have hended : ", id)` converts values with. */\n" = ", id)` converts values with. " ++ ("*/" ++ "\n") := by decide
  simp only [hopened, hended, String.append_assoc, block] at hread ⊢
  exact hread

theorem reads_constant (hidentifier : isIdentifierName unicode name.toList = true)
    (hreserved : isReserved name.toList = false) (hfields : Reads unicode .code text .code tokens) :
    Reads unicode .code ("export const " ++ name ++ ": StructDescriptor<" ++ name ++ ", " ++ quoted name ++
        "> = defineStruct(\"" ++ name ++ "\", \x7b\n" ++ text ++ "\x7d);\n") .code
      ([word "export", word "const", nameToken name, mark ":", word "StructDescriptor", mark "<", nameToken name,
        mark ",", quotedToken name, mark ">", mark "=", word "defineStruct", mark "(", plainToken name, mark ",",
        mark "\x7b"] ++ tokens ++ [mark "\x7d", mark ")", mark ";"]) := by
  have hconst : Reads unicode .code "export const " .code [word "export", word "const"] := by
    unfold word
    rw [Reads]
    repeat rw [String.toList_ofList]
    exact Lexes.plain (by decide)
  have htype : Reads unicode .code ": StructDescriptor<" (.punctuator ['<']) [mark ":", word "StructDescriptor"] := by
    unfold mark word
    rw [Reads]
    repeat rw [String.toList_ofList]
    exact Lexes.plain (by decide)
  have hcomma : Reads unicode .code ", " .code [mark ","] := by
    unfold mark
    rw [Reads]
    repeat rw [String.toList_ofList]
    exact Lexes.plain (by decide)
  have hdefine : Reads unicode .code "> = defineStruct(\"" (.string '"' [])
      [mark ">", mark "=", word "defineStruct", mark "("] := by
    unfold mark word
    rw [Reads]
    repeat rw [String.toList_ofList]
    exact Lexes.plain (by decide)
  have hbrace : Reads unicode .code ", \x7b\n" .code [mark ",", mark "\x7b"] := by
    unfold mark
    rw [Reads]
    repeat rw [String.toList_ofList]
    exact Lexes.plain (by decide)
  have hend : Reads unicode .code "\x7d);\n" .code [mark "\x7d", mark ")", mark ";"] := by
    unfold mark
    rw [Reads]
    repeat rw [String.toList_ofList]
    exact Lexes.plain (by decide)
  have hwordy := wordy_of_isIdentifierName hidentifier
  have hbody := hdefine.append (reads_plain hwordy (hbrace.append (hfields.append hend)))
  have hbrand := reads_word hidentifier (c := ',') (head?_append rfl) (by decide) (by decide)
    (hcomma.append (reads_quoted hwordy.unbroken hbody))
  have hread := hconst.append (reads_word hidentifier (c := ':') (head?_append rfl) (by decide) (by decide)
    (htype.append (Reads.name_after_mark hwordy hidentifier (by decide) hbrand)))
  have hquote : "\", \x7b\n" = "\"" ++ ", \x7b\n" := by decide
  simp only [hquote, String.append_assoc, List.append_assoc, wordToken_name hreserved] at hread ⊢
  exact hread

theorem reads_emitStruct (hidentifier : isIdentifierName unicode object.name.toList = true)
    (hreserved : isReserved object.name.toList = false)
    (hinterface : Reads unicode .code (String.join (object.fields.map interfaceField)) .code
      (object.fields.flatMap interfaceTokens))
    (hdescriptor : Reads unicode .code (String.join (object.fields.map descriptorField)) .code
      (object.fields.flatMap descriptorTokens)) :
    Reads unicode .code (emitStruct object) .code (structTokens object) := by
  have hwordy := wordy_of_isIdentifierName hidentifier
  have hread := (reads_above hwordy).append ((reads_interface hidentifier hreserved hinterface).append
    ((reads_runtimeHalf hwordy).append (reads_constant hidentifier hreserved hdescriptor)))
  delta emitStruct
  simp only [structTokens, String.append_assoc, List.append_assoc, List.cons_append, List.nil_append] at hread ⊢
  exact hread

end Generate

end BorgCore
