import BorgCore.Lib.Blocks
import BorgCore.Sdk.Bound

/-!
# Names are carried as names

A generated module lexes into its template, binds no name twice and tells its schema from every other, where the
names of the schema are well chosen; and nowhere else.  A push takes names that are not.
-/

namespace BorgCore

namespace Generate

open EcmaScript

variable {unicode : Unicode} {field field' : FieldDef} {object object' : StructDef} {schema schema' : SchemaDef}
  {ty ty' text text' : String} {number number' : Nat}

/-! ### A field is told by its tokens -/

theorem toString_injective (h : toString number = toString number') : number = number' := by
  have hdigits : Nat.toDigits 10 number = Nat.toDigits 10 number' := String.ofList_injective h
  rw [← BigInt.value_toDigits number, hdigits, BigInt.value_toDigits]

theorem cut (c : Char) {before before' after after' : List Char} (hbefore : c ∉ before) (hbefore' : c ∉ before')
    (h : before ++ c :: after = before' ++ c :: after') : before = before' ∧ after = after' := by
  have hnone {text : List Char} (hmem : c ∉ text) : ∀ d ∈ text, decide (d = c) = false := by
    intro d hd
    rw [decide_eq_false_iff_not]
    rintro rfl
    exact hmem hd
  obtain ⟨hfirst, -, hrest⟩ := Blocks.append_cons_inj (hnone hbefore) (hnone hbefore') (decide_eq_true rfl)
    (decide_eq_true rfl) h
  exact ⟨hfirst, hrest⟩

theorem comma_not_mem_toString (number : Nat) : ',' ∉ (toString number).toList :=
  fun hmem => absurd (isDigit_of_mem_toString hmem) (by decide)

/-- The repo and the version at the end of a field's comment. -/
theorem repo_version_inj {version version' : String}
    (h : (toString number).toList ++ (", v".toList ++ (version.toList ++ ".".toList)) =
      (toString number').toList ++ (", v".toList ++ (version'.toList ++ ".".toList))) :
    number = number' ∧ version = version' := by
  obtain ⟨hnumber, hrest⟩ := cut ',' (comma_not_mem_toString number) (comma_not_mem_toString number') h
  have hversion := List.append_cancel_right (@List.append_cancel_left _ [' ', 'v'] _ _ hrest)
  exact ⟨toString_injective (String.toList_injective hnumber), String.toList_injective hversion⟩

theorem provenance_inj (h : field.Sent) (h' : field'.Sent) (hderived : field.derivedBy.isSome = field'.derivedBy.isSome)
    (heq : (provenance field).toList = (provenance field').toList) :
    field.derivedBy = field'.derivedBy ∧ field.repo = field'.repo ∧ field.version = field'.version := by
  unfold provenance at heq
  cases hfield : field.derivedBy with
  | none =>
    cases hfield' : field'.derivedBy with
    | some producer => simp [hfield, hfield'] at hderived
    | none =>
      rw [hfield, hfield'] at heq
      simp only [String.toList_append, List.append_assoc] at heq
      exact ⟨rfl, repo_version_inj (List.append_cancel_left heq)⟩
  | some producer =>
    cases hfield' : field'.derivedBy with
    | none => simp [hfield, hfield'] at hderived
    | some producer' =>
      rw [hfield, hfield'] at heq
      simp only [String.toList_append, List.append_assoc] at heq
      have hcomma : ',' ∉ producer.toList :=
        (@FieldDef.Sent.wordy_producer .ascii _ _ h hfield).not_mem (by decide) (by decide)
      have hcomma' : ',' ∉ producer'.toList :=
        (@FieldDef.Sent.wordy_producer .ascii _ _ h' hfield').not_mem (by decide) (by decide)
      have hrefused : ", so client writes are refused (§8). Repo ".toList =
          ',' :: " so client writes are refused (§8). Repo ".toList := by decide
      rw [hrefused] at heq
      simp only [List.cons_append] at heq
      obtain ⟨hproducer, hrest⟩ := cut ',' hcomma hcomma' (List.append_cancel_left heq)
      exact ⟨congrArg some (String.toList_injective hproducer), repo_version_inj (List.append_cancel_left hrest)⟩

theorem wordToken_injective {word word' : List Char} (h : wordToken word = wordToken word') : word = word' := by
  unfold wordToken at h
  split at h
  · split at h
    · exact Token.keyword.inj h
    · cases h
  · split at h
    · cases h
    · exact Token.identifier.inj h

theorem wordToken_ne_string {word raw value : List Char} : wordToken word ≠ .string raw value := by
  unfold wordToken
  split
  · exact nofun
  · exact nofun

theorem memberToken_injective (h : memberToken text = memberToken text') : text = text' := by
  unfold memberToken at h
  split at h
  · split at h
    · exact String.toList_injective (wordToken_injective h)
    · exact absurd h wordToken_ne_string
  · split at h
    · exact absurd h.symm wordToken_ne_string
    · exact String.toList_injective (Token.string.inj h).2

theorem memberToken_ne_mark : memberToken text ≠ mark text' := by
  unfold memberToken
  split
  · unfold word wordToken
    split
    · exact nofun
    · exact nofun
  · exact nofun

/-- A type that names no struct has no mark of a comment's code in it. -/
theorem backtick_not_mem (h : (mapType ty).reference = false) : '`' ∉ ty.toList := by
  unfold mapType at h
  repeat' split at h
  all_goals first
    | cases h; done
    | rename_i hty; subst hty; decide
    | rename_i hty; rcases hty with rfl | rfl | rfl | rfl <;> decide

/-- A type is told by its tokens, or by what the comment says of it. -/
theorem type_inj (h : typeTokens ty = typeTokens ty')
    (hcomment : ty.toList ++ '`' :: text.toList = ty'.toList ++ '`' :: text'.toList) : ty = ty' := by
  unfold typeTokens at h
  cases hty : (mapType ty).reference with
  | true =>
    cases hty' : (mapType ty').reference with
    | true =>
      rw [hty, hty', if_pos rfl, if_pos rfl] at h
      have hquoted : quotedToken ty = quotedToken ty' := (List.cons.inj (List.cons.inj (List.cons.inj h).2).2).1
      exact String.toList_injective (Token.string.inj hquoted).2
    | false =>
      rw [hty, hty', if_pos rfl, if_neg Bool.false_ne_true] at h
      cases (List.cons.inj h).2
  | false =>
    cases hty' : (mapType ty').reference with
    | true =>
      rw [hty, hty', if_neg Bool.false_ne_true, if_pos rfl] at h
      cases (List.cons.inj h).2
    | false => exact String.toList_injective (cut '`' (backtick_not_mem hty) (backtick_not_mem hty') hcomment).1

theorem interfaceTokens_inj (h : field.Sent) (h' : field'.Sent) (heq : interfaceTokens field = interfaceTokens field') :
    field = field' := by
  unfold interfaceTokens at heq
  simp only [List.append_assoc, List.cons_append, List.nil_append] at heq
  obtain ⟨hblock, htokens⟩ := List.cons.inj heq
  -- The comment.
  have hcomment : field.ty.toList ++ '`' :: (provenance field).toList =
      field'.ty.toList ++ '`' :: (provenance field').toList := by
    have htext := Token.block.inj hblock
    rw [describeField_eq, describeField_eq] at htext
    simp only [String.toList_append, List.append_assoc] at htext
    have hinner := List.append_cancel_left (List.append_cancel_left htext)
    simp only [← List.append_assoc] at hinner
    have hlist := List.append_cancel_right hinner
    rw [List.append_assoc, List.append_assoc] at hlist
    exact hlist
  -- Whether it is derived, its name and its type.
  have hproperty : field.derivedBy.isSome = field'.derivedBy.isSome ∧ field.name = field'.name ∧
      typeTokens field.ty = typeTokens field'.ty := by
    have hrest {name name' : String} {types types' : List Token}
        (h : memberToken name :: mark ":" :: (types ++ [mark "|", word "null", mark ";"]) =
          memberToken name' :: mark ":" :: (types' ++ [mark "|", word "null", mark ";"])) :
        name = name' ∧ types = types' := by
      obtain ⟨hname, htail⟩ := List.cons.inj h
      exact ⟨memberToken_injective hname, List.append_cancel_right (List.cons.inj htail).2⟩
    cases hfield : field.derivedBy.isSome with
    | true =>
      cases hfield' : field'.derivedBy.isSome with
      | true =>
        rw [hfield, hfield', if_pos rfl] at htokens
        exact ⟨rfl, hrest (List.cons.inj htokens).2⟩
      | false =>
        rw [hfield, hfield', if_pos rfl, if_neg Bool.false_ne_true] at htokens
        exact absurd (List.cons.inj (List.cons.inj htokens).2).1 memberToken_ne_mark
    | false =>
      cases hfield' : field'.derivedBy.isSome with
      | true =>
        rw [hfield, hfield', if_neg Bool.false_ne_true, if_pos rfl] at htokens
        exact absurd (List.cons.inj (List.cons.inj htokens).2).1.symm memberToken_ne_mark
      | false =>
        rw [hfield, hfield', if_neg Bool.false_ne_true] at htokens
        exact ⟨rfl, hrest htokens⟩
  obtain ⟨hderived, hname, htypes⟩ := hproperty
  have hty := type_inj htypes hcomment
  rw [hty] at hcomment
  have hprovenance := (List.cons.inj (List.append_cancel_left hcomment)).2
  obtain ⟨hproducer, hrepo, hversion⟩ := provenance_inj h h' hderived hprovenance
  cases field
  cases field'
  simp only at hname hty hproducer hrepo hversion
  rw [hname, hty, hproducer, hrepo, hversion]

/-! ### A struct is told by its tokens -/

def isBlock : Token → Bool
  | .block _ => true
  | _ => false

def isLine : Token → Bool
  | .line _ => true
  | _ => false

/-- A token that is no comment. -/
def Bare (token : Token) : Prop := isBlock token = false ∧ isLine token = false

theorem bare_wordToken (word : List Char) : Bare (wordToken word) := by
  unfold wordToken
  split
  · exact ⟨rfl, rfl⟩
  · exact ⟨rfl, rfl⟩

theorem bare_memberToken (name : String) : Bare (memberToken name) := by
  unfold memberToken
  split
  · exact bare_wordToken _
  · exact ⟨rfl, rfl⟩

theorem bare_typeTokens (ty : String) : ∀ token ∈ typeTokens ty, Bare token := by
  unfold typeTokens
  split
  · exact List.forall_mem_cons.2 ⟨bare_wordToken _, List.forall_mem_cons.2 ⟨⟨rfl, rfl⟩, List.forall_mem_cons.2
      ⟨⟨rfl, rfl⟩, List.forall_mem_singleton.2 ⟨rfl, rfl⟩⟩⟩⟩
  · exact List.forall_mem_singleton.2 (bare_wordToken _)

theorem bare_ctorTokens (ty : String) : ∀ token ∈ ctorTokens ty, Bare token := by
  unfold ctorTokens
  refine List.forall_mem_cons.2 ⟨bare_wordToken _, List.forall_mem_cons.2 ⟨⟨rfl, rfl⟩, ?_⟩⟩
  refine List.forall_mem_append.2 ⟨?_, List.forall_mem_singleton.2 ⟨rfl, rfl⟩⟩
  split
  · exact List.forall_mem_singleton.2 ⟨rfl, rfl⟩
  · exact nofun

/-- A field of the interface is its comment, and code. -/
theorem interfaceTokens_eq (field : FieldDef) :
    ∃ code, interfaceTokens field = block ("* " ++ describeField field ++ " ") :: code ∧
      ∀ token ∈ code, Bare token := by
  unfold interfaceTokens
  simp only [List.append_assoc, List.cons_append, List.nil_append]
  refine ⟨_, rfl, List.forall_mem_append.2 ⟨?_, List.forall_mem_cons.2 ⟨bare_memberToken _,
    List.forall_mem_cons.2 ⟨⟨rfl, rfl⟩, List.forall_mem_append.2 ⟨bare_typeTokens _, List.forall_mem_cons.2 ⟨⟨rfl, rfl⟩,
      List.forall_mem_cons.2 ⟨bare_wordToken _, List.forall_mem_singleton.2 ⟨rfl, rfl⟩⟩⟩⟩⟩⟩⟩⟩
  split
  · exact List.forall_mem_singleton.2 (bare_wordToken _)
  · exact nofun

theorem marked_interfaceTokens (field : FieldDef) : Blocks.Marked isBlock (interfaceTokens field) := by
  obtain ⟨code, htokens, hcode⟩ := interfaceTokens_eq field
  exact ⟨_, code, htokens, rfl, fun token hmem => (hcode token hmem).1⟩

theorem isLine_interfaceTokens (field : FieldDef) : ∀ token ∈ interfaceTokens field, isLine token = false := by
  obtain ⟨code, htokens, hcode⟩ := interfaceTokens_eq field
  rw [htokens]
  exact List.forall_mem_cons.2 ⟨rfl, fun token hmem => (hcode token hmem).2⟩

theorem bare_descriptorTokens (field : FieldDef) : ∀ token ∈ descriptorTokens field, Bare token := by
  unfold descriptorTokens
  refine List.forall_mem_append.2 ⟨List.forall_mem_append.2 ⟨?_, bare_ctorTokens _⟩, ?_⟩
  · simp only [List.forall_mem_cons, List.not_mem_nil, false_implies, implies_true, and_true]
    exact ⟨bare_memberToken _, ⟨rfl, rfl⟩, ⟨rfl, rfl⟩, bare_wordToken _, ⟨rfl, rfl⟩⟩
  · simp only [List.forall_mem_cons, List.not_mem_nil, false_implies, implies_true, and_true]
    exact ⟨⟨rfl, rfl⟩, bare_wordToken _, ⟨rfl, rfl⟩, bare_wordToken _, ⟨rfl, rfl⟩, bare_wordToken _, ⟨rfl, rfl⟩,
      ⟨rfl, rfl⟩, ⟨rfl, rfl⟩, ⟨rfl, rfl⟩⟩

/-- A struct starts with the line above it, and there is no other in it. -/
theorem marked_structTokens (object : StructDef) : Blocks.Marked isLine (structTokens object) := by
  unfold structTokens
  simp only [List.append_assoc, List.cons_append, List.nil_append]
  refine ⟨_, _, rfl, rfl, ?_⟩
  simp only [List.forall_mem_cons, List.forall_mem_append, List.not_mem_nil, false_implies, implies_true, and_true]
  have hinterface : ∀ token ∈ object.fields.flatMap interfaceTokens, isLine token = false := by
    intro token htoken
    obtain ⟨field, -, hmem⟩ := List.mem_flatMap.1 htoken
    exact isLine_interfaceTokens field token hmem
  have hdescriptor : ∀ token ∈ object.fields.flatMap descriptorTokens, isLine token = false := by
    intro token htoken
    obtain ⟨field, -, hmem⟩ := List.mem_flatMap.1 htoken
    exact (bare_descriptorTokens field token hmem).2
  have hword (text : String) : isLine (word text) = false := (bare_wordToken _).2
  exact ⟨hword _, hword _, rfl, rfl, hinterface, rfl, rfl, hword _, hword _, rfl, rfl, hword _, rfl, rfl, rfl, rfl, rfl,
    rfl, hword _, rfl, rfl, rfl, rfl, hdescriptor, rfl, rfl, rfl⟩

theorem structTokens_inj (h : ∀ field ∈ object.fields, field.Sent) (h' : ∀ field ∈ object'.fields, field.Sent)
    (heq : structTokens object = structTokens object') : object = object' := by
  unfold structTokens at heq
  simp only [List.append_assoc, List.cons_append, List.nil_append] at heq
  have htokens := (List.cons.inj (List.cons.inj (List.cons.inj heq).2).2).2
  obtain ⟨hname, htokens⟩ := List.cons.inj htokens
  have hnames : object.name = object'.name := String.toList_injective (Token.identifier.inj hname)
  have hinside (object : StructDef) :
      ∀ token ∈ object.fields.flatMap interfaceTokens, decide (token = mark "\x7d") = false := by
    intro token htoken
    obtain ⟨field, -, hmem⟩ := List.mem_flatMap.1 htoken
    exact decide_eq_false (interfaceTokens_ne_brace field token hmem).2
  obtain ⟨hfields, -, -⟩ := Blocks.append_cons_inj (hinside object) (hinside object') (decide_eq_true rfl)
    (decide_eq_true rfl) (List.cons.inj htokens).2
  have hmap := Blocks.map_eq_of_flatMap_eq (fun field _ => marked_interfaceTokens field)
    (fun field _ => marked_interfaceTokens field) hfields
  have hsame := Blocks.eq_of_map_eq (fun field hfield field' hfield' hsame =>
    interfaceTokens_inj (h field hfield) (h' field' hfield') hsame) hmap
  cases object
  cases object'
  simp only at hnames hsame
  rw [hnames, hsame]

/-! ### A schema is told by its tokens -/

theorem isBlock_importTokens (values : List String) (reference : Bool) :
    ∀ token ∈ importTokens values reference, isBlock token = false := by
  have hword (text : String) : isBlock (word text) = false := (bare_wordToken _).1
  unfold importTokens
  refine List.forall_mem_append.2 ⟨List.forall_mem_append.2 ⟨List.forall_mem_append.2 ⟨List.forall_mem_append.2
    ⟨?_, ?_⟩, ?_⟩, ?_⟩, ?_⟩
  · simp only [List.forall_mem_cons, List.not_mem_nil, false_implies, implies_true, and_true]
    exact ⟨hword _, rfl, hword _, hword _, hword _, rfl, hword _, rfl⟩
  · intro token htoken
    obtain ⟨value, -, hmem⟩ := List.mem_flatMap.1 htoken
    rcases List.mem_pair.1 hmem with rfl | rfl
    · exact hword _
    · rfl
  · simp only [List.forall_mem_cons, List.not_mem_nil, false_implies, implies_true, and_true]
    exact ⟨hword _, hword _, rfl, hword _, hword _, rfl⟩
  · split
    · simp only [List.forall_mem_cons, List.not_mem_nil, false_implies, implies_true, and_true]
      exact ⟨hword _, hword _, rfl⟩
    · exact nofun
  · simp only [List.forall_mem_cons, List.not_mem_nil, false_implies, implies_true, and_true]
    exact ⟨hword _, hword _, rfl, rfl, hword _, rfl, rfl⟩

theorem headerTokens_inj {version version' : String} {rest rest' : List Token}
    (h : headerTokens version ++ rest = headerTokens version' ++ rest') : version = version' := by
  unfold headerTokens at h
  have hline := (List.cons.inj (List.cons.inj (List.cons.inj h).2).2).1
  have htext := Token.line.inj hline
  simp only [String.toList_append, List.append_assoc] at htext
  exact String.toList_injective (List.append_cancel_right (List.append_cancel_left htext))

/-- **A schema is told by its template**, but for the order of its structs. -/
theorem template_inj (h : Held schema) (h' : Held schema') (heq : template schema = template schema') :
    schema.version = schema'.version ∧ schema.structs.Perm schema'.structs := by
  unfold template at heq
  simp only [List.append_assoc] at heq
  have hversion := headerTokens_inj heq
  have hheader (version : String) : ∀ token ∈ headerTokens version, isBlock token = false := by
    unfold headerTokens
    simp only [List.forall_mem_cons, List.not_mem_nil, false_implies, implies_true, and_true]
    exact ⟨rfl, rfl, rfl, rfl, rfl, rfl, rfl, rfl, rfl, rfl, rfl⟩
  have hbefore (schema : SchemaDef) : ∀ token ∈ headerTokens schema.version ++
      importTokens (importedValues (sorted schema)) (anyReference (sorted schema)), isBlock token = false :=
    List.forall_mem_append.2 ⟨hheader _, isBlock_importTokens _ _⟩
  rw [← List.append_assoc, ← List.append_assoc (headerTokens schema'.version)] at heq
  obtain ⟨-, -, hafter⟩ := Blocks.append_cons_inj (hbefore schema) (hbefore schema') rfl rfl heq
  rw [hversion] at hafter
  have hstructs := List.append_cancel_left hafter
  have hmap := Blocks.map_eq_of_flatMap_eq (fun object _ => marked_structTokens object)
    (fun object _ => marked_structTokens object) hstructs
  have hsorted : sorted schema = sorted schema' := Blocks.eq_of_map_eq (fun object hobject object' hobject' hsame =>
    structTokens_inj (h.sent object (mem_sorted.1 hobject)) (h'.sent object' (mem_sorted.1 hobject')) hsame) hmap
  refine ⟨hversion, ?_⟩
  have hperm := (List.perm_insertionSort (fun a b : StructDef => a.name ≤ b.name) schema.structs).symm
  rw [show schema.structs.insertionSort (fun a b => a.name ≤ b.name) = sorted schema from rfl, hsorted] at hperm
  exact hperm.trans (List.perm_insertionSort _ _)

/-! ### The whole module -/

/-- What it is for a module to carry the names of its schema as names.  Its text lexes into the template, where each
name is in a comment, is one identifier or is one string that says just that name; no two declarations are of one
name in one space, and none is of a name that is imported. -/
structure Carries (unicode : Unicode) (schema : SchemaDef) : Prop where
  lexed : lex unicode (module schema).toList = some (template schema)
  lawful : ∀ token ∈ template schema, token.Lawful unicode
  distinct : (declarations (template schema)).Nodup
  unclashing : ∀ entry ∈ declarations (template schema), entry.2 ∉ imported (template schema)

theorem imported_eq_map (schema : SchemaDef) : imported (template schema) =
    (["connect", "defineStruct"] ++ importedValues (sorted schema) ++ ["BorgContext", "BorgContextOptions"] ++
      (if anyReference (sorted schema) then ["Ref"] else []) ++ ["StructDescriptor"]).map String.toList := by
  rw [imported_template]
  simp only [List.map_append, apply_ite (List.map String.toList), List.map_cons, List.map_nil]

theorem mem_claimed {name : String} : name ∈ claimed schema ↔
    name = "CLIENT_VERSION" ∨ name = "createBorgContext" ∨ name.toList ∈ imported (template schema) := by
  rw [imported_eq_map, List.mem_map_of_injective fun _ _ heq => String.toList_injective heq]
  unfold claimed
  simp only [List.cons_append, List.nil_append, List.mem_cons]

theorem mem_template {token : Token} (hobject : object ∈ schema.structs) (h : token ∈ structTokens object) :
    token ∈ template schema :=
  List.mem_append_right _ (List.mem_flatMap.2 ⟨object, mem_sorted.2 hobject, h⟩)

theorem mem_structTokens {token : Token} (hfield : field ∈ object.fields) (h : token ∈ interfaceTokens field) :
    token ∈ structTokens object := by
  unfold structTokens
  refine List.mem_append_left _ (List.mem_append_left _ (List.mem_append_left _ (List.mem_append_right _ ?_)))
  exact List.mem_flatMap.2 ⟨field, hfield, h⟩

theorem unbroken_of_all (h : text.toList.all (fun c => c != '\n' && c != '\r') = true) : Unbroken text := by
  intro c hc
  have hchar := List.all_eq_true.1 h c hc
  rw [Bool.and_eq_true, bne_iff_ne, bne_iff_ne] at hchar
  exact hchar

/-- A type is on one line where its tokens are lawful. -/
theorem unbroken_type (h : ∀ token ∈ typeTokens ty, token.Lawful unicode) : Unbroken ty := by
  unfold typeTokens at h
  split at h
  · exact unescape_escape.1 (h (quotedToken ty) (by simp))
  · rename_i hreference
    unfold mapType at hreference
    refine unbroken_of_all ?_
    repeat' split at hreference
    all_goals first
      | exact absurd rfl hreference
      | rename_i hty; subst hty; decide
      | rename_i hty; rcases hty with rfl | rfl | rfl | rfl <;> decide

theorem Carries.wellNamed (h : Held schema) (hcarries : Carries unicode schema) : WellNamed unicode schema where
  identifiers object hobject :=
    hcarries.lawful (nameToken object.name) (mem_template hobject (by unfold structTokens; simp))
  free object hobject hclaimed := by
    have hdeclared : (Space.value, object.name.toList) ∈ declarations (template schema) := by
      rw [declarations_template]
      exact List.mem_append_right _ (List.mem_flatMap.2 ⟨object, mem_sorted.2 hobject, by simp⟩)
    have htwice : (Space.value, object.name.toList) ∉
        [(Space.value, "CLIENT_VERSION".toList), (Space.value, "createBorgContext".toList)] := by
      have hdistinct := hcarries.distinct
      rw [declarations_template, List.nodup_append] at hdistinct
      intro hmem
      exact hdistinct.2.2 _ hmem _ (List.mem_flatMap.2 ⟨object, mem_sorted.2 hobject, by simp⟩) rfl
    rcases mem_claimed.1 hclaimed with hname | hname | himported
    · exact htwice (by rw [hname]; exact List.mem_cons_self)
    · exact htwice (by rw [hname]; exact List.mem_cons_of_mem _ List.mem_cons_self)
    · exact hcarries.unclashing _ hdeclared himported
  unbroken object hobject field hfield := by
    have hlawful {token : Token} (hmem : token ∈ interfaceTokens field) : token.Lawful unicode :=
      hcarries.lawful token (mem_template hobject (mem_structTokens hfield hmem))
    refine ⟨?_, unbroken_type fun token hmem => hlawful ?_⟩
    · by_cases hidentifier : identifier field.name = true
      · exact (wordy_of_isIdentifierName (@isIdentifierName_of_identifier unicode _ hidentifier)).unbroken
      · have hmember : memberToken field.name = quotedToken field.name := if_neg hidentifier
        have hquoted : (quotedToken field.name).Lawful unicode := by
          rw [← hmember]
          exact hlawful (by unfold interfaceTokens; simp)
        exact unescape_escape.1 hquoted
    · unfold interfaceTokens
      exact List.mem_append_left _ (List.mem_append_right _ hmem)
  unclosed object hobject field hfield := by
    have hblock : (block ("* " ++ describeField field ++ " ")).Lawful unicode :=
      hcarries.lawful _ (mem_template hobject (mem_structTokens hfield (by unfold interfaceTokens; simp)))
    exact (close_describeField (h.sent object hobject field hfield)).not.1 hblock

theorem own_not_imported {name : String} (hname : name = "CLIENT_VERSION" ∨ name = "createBorgContext") :
    name.toList ∉ imported (template schema) := by
  have hprimitives : ∀ entry ∈ primitives, entry.2 ≠ "CLIENT_VERSION" ∧ entry.2 ≠ "createBorgContext" := by decide
  have hvalue : name ∉ importedValues (sorted schema) := by
    intro hmem
    rw [importedValues, List.mem_insertionSort, List.mem_dedup, List.mem_flatMap] at hmem
    obtain ⟨object, -, hmem⟩ := hmem
    obtain ⟨field, -, rfl⟩ := List.mem_map.1 hmem
    rcases mapType_eq field.ty with ⟨-, -, hprimitive⟩ | hmapped
    · exact hname.elim (hprimitives _ hprimitive).1 (hprimitives _ hprimitive).2
    · rw [show (mapType field.ty).imported = "refText" from congrArg Mapped.imported hmapped] at hname
      exact absurd hname (by decide)
  have hclaimed : name ∉ ["connect", "defineStruct"] ++ importedValues (sorted schema) ++
      ["BorgContext", "BorgContextOptions"] ++ (if anyReference (sorted schema) then ["Ref"] else []) ++
      ["StructDescriptor"] := by
    simp only [List.mem_append, not_or]
    refine ⟨⟨⟨⟨?_, hvalue⟩, ?_⟩, ?_⟩, ?_⟩
    · rcases hname with rfl | rfl <;> decide
    · rcases hname with rfl | rfl <;> decide
    · split
      · rcases hname with rfl | rfl <;> decide
      · exact List.not_mem_nil
    · rcases hname with rfl | rfl <;> decide
  rw [imported_eq_map]
  exact fun hmem => hclaimed ((List.mem_map_of_injective fun _ _ heq => String.toList_injective heq).1 hmem)

theorem nodup_declared (h : Held schema) : ((sorted schema).flatMap fun object =>
    [(Space.type, object.name.toList), (Space.value, object.name.toList)]).Nodup := by
  have hnames : ((sorted schema).map StructDef.name).Nodup :=
    ((List.perm_insertionSort _ _).map StructDef.name).nodup_iff.2 h.nodup
  refine List.nodup_flatMap.2 ⟨fun object _ => by simp, ?_⟩
  refine (List.pairwise_map.1 hnames).imp fun hne => ?_
  intro entry hentry hentry'
  simp only [List.mem_pair] at hentry hentry'
  rcases hentry with rfl | rfl
  · rcases hentry' with heq | heq
    · exact hne (String.toList_injective (congrArg Prod.snd heq))
    · cases congrArg Prod.fst heq
  · rcases hentry' with heq | heq
    · cases congrArg Prod.fst heq
    · exact hne (String.toList_injective (congrArg Prod.snd heq))

theorem WellNamed.carries (h : Held schema) (hnamed : WellNamed unicode schema) : Carries unicode schema where
  lexed := lex_module h hnamed
  lawful := lex_lawful (lex_module h hnamed)
  distinct := by
    rw [declarations_template, List.nodup_append]
    refine ⟨by decide, nodup_declared h, ?_⟩
    rintro entry hentry _ hstruct rfl
    obtain ⟨object, hobject, hmem⟩ := List.mem_flatMap.1 hstruct
    have hname : entry.2 = object.name.toList := by
      rcases List.mem_pair.1 hmem with rfl | rfl
      · rfl
      · rfl
    refine hnamed.free object (mem_sorted.1 hobject) (mem_claimed.2 ?_)
    rcases List.mem_pair.1 hentry with rfl | rfl
    · exact Or.inl (String.toList_injective hname.symm)
    · exact Or.inr (Or.inl (String.toList_injective hname.symm))
  unclashing := by
    intro entry hentry himported
    rw [declarations_template] at hentry
    rcases List.mem_append.1 hentry with hentry | hentry
    · rcases List.mem_pair.1 hentry with rfl | rfl
      · exact own_not_imported (Or.inl rfl) himported
      · exact own_not_imported (Or.inr rfl) himported
    · obtain ⟨object, hobject, hmem⟩ := List.mem_flatMap.1 hentry
      have hname : entry.2 = object.name.toList := by
        rcases List.mem_pair.1 hmem with rfl | rfl
        · rfl
        · rfl
      rw [hname] at himported
      exact hnamed.free object (mem_sorted.1 hobject) (mem_claimed.2 (Or.inr (Or.inr himported)))

/-- **Names are carried as names exactly where they are well chosen.**  For two schemas as a server sends them, each
module carries its names and the modules are equal only if the schemas are, but for the order of structs; or not all
of their names are well chosen. -/
theorem carries_iff (h : Held schema) (h' : Held schema') :
    Carries unicode schema ∧ Carries unicode schema' ∧
      (module schema = module schema' → schema.version = schema'.version ∧ schema.structs.Perm schema'.structs) ↔
    WellNamed unicode schema ∧ WellNamed unicode schema' := by
  constructor
  · rintro ⟨hcarries, hcarries', -⟩
    exact ⟨hcarries.wellNamed h, hcarries'.wellNamed h'⟩
  · rintro ⟨hnamed, hnamed'⟩
    refine ⟨hnamed.carries h, hnamed'.carries h', fun heq => template_inj h h' ?_⟩
    have hlexed := (hnamed.carries h).lexed
    rw [heq, (hnamed'.carries h').lexed] at hlexed
    exact (Option.some.inj hlexed).symm

namespace Sample

def declared (structName : ObjectTypeName) : DefView :=
  DefView.empty.setField structName ⟨structName, ∅⟩ "name" (some ⟨"name", .string, 7, .source, 1⟩)

theorem folded_declared (structName : ObjectTypeName) : (declared structName).Folded :=
  ⟨[(1, .declareField structName "name" .string 7 .source)], List.pairwise_singleton _ _, rfl⟩

theorem structs_declared (structName : ObjectTypeName) : (schemaDef 1 (declared structName)).structs =
    [⟨structName, [⟨"name", "String", none, 7, "L1"⟩]⟩] := by
  rfl

/-- What two repos push: a struct that refers to another, with a member that is quoted and one that a producer
derives. -/
def pushed : List (LayerId × DefEvent) :=
  [(2, .declareField "Company" "name" .string 7 .source),
    (2, .declareField "Company" "ceo" (.object "Person") 7 .source),
    (2, .declareField "Company" "founded in" .int 7 .source),
    (2, .declareField "Company" "label" .string 7 (.derived 12)), (2, .declareField "Person" "name" .string 8 .source)]

def view (stream : List (LayerId × DefEvent)) : DefView :=
  (DefView.foldEvents stream .empty).toOption.getD .empty

theorem folded_view : (view pushed).Folded :=
  ⟨pushed, by decide, by rfl⟩

/-- The same declarations, made in the other order. -/
theorem folded_view_reverse : (view pushed.reverse).Folded :=
  ⟨pushed.reverse, by decide, by rfl⟩

/-- The schema, as both views are sent. -/
def company : SchemaDef :=
  ⟨"L2", [⟨"Company", [⟨"ceo", "Person", none, 7, "L2"⟩, ⟨"founded in", "Int", none, 7, "L2"⟩,
      ⟨"label", "String", some "P12", 7, "L2"⟩, ⟨"name", "String", none, 7, "L2"⟩]⟩,
    ⟨"Person", [⟨"name", "String", none, 8, "L2"⟩]⟩]⟩

theorem schemaDef_view : schemaDef 2 (view pushed) = company :=
  congrArg₂ SchemaDef.mk (by decide) (by decide +kernel)

theorem schemaDef_view_reverse : schemaDef 2 (view pushed.reverse) = company :=
  congrArg₂ SchemaDef.mk (by decide) (by decide +kernel)

theorem wellNamed_company : WellNamed .ascii company where
  identifiers := by decide +kernel
  free := by decide +kernel
  unbroken := by
    have hchars : ∀ object ∈ company.structs, ∀ field ∈ object.fields,
        (field.name.toList ++ field.ty.toList).all (fun c => c != '\n' && c != '\r') = true := by decide +kernel
    intro object hobject field hfield
    have hall := hchars object hobject field hfield
    rw [List.all_append, Bool.and_eq_true] at hall
    exact ⟨unbroken_of_all hall.1, unbroken_of_all hall.2⟩
  unclosed := by decide +kernel

/-- Both modules carry their names, whichever declaration was made first, and are equal as their schemas are. -/
theorem carries_iff_company :
    Carries .ascii (schemaDef 2 (view pushed)) ∧ Carries .ascii (schemaDef 2 (view pushed.reverse)) ∧
      (module (schemaDef 2 (view pushed)) = module (schemaDef 2 (view pushed.reverse)) →
        (schemaDef 2 (view pushed)).version = (schemaDef 2 (view pushed.reverse)).version ∧
        (schemaDef 2 (view pushed)).structs.Perm (schemaDef 2 (view pushed.reverse)).structs) :=
  (carries_iff (held_schemaDef folded_view 2) (held_schemaDef folded_view_reverse 2)).2
    ⟨schemaDef_view ▸ wellNamed_company, schemaDef_view_reverse ▸ wellNamed_company⟩

/-- **A struct may be named by no name.**  A push declares a field of `Company Ltd`, and the module does not lex into
its template. -/
theorem not_carries :
    ¬ ∀ (unicode : Unicode) (view : DefView) (version : LayerId), view.Folded →
      Carries unicode (schemaDef version view) := by
  intro hall
  have hnamed := (hall .ascii _ 1 (folded_declared "Company Ltd")).wellNamed
    (held_schemaDef (folded_declared "Company Ltd") 1)
  have hobject : (⟨"Company Ltd", [⟨"name", "String", none, 7, "L1"⟩]⟩ : StructDef) ∈
      (schemaDef 1 (declared "Company Ltd")).structs := by
    rw [structs_declared]
    exact List.mem_singleton_self _
  exact absurd (hnamed.identifiers _ hobject).1 (by decide)

end Sample

end Generate

end BorgCore
