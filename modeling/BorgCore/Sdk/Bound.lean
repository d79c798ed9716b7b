import BorgCore.Lib.Bindings
import BorgCore.Sdk.Heading

/-!
# What a generated module binds

The declarations and the imports of the template, as a reader of its tokens finds them: whatever its fields are called,
a module declares its version, its connection and both halves of each struct, and imports what it lists.
-/

namespace BorgCore

namespace Generate

open EcmaScript

variable {name text ty : String} {field : FieldDef} {object : StructDef} {schema : SchemaDef} {values : List String}
  {version : String} {depth : Nat}

/-! ### Names and types -/

theorem wordToken_ne_brace (word : List Char) : wordToken word ≠ leftBrace ∧ wordToken word ≠ rightBrace := by
  unfold wordToken
  split
  · exact ⟨nofun, nofun⟩
  · exact ⟨nofun, nofun⟩

theorem memberToken_ne_brace (name : String) : memberToken name ≠ leftBrace ∧ memberToken name ≠ rightBrace := by
  unfold memberToken
  split
  · exact wordToken_ne_brace _
  · exact ⟨nofun, nofun⟩

theorem mark_ne_brace (h : text.toList ≠ ['{'] ∧ text.toList ≠ ['}']) :
    mark text ≠ leftBrace ∧ mark text ≠ rightBrace :=
  ⟨fun heq => h.1 (Token.punctuator.inj heq), fun heq => h.2 (Token.punctuator.inj heq)⟩

theorem typeTokens_ne_brace (ty : String) : ∀ token ∈ typeTokens ty, token ≠ leftBrace ∧ token ≠ rightBrace := by
  unfold typeTokens
  split
  · exact List.forall_mem_cons.2 ⟨wordToken_ne_brace _, List.forall_mem_cons.2 ⟨mark_ne_brace (by decide),
      List.forall_mem_cons.2 ⟨⟨nofun, nofun⟩, List.forall_mem_singleton.2 (mark_ne_brace (by decide))⟩⟩⟩
  · exact List.forall_mem_singleton.2 (wordToken_ne_brace _)

theorem ctorTokens_ne_brace (ty : String) : ∀ token ∈ ctorTokens ty, token ≠ leftBrace ∧ token ≠ rightBrace := by
  unfold ctorTokens
  refine List.forall_mem_cons.2 ⟨wordToken_ne_brace _, List.forall_mem_cons.2 ⟨mark_ne_brace (by decide), ?_⟩⟩
  refine List.forall_mem_append.2 ⟨?_, List.forall_mem_singleton.2 (mark_ne_brace (by decide))⟩
  split
  · exact List.forall_mem_singleton.2 ⟨nofun, nofun⟩
  · exact nofun

/-! ### Declarations -/

theorem interfaceTokens_ne_brace (field : FieldDef) :
    ∀ token ∈ interfaceTokens field, token ≠ leftBrace ∧ token ≠ rightBrace := by
  unfold interfaceTokens
  refine List.forall_mem_append.2 ⟨List.forall_mem_append.2 ⟨List.forall_mem_append.2 ⟨List.forall_mem_append.2
    ⟨List.forall_mem_singleton.2 ⟨nofun, nofun⟩, ?_⟩, ?_⟩, typeTokens_ne_brace _⟩, ?_⟩
  · split
    · exact List.forall_mem_singleton.2 (wordToken_ne_brace _)
    · exact nofun
  · exact List.forall_mem_cons.2 ⟨memberToken_ne_brace _, List.forall_mem_singleton.2 (mark_ne_brace (by decide))⟩
  · exact List.forall_mem_cons.2 ⟨mark_ne_brace (by decide), List.forall_mem_cons.2 ⟨wordToken_ne_brace _,
      List.forall_mem_singleton.2 (mark_ne_brace (by decide))⟩⟩

theorem declare_descriptorTokens (field : FieldDef) :
    Transducer.run declareStep ⟨depth + 1, none⟩ (descriptorTokens field) = some (⟨depth + 1, none⟩, []) := by
  have hname : Transducer.run declareStep ⟨depth + 1, none⟩ [memberToken field.name, mark ":"] =
      some (⟨depth + 1, none⟩, []) :=
    declareStep_inside (List.forall_mem_cons.2 ⟨memberToken_ne_brace _,
      List.forall_mem_singleton.2 (mark_ne_brace (by decide))⟩)
  have hopen : Transducer.run declareStep ⟨depth + 1, none⟩ [mark "\x7b"] = some (⟨depth + 2, none⟩, []) := rfl
  have hinside : Transducer.run declareStep ⟨depth + 2, none⟩ ([word "type", mark ":"] ++ ctorTokens field.ty ++
      [mark ",", word "derived", mark ":", word (if field.derivedBy.isSome then "true" else "false"), mark ",",
        word "version", mark ":", plainToken field.version]) = some (⟨depth + 2, none⟩, []) := by
    refine declareStep_inside (List.forall_mem_append.2 ⟨List.forall_mem_append.2 ⟨?_, ctorTokens_ne_brace _⟩, ?_⟩)
    · exact List.forall_mem_cons.2 ⟨wordToken_ne_brace _, List.forall_mem_singleton.2 (mark_ne_brace (by decide))⟩
    · simp only [List.forall_mem_cons, List.not_mem_nil, false_implies, implies_true, and_true]
      exact ⟨mark_ne_brace (by decide), wordToken_ne_brace _, mark_ne_brace (by decide), wordToken_ne_brace _,
        mark_ne_brace (by decide), wordToken_ne_brace _, mark_ne_brace (by decide), ⟨nofun, nofun⟩⟩
  have hclosed : Transducer.run declareStep ⟨depth + 2, none⟩ [mark "\x7d", mark ","] =
      some (⟨depth + 1, none⟩, []) := rfl
  have hread := Transducer.run_append hname (Transducer.run_append hopen (Transducer.run_append hinside hclosed))
  simp only [descriptorTokens, List.append_assoc, List.cons_append, List.nil_append] at hread ⊢
  exact hread

/-- A struct declares its interface, and the constant of the same name. -/
theorem declare_structTokens (object : StructDef) :
    Transducer.run declareStep ⟨0, none⟩ (structTokens object) =
      some (⟨0, none⟩, [(.type, object.name.toList), (.value, object.name.toList)]) := by
  have hcomment (text : String) : Transducer.run declareStep ⟨0, none⟩ [line text] = some (⟨0, none⟩, []) := rfl
  have hblock (text : String) : Transducer.run declareStep ⟨0, none⟩ [block text] = some (⟨0, none⟩, []) := rfl
  have hinterface : Transducer.run declareStep ⟨0, none⟩ [word "export", word "interface"] =
      some (⟨0, some .type⟩, []) := by decide
  have hconst : Transducer.run declareStep ⟨0, none⟩ [word "export", word "const"] =
      some (⟨0, some .value⟩, []) := by decide
  have hname (space : Space) : Transducer.run declareStep ⟨0, some space⟩ [nameToken object.name] =
      some (⟨0, none⟩, [(space, object.name.toList)]) := rfl
  have hopen : Transducer.run declareStep ⟨0, none⟩ [mark "\x7b"] = some (⟨1, none⟩, []) := rfl
  have hclose : Transducer.run declareStep ⟨1, none⟩ [mark "\x7d"] = some (⟨0, none⟩, []) := rfl
  have hfields : Transducer.run declareStep ⟨1, none⟩ (object.fields.flatMap interfaceTokens) =
      some (⟨1, none⟩, []) := by
    refine declareStep_inside fun token htoken => ?_
    obtain ⟨field, -, hmem⟩ := List.mem_flatMap.1 htoken
    exact interfaceTokens_ne_brace field token hmem
  have htype : Transducer.run declareStep ⟨0, none⟩ [mark ":", word "StructDescriptor", mark "<"] =
      some (⟨0, none⟩, []) := by decide
  have hbrand : Transducer.run declareStep ⟨0, none⟩ [nameToken object.name, mark ",", quotedToken object.name] =
      some (⟨0, none⟩, []) := rfl
  have hdefine : Transducer.run declareStep ⟨0, none⟩ [mark ">", mark "=", word "defineStruct", mark "("] =
      some (⟨0, none⟩, []) := by decide
  have hplain : Transducer.run declareStep ⟨0, none⟩ [plainToken object.name, mark ","] = some (⟨0, none⟩, []) := rfl
  have hdescriptor : Transducer.run declareStep ⟨1, none⟩ (object.fields.flatMap descriptorTokens) =
      some (⟨1, none⟩, []) := by
    induction object.fields with
    | nil => rfl
    | cons field rest ih => exact Transducer.run_append (declare_descriptorTokens field) ih
  have hend : Transducer.run declareStep ⟨0, none⟩ [mark ")", mark ";"] = some (⟨0, none⟩, []) := rfl
  have hfirst := Transducer.run_append (hcomment (" ── " ++ object.name ++ " " ++ rule object.name))
    (Transducer.run_append hinterface (Transducer.run_append (hname .type) (Transducer.run_append hopen
      (Transducer.run_append hfields hclose))))
  have hsecond := Transducer.run_append (hblock ("* The runtime half of \x7b@link " ++ object.name ++
      "\x7d: what `tx.object(" ++ object.name ++ ", id)` converts values with. "))
    (Transducer.run_append hconst (Transducer.run_append (hname .value) (Transducer.run_append htype
      (Transducer.run_append hbrand (Transducer.run_append hdefine (Transducer.run_append hplain
        (Transducer.run_append hopen (Transducer.run_append hdescriptor (Transducer.run_append hclose hend)))))))))
  have hread := Transducer.run_append hfirst hsecond
  simp only [structTokens, List.append_assoc, List.cons_append, List.nil_append, List.append_nil] at hread ⊢
  exact hread

theorem declare_headerTokens (version : String) :
    Transducer.run declareStep ⟨0, none⟩ (headerTokens version) = some (⟨0, none⟩, []) := rfl

theorem declare_importTokens (values : List String) (reference : Bool) :
    Transducer.run declareStep ⟨0, none⟩ (importTokens values reference) = some (⟨0, none⟩, []) := by
  have hopen : Transducer.run declareStep ⟨0, none⟩ [word "import", mark "\x7b", word "createBorgContext", word "as",
      word "connect", mark ",", word "defineStruct", mark ","] = some (⟨1, none⟩, []) := by decide
  have hvalues : Transducer.run declareStep ⟨1, none⟩ (values.flatMap fun value => [word value, mark ","]) =
      some (⟨1, none⟩, []) := by
    refine declareStep_inside fun token htoken => ?_
    obtain ⟨value, -, hmem⟩ := List.mem_flatMap.1 htoken
    rcases List.mem_pair.1 hmem with rfl | rfl
    · exact wordToken_ne_brace _
    · exact mark_ne_brace (by decide)
  have htypes : Transducer.run declareStep ⟨1, none⟩ [word "type", word "BorgContext", mark ",", word "type",
      word "BorgContextOptions", mark ","] = some (⟨1, none⟩, []) := by decide
  have hreference : Transducer.run declareStep ⟨1, none⟩
      (if reference then [word "type", word "Ref", mark ","] else []) =
      some (⟨1, none⟩, []) := by
    cases reference <;> decide
  have hlast : Transducer.run declareStep ⟨1, none⟩ [word "type", word "StructDescriptor", mark ",", mark "\x7d",
      word "from", plainToken "borg-sdk/client", mark ";"] = some (⟨0, none⟩, []) := by decide
  exact Transducer.run_append (Transducer.run_append (Transducer.run_append (Transducer.run_append hopen
    hvalues) htypes)
    hreference) hlast

theorem declare_preambleTokens (version : String) :
    Transducer.run declareStep ⟨0, none⟩ (preambleTokens version) =
      some (⟨0, none⟩, [(.value, "CLIENT_VERSION".toList), (.value, "createBorgContext".toList)]) := by
  have hblock (text : String) : Transducer.run declareStep ⟨0, none⟩ [block text] = some (⟨0, none⟩, []) := rfl
  have hversion : Transducer.run declareStep ⟨0, none⟩ [word "export", word "const", word "CLIENT_VERSION", mark "="] =
      some (⟨0, none⟩, [(.value, "CLIENT_VERSION".toList)]) := by decide
  have hplain : Transducer.run declareStep ⟨0, none⟩ [plainToken version, mark ";"] = some (⟨0, none⟩, []) := rfl
  have hconnect : Transducer.run declareStep ⟨0, none⟩ [word "export", word "function", word "createBorgContext",
      mark "(", word "options", mark ":", word "Omit", mark "<", word "BorgContextOptions", mark ",",
      plainToken "clientVersion", mark ">", mark ",", mark ")", mark ":", word "Promise", mark "<", word "BorgContext",
      mark ">", mark "\x7b", word "return", word "connect", mark "(", mark "\x7b", mark "...", word "options", mark ",",
      word "clientVersion", mark ":", word "CLIENT_VERSION", mark "\x7d", mark ")", mark ";", mark "\x7d"] =
      some (⟨0, none⟩, [(.value, "createBorgContext".toList)]) := by decide
  have hread (first second : String) := Transducer.run_append (hblock first) (Transducer.run_append hversion
    (Transducer.run_append hplain (Transducer.run_append (hblock second) hconnect)))
  exact hread _ _

/-- **What a module declares.** -/
theorem declarations_template (schema : SchemaDef) :
    declarations (template schema) = [(.value, "CLIENT_VERSION".toList), (.value, "createBorgContext".toList)] ++
      (sorted schema).flatMap fun object => [(.type, object.name.toList), (.value, object.name.toList)] := by
  have hstructs : Transducer.run declareStep ⟨0, none⟩ ((sorted schema).flatMap structTokens) = some (⟨0, none⟩,
      (sorted schema).flatMap fun object => [(.type, object.name.toList), (.value, object.name.toList)]) := by
    induction sorted schema with
    | nil => rfl
    | cons object rest ih => exact Transducer.run_append (declare_structTokens object) ih
  exact declarations_eq (Transducer.run_append (Transducer.run_append (Transducer.run_append
    (declare_headerTokens _) (declare_importTokens _ _)) (declare_preambleTokens _)) hstructs)

/-! ### Imports -/

theorem import_member (name : String) :
    Transducer.run importStep .outside [memberToken name, mark ":"] = some (.outside, []) := by
  cases hmember : memberToken name with
  | keyword word =>
    by_cases hword : word = importing
    · have hfirst : importStep .outside (.keyword word) = some (.opening, []) := by
        simp only [importStep, if_pos hword]
      exact Transducer.run_cons hfirst rfl
    · have hfirst : importStep .outside (.keyword word) = some (.outside, []) := by
        simp only [importStep, if_neg hword]
      exact Transducer.run_cons hfirst rfl
  | _ => rfl

theorem word_ne_import (h : text.toList ≠ importing) : word text ≠ .keyword importing := by
  unfold word wordToken
  split
  · exact fun heq => h (Token.keyword.inj heq)
  · exact nofun

theorem mapType_ne_import (ty : String) :
    ((mapType ty).reference = false → (mapType ty).ts.toList ≠ importing) ∧
      (mapType ty).imported.toList ≠ importing := by
  have hprimitives : ∀ entry ∈ primitives, entry.1.toList ≠ importing ∧ entry.2.toList ≠ importing := by
    decide
  rcases mapType_eq ty with ⟨-, -, hprimitive⟩ | hmapped
  · exact ⟨fun _ => (hprimitives _ hprimitive).1, (hprimitives _ hprimitive).2⟩
  · rw [hmapped]
    exact ⟨nofun, (by decide : "refText".toList ≠ importing)⟩

theorem import_typeTokens (ty : String) :
    Transducer.run importStep .outside (typeTokens ty) = some (.outside, []) := by
  refine importStep_outside ?_
  unfold typeTokens
  split
  · exact List.forall_mem_cons.2 ⟨word_ne_import (by decide), List.forall_mem_cons.2 ⟨nofun,
      List.forall_mem_cons.2 ⟨nofun, List.forall_mem_singleton.2 nofun⟩⟩⟩
  · rename_i hreference
    exact List.forall_mem_singleton.2 (word_ne_import ((mapType_ne_import ty).1 (Bool.not_eq_true _ ▸ hreference)))

theorem import_ctorTokens (ty : String) :
    Transducer.run importStep .outside (ctorTokens ty) = some (.outside, []) := by
  refine importStep_outside ?_
  unfold ctorTokens
  refine List.forall_mem_cons.2 ⟨word_ne_import (mapType_ne_import ty).2, List.forall_mem_cons.2 ⟨nofun, ?_⟩⟩
  refine List.forall_mem_append.2 ⟨?_, List.forall_mem_singleton.2 nofun⟩
  split
  · exact List.forall_mem_singleton.2 nofun
  · exact nofun

theorem import_interfaceTokens (field : FieldDef) :
    Transducer.run importStep .outside (interfaceTokens field) = some (.outside, []) := by
  have hblock (text : String) : Transducer.run importStep .outside [block text] = some (.outside, []) := rfl
  have hmodifier : Transducer.run importStep .outside (if field.derivedBy.isSome then [word "readonly"] else []) =
      some (.outside, []) := by
    split
    · decide
    · rfl
  have hnull : Transducer.run importStep .outside [mark "|", word "null", mark ";"] = some (.outside, []) := by
    decide
  exact Transducer.run_append (Transducer.run_append (Transducer.run_append (Transducer.run_append
    (hblock ("* " ++ describeField field ++ " ")) hmodifier) (import_member field.name))
      (import_typeTokens field.ty)) hnull

theorem import_descriptorTokens (field : FieldDef) :
    Transducer.run importStep .outside (descriptorTokens field) = some (.outside, []) := by
  have htype : Transducer.run importStep .outside [mark "\x7b", word "type", mark ":"] = some (.outside, []) := by
    decide
  have hderived : Transducer.run importStep .outside [mark ",", word "derived", mark ":"] = some (.outside, []) := by
    decide
  have hflag : Transducer.run importStep .outside [word (if field.derivedBy.isSome then "true" else "false")] =
      some (.outside, []) := by
    split
    · decide
    · decide
  have hversion : Transducer.run importStep .outside [mark ",", word "version", mark ":"] = some (.outside, []) := by
    decide
  have hend : Transducer.run importStep .outside [plainToken field.version, mark "\x7d", mark ","] =
      some (.outside, []) := rfl
  have hread := Transducer.run_append (import_member field.name) (Transducer.run_append htype (Transducer.run_append
    (import_ctorTokens field.ty) (Transducer.run_append hderived (Transducer.run_append hflag
      (Transducer.run_append hversion hend)))))
  simp only [descriptorTokens, List.cons_append, List.nil_append] at hread ⊢
  exact hread

/-- What every part imports nothing of, their list does not. -/
theorem import_flatMap {α : Type} {f : α → List Token} {xs : List α}
    (h : ∀ a ∈ xs, Transducer.run importStep .outside (f a) = some (.outside, [])) :
    Transducer.run importStep .outside (xs.flatMap f) = some (.outside, []) := by
  induction xs with
  | nil => rfl
  | cons a rest ih =>
    obtain ⟨ha, hrest⟩ := List.forall_mem_cons.1 h
    exact Transducer.run_append ha (ih hrest)

theorem import_structTokens (object : StructDef) :
    Transducer.run importStep .outside (structTokens object) = some (.outside, []) := by
  have hcomment (text : String) : Transducer.run importStep .outside [line text] = some (.outside, []) := rfl
  have hblock (text : String) : Transducer.run importStep .outside [block text] = some (.outside, []) := rfl
  have hinterface : Transducer.run importStep .outside [word "export", word "interface"] = some (.outside, []) := by
    decide
  have hconst : Transducer.run importStep .outside [word "export", word "const"] = some (.outside, []) := by
    decide
  have hname : Transducer.run importStep .outside [nameToken object.name] = some (.outside, []) := rfl
  have hopen : Transducer.run importStep .outside [mark "\x7b"] = some (.outside, []) := rfl
  have hclose : Transducer.run importStep .outside [mark "\x7d"] = some (.outside, []) := rfl
  have htype : Transducer.run importStep .outside [mark ":", word "StructDescriptor", mark "<"] =
      some (.outside, []) := by decide
  have hbrand : Transducer.run importStep .outside [nameToken object.name, mark ",", quotedToken object.name] =
      some (.outside, []) := rfl
  have hdefine : Transducer.run importStep .outside [mark ">", mark "=", word "defineStruct", mark "("] =
      some (.outside, []) := by decide
  have hplain : Transducer.run importStep .outside [plainToken object.name, mark ",", mark "\x7b"] =
      some (.outside, []) := rfl
  have hend : Transducer.run importStep .outside [mark "\x7d", mark ")", mark ";"] = some (.outside, []) := rfl
  have hinterfaces := @import_flatMap _ interfaceTokens object.fields fun field _ => import_interfaceTokens field
  have hdescriptors := @import_flatMap _ descriptorTokens object.fields fun field _ => import_descriptorTokens field
  have hfirst := Transducer.run_append (hcomment (" ── " ++ object.name ++ " " ++ rule object.name))
    (Transducer.run_append hinterface (Transducer.run_append hname (Transducer.run_append hopen
      (Transducer.run_append hinterfaces hclose))))
  have hsecond := Transducer.run_append (hblock ("* The runtime half of \x7b@link " ++ object.name ++
      "\x7d: what `tx.object(" ++ object.name ++ ", id)` converts values with. "))
    (Transducer.run_append hconst (Transducer.run_append hname (Transducer.run_append htype
      (Transducer.run_append hbrand (Transducer.run_append hdefine (Transducer.run_append hplain
        (Transducer.run_append hdescriptors hend)))))))
  have hread := Transducer.run_append hfirst hsecond
  simp only [structTokens, List.append_assoc, List.cons_append, List.nil_append] at hread ⊢
  exact hread

theorem import_value (value : String) :
    Transducer.run importStep (.entry none) [word value, mark ","] = some (.entry none, [value.toList]) := by
  unfold word wordToken
  split
  · rfl
  · rfl

theorem import_importTokens (values : List String) (reference : Bool) :
    Transducer.run importStep .outside (importTokens values reference) = some (.outside,
      ["connect".toList, "defineStruct".toList] ++ values.map String.toList ++
        ["BorgContext".toList, "BorgContextOptions".toList] ++ (if reference then ["Ref".toList] else []) ++
        ["StructDescriptor".toList]) := by
  have hopen : Transducer.run importStep .outside [word "import", mark "\x7b", word "createBorgContext", word "as",
      word "connect", mark ",", word "defineStruct", mark ","] =
      some (.entry none, ["connect".toList, "defineStruct".toList]) := by decide
  have hvalues : Transducer.run importStep (.entry none) (values.flatMap fun value => [word value, mark ","]) =
      some (.entry none, values.map String.toList) := by
    induction values with
    | nil => rfl
    | cons value rest ih => exact Transducer.run_append (import_value value) ih
  have htypes : Transducer.run importStep (.entry none) [word "type", word "BorgContext", mark ",", word "type",
      word "BorgContextOptions", mark ","] =
        some (.entry none, ["BorgContext".toList, "BorgContextOptions".toList]) := by
    decide
  have hreference : Transducer.run importStep (.entry none)
      (if reference then [word "type", word "Ref", mark ","] else []) =
      some (.entry none, if reference then ["Ref".toList] else []) := by
    cases reference <;> decide
  have hlast : Transducer.run importStep (.entry none) [word "type", word "StructDescriptor", mark ",", mark "\x7d",
      word "from", plainToken "borg-sdk/client", mark ";"] = some (.outside, ["StructDescriptor".toList]) := by
    decide
  exact Transducer.run_append (Transducer.run_append (Transducer.run_append (Transducer.run_append hopen
    hvalues) htypes)
    hreference) hlast

theorem import_preambleTokens (version : String) :
    Transducer.run importStep .outside (preambleTokens version) = some (.outside, []) := by
  have hblock (text : String) : Transducer.run importStep .outside [block text] = some (.outside, []) := rfl
  have hversion : Transducer.run importStep .outside [word "export", word "const", word "CLIENT_VERSION", mark "="] =
      some (.outside, []) := by decide
  have hplain : Transducer.run importStep .outside [plainToken version, mark ";"] = some (.outside, []) := rfl
  have hconnect : Transducer.run importStep .outside [word "export", word "function", word "createBorgContext",
      mark "(", word "options", mark ":", word "Omit", mark "<", word "BorgContextOptions", mark ",",
      plainToken "clientVersion", mark ">", mark ",", mark ")", mark ":", word "Promise", mark "<", word "BorgContext",
      mark ">", mark "\x7b", word "return", word "connect", mark "(", mark "\x7b", mark "...", word "options", mark ",",
      word "clientVersion", mark ":", word "CLIENT_VERSION", mark "\x7d", mark ")", mark ";", mark "\x7d"] =
      some (.outside, []) := by decide
  have hread (first second : String) := Transducer.run_append (hblock first) (Transducer.run_append hversion
    (Transducer.run_append hplain (Transducer.run_append (hblock second) hconnect)))
  exact hread _ _

/-- **What a module imports.** -/
theorem imported_template (schema : SchemaDef) : imported (template schema) =
    ["connect".toList, "defineStruct".toList] ++ (importedValues (sorted schema)).map String.toList ++
      ["BorgContext".toList, "BorgContextOptions".toList] ++
      (if anyReference (sorted schema) then ["Ref".toList] else []) ++ ["StructDescriptor".toList] := by
  have hheader : Transducer.run importStep .outside (headerTokens schema.version) = some (.outside, []) := rfl
  have hread := Transducer.run_append (Transducer.run_append (Transducer.run_append hheader
    (import_importTokens (importedValues (sorted schema)) (anyReference (sorted schema))))
    (import_preambleTokens schema.version))
    (@import_flatMap _ structTokens (sorted schema) fun object _ => import_structTokens object)
  rw [List.nil_append, List.append_nil, List.append_nil] at hread
  exact imported_eq hread

end Generate

end BorgCore
