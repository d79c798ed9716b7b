import Mathlib.Data.List.Dedup
import BorgCore.Sdk.Lexed

/-!
# Before the structs

The fixed parts of a generated module, and the whole of it: where the names of a schema are well chosen, its module
is read into the tokens of the template.
-/

namespace BorgCore

namespace Generate

open EcmaScript

variable {unicode : Unicode} {version : String} {schema : SchemaDef} {values : List String}

/-! ### The header -/

set_option maxRecDepth 4000 in
theorem reads_header (h : Wordy unicode version) :
    Reads unicode .code (header version) .code (headerTokens version) := by
  have hfirst : Reads unicode .code "// Generated by `borg generate --lang ts`. Do not edit — regenerate.
//
// **This module is pinned to a schema.** `" (.line " **This module is pinned to a schema.** `".toList)
      [line " Generated by `borg generate --lang ts`. Do not edit — regenerate.", line ""] := by
    unfold line
    rw [Reads]
    repeat rw [String.toList_ofList]
    exact Lexes.plain (by decide)
  have hrest : Reads unicode (.line []) "` is the branch's def-version at the moment it
// was generated, and `createBorgContext` sends it as this client's ClientVersion on every connection
// (SPEC.md §5.4, SDK-DRAFT §2.4). The pin is what makes *not* regenerating a supported state rather
// than a broken one: values written in a newer shape reach this code through `down` migrations, and
// what it writes is stored in the shape it knows. Regenerating is how you adopt a new schema, and it
// is a decision rather than an obligation.
//
// Every field is nullable. A cell that was never written and a tombstoned one both read as `null`
// (§8.1), and no declaration can promise otherwise.\n\n" .code
      [line "` is the branch's def-version at the moment it",
        line " was generated, and `createBorgContext` sends it as this client's ClientVersion on every connection",
        line " (SPEC.md §5.4, SDK-DRAFT §2.4). The pin is what makes *not* regenerating a supported state rather",
        line " than a broken one: values written in a newer shape reach this code through `down` migrations, and",
        line " what it writes is stored in the shape it knows. Regenerating is how you adopt a new schema, and it",
        line " is a decision rather than an obligation.",
        line "",
        line " Every field is nullable. A cell that was never written and a tombstoned one both read as `null`",
        line " (§8.1), and no declaration can promise otherwise."] := by
    unfold line
    rw [Reads]
    repeat rw [String.toList_ofList]
    exact Lexes.plain (by decide)
  have hunbroken : ∀ c ∈ version.toList, isLineTerminator c = false := fun c hc =>
    isLineTerminator_of_isIdContinue (h c hc)
  exact hfirst.line_through hunbroken hrest

/-! ### The preamble -/

set_option maxRecDepth 4000 in
theorem reads_clientVersion (h : Wordy unicode version) :
    Reads unicode .code ("/** The def-layer this module was generated from — its ClientVersion (SPEC.md §5.4). */
export const CLIENT_VERSION = \"" ++ version ++ "\";\n\n") .code
      [block "* The def-layer this module was generated from — its ClientVersion (SPEC.md §5.4). ",
        word "export", word "const", word "CLIENT_VERSION", mark "=", plainToken version, mark ";"] := by
  have hfirst : Reads unicode .code "/** The def-layer this module was generated from — its ClientVersion (SPEC.md §5.4). */
export const CLIENT_VERSION = \"" (.string '"' [])
      [block "* The def-layer this module was generated from — its ClientVersion (SPEC.md §5.4). ",
        word "export", word "const", word "CLIENT_VERSION", mark "="] := by
    unfold block word mark
    rw [Reads]
    repeat rw [String.toList_ofList]
    exact Lexes.plain (by decide)
  have hrest : Reads unicode .code ";\n\n" .code [mark ";"] := by
    unfold mark
    rw [Reads]
    repeat rw [String.toList_ofList]
    exact Lexes.plain (by decide)
  have hquote : "\";\n\n" = "\"" ++ ";\n\n" := by decide
  rw [hquote, String.append_assoc]
  exact hfirst.append (reads_plain h hrest)

set_option maxRecDepth 4000 in
theorem reads_createBorgContext (h : Wordy unicode version) :
    Reads unicode .code ("/**
 * Connect to a `borg-server`, as a client authored against `" ++ version ++ "`.
 *
 * ```ts
 * const bc = await createBorgContext(\x7b url: \"borg://localhost/<registry>\" \x7d);
 * ```
 *
 * Every option the SDK's own `createBorgContext` takes except the version, which is not an option
 * here: generation decided it. `$BORG_URL` is read when neither `url` nor `socket` is given.
 */
export function createBorgContext(
  options: Omit<BorgContextOptions, \"clientVersion\">,
): Promise<BorgContext> \x7b
  return connect(\x7b ...options, clientVersion: CLIENT_VERSION \x7d);
\x7d\n") .code
      [block ("*
 * Connect to a `borg-server`, as a client authored against `" ++ version ++ "`.
 *
 * ```ts
 * const bc = await createBorgContext(\x7b url: \"borg://localhost/<registry>\" \x7d);
 * ```
 *
 * Every option the SDK's own `createBorgContext` takes except the version, which is not an option
 * here: generation decided it. `$BORG_URL` is read when neither `url` nor `socket` is given.
 "),
        word "export", word "function", word "createBorgContext", mark "(", word "options", mark ":", word "Omit",
          mark "<",
        word "BorgContextOptions", mark ",", plainToken "clientVersion", mark ">", mark ",", mark ")", mark ":",
        word "Promise", mark "<", word "BorgContext", mark ">", mark "\x7b", word "return", word "connect", mark "(",
        mark "\x7b", mark "...", word "options", mark ",", word "clientVersion", mark ":", word "CLIENT_VERSION",
        mark "\x7d", mark ")", mark ";", mark "\x7d"] := by
  have hfirst : Reads unicode .code "/**
 * Connect to a `borg-server`, as a client authored against `"
      (.block "*\n * Connect to a `borg-server`, as a client authored against `".toList) [] := by
    rw [Reads]
    repeat rw [String.toList_ofList]
    exact Lexes.plain (by decide)
  have hrest : Reads unicode (.block []) "`.
 *
 * ```ts
 * const bc = await createBorgContext(\x7b url: \"borg://localhost/<registry>\" \x7d);
 * ```
 *
 * Every option the SDK's own `createBorgContext` takes except the version, which is not an option
 * here: generation decided it. `$BORG_URL` is read when neither `url` nor `socket` is given.
 */
export function createBorgContext(
  options: Omit<BorgContextOptions, \"clientVersion\">,
): Promise<BorgContext> \x7b
  return connect(\x7b ...options, clientVersion: CLIENT_VERSION \x7d);
\x7d\n" .code
      [block "`.
 *
 * ```ts
 * const bc = await createBorgContext(\x7b url: \"borg://localhost/<registry>\" \x7d);
 * ```
 *
 * Every option the SDK's own `createBorgContext` takes except the version, which is not an option
 * here: generation decided it. `$BORG_URL` is read when neither `url` nor `socket` is given.
 ",
        word "export", word "function", word "createBorgContext", mark "(", word "options", mark ":", word "Omit",
          mark "<",
        word "BorgContextOptions", mark ",", plainToken "clientVersion", mark ">", mark ",", mark ")", mark ":",
        word "Promise", mark "<", word "BorgContext", mark ">", mark "\x7b", word "return", word "connect", mark "(",
        mark "\x7b", mark "...", word "options", mark ",", word "clientVersion", mark ":", word "CLIENT_VERSION",
        mark "\x7d", mark ")", mark ";", mark "\x7d"] := by
    unfold block word mark plainToken
    rw [Reads]
    repeat rw [String.toList_ofList]
    exact Lexes.plain (by decide)
  exact hfirst.block_through (h.not_mem (by decide) (by decide)) hrest

theorem reads_preamble (h : Wordy unicode version) :
    Reads unicode .code (preamble version) .code (preambleTokens version) := by
  have hread := (reads_clientVersion h).append (reads_createBorgContext h)
  have hmiddle : "\";\n\n/**\n * Connect to a `borg-server`, as a client authored against `" =
      "\";\n\n" ++ "/**\n * Connect to a `borg-server`, as a client authored against `" := by decide
  delta preamble
  rw [hmiddle]
  simp only [String.append_assoc, preambleTokens, List.cons_append, List.nil_append] at hread ⊢
  exact hread

/-! ### The imports -/

/-- Lines that are put together with the ends of lines between them, and one more after them. -/
theorem intercalate_newline {lines : List String} (hne : lines ≠ []) (rest : String) :
    "\n".intercalate lines ++ ("\n" ++ rest) = String.join (lines.map (· ++ "\n")) ++ rest := by
  rw [← String.append_assoc]
  refine congrArg (· ++ rest) (String.toList_injective ?_)
  rw [String.toList_append, String.toList_intercalate, String.toList_join, List.flatMap_map]
  induction lines with
  | nil => exact absurd rfl hne
  | cons first rest ih =>
    cases rest with
    | nil => simp
    | cons second others =>
      have htail := ih (List.cons_ne_nil _ _)
      rw [List.flatMap_cons, ← htail]
      simp [List.intercalate]

theorem imports_eq (values : List String) (reference : Bool) : imports values reference = "import \x7b\n" ++
    ("  createBorgContext as connect,\n  defineStruct,\n" ++
      (String.join (values.map fun value => "  " ++ (value ++ ",\n")) ++
        ("  type BorgContext,\n  type BorgContextOptions,\n" ++ ((if reference then "  type Ref,\n" else "") ++
          "  type StructDescriptor,\n\x7d from \"borg-sdk/client\";\n\n")))) := by
  have hend : "\n\x7d from \"borg-sdk/client\";\n\n" = "\n" ++ "\x7d from \"borg-sdk/client\";\n\n" := by decide
  have hfirst : String.join ((["  createBorgContext as connect,", "  defineStruct,"] : List String).map (· ++ "\n")) =
      "  createBorgContext as connect,\n  defineStruct,\n" := by decide
  have htypes : String.join ((["  type BorgContext,", "  type BorgContextOptions,"] : List String).map (· ++ "\n")) =
      "  type BorgContext,\n  type BorgContextOptions,\n" := by decide
  have hlast : "  type StructDescriptor,\n\x7d from \"borg-sdk/client\";\n\n" =
      String.join ((["  type StructDescriptor,"] : List String).map (· ++ "\n")) ++
        "\x7d from \"borg-sdk/client\";\n\n" := by decide
  have hreference : String.join ((if reference then ["  type Ref,"] else []).map (· ++ "\n")) =
      if reference then "  type Ref,\n" else "" := by
    cases reference <;> decide
  have hvalues : (fun value : String => toString "  " ++ (toString value ++ toString ",") ++ "\n") =
      fun value => "  " ++ (value ++ ",\n") := by
    funext value
    have hcomma : ",\n" = "," ++ "\n" := by decide
    simp only [hcomma, toString, String.append_assoc]
  delta imports
  rw [hend, String.append_assoc, intercalate_newline (by simp)]
  simp only [List.map_append, String.join_append, List.map_map, String.append_assoc]
  rw [hfirst, htypes, hlast, hreference, ← hvalues]
  rfl

theorem isIdentifierName_imported {structs : List StructDef} {value : String} (h : value ∈ importedValues structs) :
    isIdentifierName unicode value.toList = true := by
  rw [importedValues, List.mem_insertionSort, List.mem_dedup, List.mem_flatMap] at h
  obtain ⟨object, -, h⟩ := h
  obtain ⟨field, -, rfl⟩ := List.mem_map.1 h
  rcases mapType_eq field.ty with ⟨-, -, hprimitive⟩ | hmapped
  · exact (isIdentifierName_primitives _ hprimitive).2
  · have himported : (mapType field.ty).imported = "refText" := congrArg Mapped.imported hmapped
    rw [himported]
    exact isIdentifierName_of_ascii (by decide) (by decide)

theorem reads_imports (reference : Bool) (h : ∀ value ∈ values, isIdentifierName unicode value.toList = true) :
    Reads unicode .code (imports values reference) .code (importTokens values reference) := by
  have hopen : Reads unicode .code "import \x7b\n" .code [word "import", mark "\x7b"] := by
    unfold word mark
    rw [Reads]
    repeat rw [String.toList_ofList]
    exact Lexes.plain (by decide)
  have hfirst : Reads unicode .code "  createBorgContext as connect,\n  defineStruct,\n" .code
      [word "createBorgContext", word "as", word "connect", mark ",", word "defineStruct", mark ","] := by
    unfold word mark
    rw [Reads]
    repeat rw [String.toList_ofList]
    exact Lexes.plain (by decide)
  have hspace : Reads unicode .code "  " .code [] := Lexes.plain (by decide)
  have hcomma : Reads unicode .code ",\n" .code [mark ","] := by
    unfold mark
    rw [Reads]
    repeat rw [String.toList_ofList]
    exact Lexes.plain (by decide)
  have hvalues : Reads unicode .code (String.join (values.map fun value => "  " ++ (value ++ ",\n"))) .code
      (values.flatMap fun value => [word value, mark ","]) :=
    Reads.join fun value hvalue =>
      hspace.append (reads_word (h value hvalue) (c := ',') rfl (by decide) (by decide) hcomma)
  have htypes : Reads unicode .code "  type BorgContext,\n  type BorgContextOptions,\n" .code
      [word "type", word "BorgContext", mark ",", word "type", word "BorgContextOptions", mark ","] := by
    unfold word mark
    rw [Reads]
    repeat rw [String.toList_ofList]
    exact Lexes.plain (by decide)
  have hreference : Reads unicode .code (if reference then "  type Ref,\n" else "") .code
      (if reference then [word "type", word "Ref", mark ","] else []) := by
    split
    · unfold word mark
      rw [Reads]
      repeat rw [String.toList_ofList]
      exact Lexes.plain (by decide)
    · rfl
  have hlast : Reads unicode .code "  type StructDescriptor,\n\x7d from \"borg-sdk/client\";\n\n" .code
      [word "type", word "StructDescriptor", mark ",", mark "\x7d", word "from", plainToken "borg-sdk/client",
        mark ";"] := by
    unfold word mark plainToken
    rw [Reads]
    repeat rw [String.toList_ofList]
    exact Lexes.plain (by decide)
  have hread := hopen.append (hfirst.append (hvalues.append (htypes.append (hreference.append hlast))))
  rw [imports_eq, importTokens]
  simp only [List.append_assoc, List.cons_append, List.nil_append] at hread ⊢
  exact hread

/-! ### The module -/

theorem mem_sorted {object : StructDef} : object ∈ sorted schema ↔ object ∈ schema.structs := List.mem_insertionSort _

theorem reads_module (h : Held schema) (hnamed : WellNamed unicode schema) :
    Reads unicode .code (module schema) .code (template schema) := by
  have hstructs : Reads unicode .code (String.join ((sorted schema).map emitStruct)) .code
      ((sorted schema).flatMap structTokens) := by
    refine Reads.join fun object hmem => ?_
    have hobject := mem_sorted.1 hmem
    obtain ⟨hidentifier, hreserved⟩ := hnamed.identifiers object hobject
    refine reads_emitStruct hidentifier hreserved (Reads.join fun field hfield => ?_)
      (Reads.join fun field hfield => ?_)
    · exact reads_interfaceField (h.sent object hobject field hfield) (hnamed.unbroken object hobject field hfield)
        (hnamed.unclosed object hobject field hfield)
    · exact reads_descriptorField (h.sent object hobject field hfield) (hnamed.unbroken object hobject field hfield)
  have hwordy := @Held.wordy_version unicode _ h
  exact (((reads_header hwordy).append (reads_imports (anyReference (sorted schema))
    fun value hvalue => isIdentifierName_imported hvalue)).append (reads_preamble hwordy)).append hstructs

/-- **A module whose names are well chosen lexes into the template.** -/
theorem lex_module (h : Held schema) (hnamed : WellNamed unicode schema) :
    lex unicode (module schema).toList = some (template schema) := lex_of_lexes (reads_module h hnamed)

end Generate

end BorgCore
