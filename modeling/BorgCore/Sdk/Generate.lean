import BorgCore.Core.Literal
import BorgCore.Engine.Defs

/-!
# The generated client

One TypeScript module out of a branch's definitions: an interface and a runtime descriptor for each struct, and
the version the module was generated at.  Names are put into it as they are; the text of a field's type and of a
field's name is quoted where it is no bare name.
-/

namespace BorgCore

namespace Generate

/-- A field, as a schema is sent. -/
structure FieldDef where
  name : String
  ty : String
  /-- The producer that owns this field; `none` is source data. -/
  derivedBy : Option String
  repo : Nat
  version : String
deriving DecidableEq

structure StructDef where
  name : String
  fields : List FieldDef
deriving DecidableEq

structure SchemaDef where
  version : String
  structs : List StructDef
deriving DecidableEq

/-! ### Types -/

/-- What a declared type becomes on the client. -/
structure Mapped where
  /-- The type of its values. -/
  ts : String
  /-- The conversion that produces them. -/
  ctor : String
  /-- The import this needs. -/
  imported : String
  /-- Whether it also needs the type of references. -/
  reference : Bool

/-- Put a text in place of each occurrence of a character. -/
def replace (text : String) (c : Char) (new : List Char) : String :=
  String.ofList (text.toList.flatMap fun other => if other = c then new else [other])

def quoted (text : String) : String :=
  "\"" ++ replace (replace text '\\' ['\\', '\\']) '"' ['\\', '"'] ++ "\""

def mapType (ty : String) : Mapped :=
  let primitive (ts ctor value : String) : Mapped := ⟨ts, ctor, value, false⟩
  if ty = "Int" then primitive "number" "int()" "int"
  else if ty = "Double" then primitive "number" "double()" "double"
  else if ty = "Bool" then primitive "boolean" "bool()" "bool"
  else if ty = "String" then primitive "string" "string()" "string"
  else if ty = "Binary" then primitive "Uint8Array" "binary()" "binary"
  else if ty = "BigInt" then primitive "bigint" "bigint()" "bigint"
  else if ty = "Any" ∨ ty = "AnyObject" ∨ ty = "AnyArray" ∨ ty = "AnyNumber" then
    primitive "string" "untyped()" "untyped"
  -- Everything else names a struct, or a list.
  else ⟨"Ref<" ++ quoted ty ++ ">", "refText(" ++ quoted ty ++ ")", "refText", true⟩

/-! ### The emitter -/

def header (version : String) : String :=
  "// Generated by `borg generate --lang ts`. Do not edit — regenerate.
//
// **This module is pinned to a schema.** `" ++ version ++ "` is the branch's def-version at the moment it
// was generated, and `createBorgContext` sends it as this client's ClientVersion on every connection
// (SPEC.md §5.4, SDK-DRAFT §2.4). The pin is what makes *not* regenerating a supported state rather
// than a broken one: values written in a newer shape reach this code through `down` migrations, and
// what it writes is stored in the shape it knows. Regenerating is how you adopt a new schema, and it
// is a decision rather than an obligation.
//
// Every field is nullable. A cell that was never written and a tombstoned one both read as `null`
// (§8.1), and no declaration can promise otherwise.

"

def imports (values : List String) (reference : Bool) : String :=
  let lines := ["  createBorgContext as connect,", "  defineStruct,"] ++ values.map (fun value => s!"  {value},") ++
    ["  type BorgContext,", "  type BorgContextOptions,"] ++ (if reference then ["  type Ref,"] else []) ++
    ["  type StructDescriptor,"]
  "import \x7b\n" ++ "\n".intercalate lines ++ "\n\x7d from \"borg-sdk/client\";\n\n"

def preamble (version : String) : String :=
  "/** The def-layer this module was generated from — its ClientVersion (SPEC.md §5.4). */
export const CLIENT_VERSION = \"" ++ version ++ "\";

/**
 * Connect to a `borg-server`, as a client authored against `" ++ version ++ "`.
 *
 * ```ts
 * const bc = await createBorgContext(\x7b url: \"borg://localhost/<registry>\" \x7d);
 * ```
 *
 * Every option the SDK's own `createBorgContext` takes except the version, which is not an option
 * here: generation decided it. `$BORG_URL` is read when neither `url` nor `socket` is given.
 */
export function createBorgContext(
  options: Omit<BorgContextOptions, \"clientVersion\">,
): Promise<BorgContext> \x7b
  return connect(\x7b ...options, clientVersion: CLIENT_VERSION \x7d);
\x7d
"

/-- Whether JavaScript can spell a name bare. -/
def identifier (name : String) : Bool :=
  !name.isEmpty && name.toList.head?.any (fun c => c.isAlpha || c = '_' || c = '$') &&
    name.toList.all fun c => c.isAlphanum || c = '_' || c = '$'

/-- A property name, quoted when it is not a bare name. -/
def member (name : String) : String := if identifier name then name else quoted name

def describeField (field : FieldDef) : String :=
  match field.derivedBy with
  | some producer => s!"`{field.ty}` — derived by {producer}, so client writes are refused (§8). " ++
      s!"Repo {field.repo}, v{field.version}."
  | none => s!"`{field.ty}` — source. Repo {field.repo}, v{field.version}."

/-- A field's line in the interface, and the comment above it. -/
def interfaceField (field : FieldDef) : String :=
  "  /** " ++ describeField field ++ " */\n" ++
    "  " ++ (if field.derivedBy.isSome then "readonly " else "") ++ member field.name ++ ": " ++
      (mapType field.ty).ts ++ " | null;\n"

def descriptorField (field : FieldDef) : String :=
  "  " ++ member field.name ++ ": \x7b type: " ++ (mapType field.ty).ctor ++ ", derived: " ++
    (if field.derivedBy.isSome then "true" else "false") ++ ", version: \"" ++ field.version ++ "\" \x7d,\n"

/-- The rule after a struct's name; its length is counted in bytes. -/
def rule (name : String) : String := String.ofList (List.replicate (72 - (name.utf8ByteSize + 6)) '─')

def emitStruct (object : StructDef) : String :=
  let name := object.name
  "\n// ── " ++ name ++ " " ++ rule name ++ "\n\n" ++
    "export interface " ++ name ++ " \x7b\n" ++ String.join (object.fields.map interfaceField) ++ "\x7d\n\n" ++
    "/** The runtime half of \x7b@link " ++ name ++ "\x7d: what `tx.object(" ++ name ++
      ", id)` converts values with. */\n" ++
    "export const " ++ name ++ ": StructDescriptor<" ++ name ++ ", " ++ quoted name ++ "> = defineStruct(\"" ++ name ++
      "\", \x7b\n" ++ String.join (object.fields.map descriptorField) ++ "\x7d);\n"

def sorted (schema : SchemaDef) : List StructDef :=
  schema.structs.insertionSort fun a b => a.name ≤ b.name

/-- The values a module imports, by name, each once. -/
def importedValues (structs : List StructDef) : List String :=
  (structs.flatMap fun object => object.fields.map fun field => (mapType field.ty).imported).dedup.insertionSort (· ≤ ·)

def anyReference (structs : List StructDef) : Bool :=
  structs.any fun object => object.fields.any fun field => (mapType field.ty).reference

def module (schema : SchemaDef) : String :=
  let structs := sorted schema
  header schema.version ++ imports (importedValues structs) (anyReference structs) ++ preamble schema.version ++
    String.join (structs.map emitStruct)

/-! ### A store's schema -/

def structDef (object : ObjectDef) : StructDef where
  name := object.name
  fields := ((object.fields.values).insertionSort fun a b => a.name ≤ b.name).map fun declared =>
    { name := declared.name
      ty := declared.ty.display
      derivedBy := match declared.ownership with
        | .derived producer => some s!"P{producer}"
        | .source => none
      repo := declared.declaringRepo
      version := s!"L{declared.version}" }

/-- The definitions in force at the end of a path, as they are sent. -/
def schemaDef (version : LayerId) (view : DefView) : SchemaDef where
  version := s!"L{version}"
  structs := (view.objects.values.insertionSort fun a b => a.name ≤ b.name).map structDef

end Generate

end BorgCore
