import BorgCore.Lib.Lexing
import BorgCore.Sdk.Generate

/-!
# The tokens of a generated module

What a module is meant to be made of: the fixed tokens of its template, with each name of the schema in a comment, as
one identifier or as one string literal that says just that name.
-/

namespace BorgCore

namespace Generate

open EcmaScript

def word (text : String) : Token := wordToken text.toList

def mark (text : String) : Token := .punctuator text.toList

def line (text : String) : Token := .line text.toList

def block (text : String) : Token := .block text.toList

/-- A name as an identifier: it must not be a reserved word. -/
def nameToken (name : String) : Token := .identifier name.toList

/-- A name as a string literal that is written as it is escaped. -/
def quotedToken (name : String) : Token := .string (escape name.toList) name.toList

/-- A text as a string literal that is written as it is. -/
def plainToken (text : String) : Token := .string text.toList text.toList

/-! ### Before the structs -/

def headerTokens (version : String) : List Token :=
  [line " Generated by `borg generate --lang ts`. Do not edit — regenerate.",
    line "",
    line (" **This module is pinned to a schema.** `" ++ version ++
      "` is the branch's def-version at the moment it"),
    line " was generated, and `createBorgContext` sends it as this client's ClientVersion on every connection",
    line " (SPEC.md §5.4, SDK-DRAFT §2.4). The pin is what makes *not* regenerating a supported state rather",
    line " than a broken one: values written in a newer shape reach this code through `down` migrations, and",
    line " what it writes is stored in the shape it knows. Regenerating is how you adopt a new schema, and it",
    line " is a decision rather than an obligation.",
    line "",
    line " Every field is nullable. A cell that was never written and a tombstoned one both read as `null`",
    line " (§8.1), and no declaration can promise otherwise."]

def importTokens (values : List String) (reference : Bool) : List Token :=
  [word "import", mark "\x7b", word "createBorgContext", word "as", word "connect", mark ",", word "defineStruct",
      mark ","] ++
    values.flatMap (fun value => [word value, mark ","]) ++
    [word "type", word "BorgContext", mark ",", word "type", word "BorgContextOptions", mark ","] ++
    (if reference then [word "type", word "Ref", mark ","] else []) ++
    [word "type", word "StructDescriptor", mark ",", mark "\x7d", word "from", plainToken "borg-sdk/client", mark ";"]

def preambleTokens (version : String) : List Token :=
  [block "* The def-layer this module was generated from — its ClientVersion (SPEC.md §5.4). ",
    word "export", word "const", word "CLIENT_VERSION", mark "=", plainToken version, mark ";",
    block ("*
 * Connect to a `borg-server`, as a client authored against `" ++ version ++ "`.
 *
 * ```ts
 * const bc = await createBorgContext(\x7b url: \"borg://localhost/<registry>\" \x7d);
 * ```
 *
 * Every option the SDK's own `createBorgContext` takes except the version, which is not an option
 * here: generation decided it. `$BORG_URL` is read when neither `url` nor `socket` is given.
 "),
    word "export", word "function", word "createBorgContext", mark "(", word "options", mark ":", word "Omit", mark "<",
    word "BorgContextOptions", mark ",", plainToken "clientVersion", mark ">", mark ",", mark ")", mark ":",
    word "Promise", mark "<", word "BorgContext", mark ">", mark "\x7b", word "return", word "connect", mark "(",
    mark "\x7b", mark "...", word "options", mark ",", word "clientVersion", mark ":", word "CLIENT_VERSION",
    mark "\x7d", mark ")", mark ";", mark "\x7d"]

/-! ### One struct -/

/-- A property is named by a name, reserved or not, or by a string. -/
def memberToken (name : String) : Token := if identifier name then word name else quotedToken name

def typeTokens (ty : String) : List Token :=
  if (mapType ty).reference then [word "Ref", mark "<", quotedToken ty, mark ">"] else [word (mapType ty).ts]

def ctorTokens (ty : String) : List Token :=
  word (mapType ty).imported :: mark "(" ::
    ((if (mapType ty).reference then [quotedToken ty] else []) ++ [mark ")"])

def interfaceTokens (field : FieldDef) : List Token :=
  [block ("* " ++ describeField field ++ " ")] ++ (if field.derivedBy.isSome then [word "readonly"] else []) ++
    [memberToken field.name, mark ":"] ++ typeTokens field.ty ++ [mark "|", word "null", mark ";"]

def descriptorTokens (field : FieldDef) : List Token :=
  [memberToken field.name, mark ":", mark "\x7b", word "type", mark ":"] ++ ctorTokens field.ty ++
    [mark ",", word "derived", mark ":", word (if field.derivedBy.isSome then "true" else "false"), mark ",",
      word "version", mark ":", plainToken field.version, mark "\x7d", mark ","]

def structTokens (object : StructDef) : List Token :=
  let name := object.name
  [line (" ── " ++ name ++ " " ++ rule name), word "export", word "interface", nameToken name, mark "\x7b"] ++
    object.fields.flatMap interfaceTokens ++
    [mark "\x7d", block ("* The runtime half of \x7b@link " ++ name ++ "\x7d: what `tx.object(" ++ name ++
        ", id)` converts values with. "),
      word "export", word "const", nameToken name, mark ":", word "StructDescriptor", mark "<", nameToken name,
        mark ",",
      quotedToken name, mark ">", mark "=", word "defineStruct", mark "(", plainToken name, mark ",", mark "\x7b"] ++
    object.fields.flatMap descriptorTokens ++ [mark "\x7d", mark ")", mark ";"]

def template (schema : SchemaDef) : List Token :=
  let structs := sorted schema
  headerTokens schema.version ++ importTokens (importedValues structs) (anyReference structs) ++
    preambleTokens schema.version ++ structs.flatMap structTokens

end Generate

end BorgCore
