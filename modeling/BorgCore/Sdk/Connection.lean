import Mathlib.Data.List.DropRight
import BorgCore.Sdk.Values
import BorgCore.Wire.Url

/-!
# The connection URL of the TypeScript SDK

The same string, parsed by another hand: positions in the text, where the Rust parser has pieces of it, and a
pattern for a port.
-/

namespace BorgCore

namespace Sdk

namespace TypeScript

/-- The text up to the first `/`, and all of it where there is none. -/
def authorityOf (rest : List Char) : List Char :=
  match rest.idxOf? '/' with
  | none => rest
  | some slash => rest.take slash

def tailOf (rest : List Char) : List Char :=
  match rest.idxOf? '/' with
  | none => []
  | some slash => rest.drop (slash + 1)

def redactBorgUrl (text : String) : String :=
  match Text.find Url.mark text.toList with
  | none => text
  | some i =>
    let rest := text.toList.drop (i + 3)
    match (authorityOf rest).idxOf? '@' with
    | none => text
    | some at' => String.ofList (text.toList.take i ++ "://:***@".toList ++ rest.drop (at' + 1))

def malformed (text why : String) : String := s!"`{redactBorgUrl text}` is not a borg url: {why}"

def nameIsValid (name : List Char) : Bool :=
  0 < name.length && name.all fun c => c.isAlphanum || c = '_' || c = '-'

inductive TransportKind where
  | localSocket | unix | ws
deriving DecidableEq, Repr

structure WsAddress where
  secure : Bool
  host : String
  port : Nat
deriving DecidableEq, Repr

structure BorgUrl where
  transport : TransportKind
  /-- The socket, for `unix`. -/
  path : Option String
  ws : Option WsAddress
  registry : Option String
  credential : Option String
deriving DecidableEq, Repr

def userinfo (text : String) (rest : List Char) : Except String (Option String × List Char) :=
  let authority := authorityOf rest
  match authority.idxOf? '@' with
  | none => .ok (none, rest)
  | some at' =>
    let written := authority.take at'
    let key := if written.head? = some ':' then written.drop 1 else written
    if key.contains ':' then
      .error (malformed text ("a borg url has no username — the credential is the whole userinfo, as " ++
        "borg://:<key>@host/<registry>"))
    else if key = [] then
      .error (malformed text ("it has an empty credential — leave the `@` out to present none, or write " ++
        "borg://:<key>@host/<registry>"))
    else .ok (some (String.ofList key), rest.drop (at' + 1))

def registrySegment (text : String) (tail : List Char) : Except String (Option String) :=
  let trimmed := tail.rdropWhile (· = '/')
  if trimmed = [] then .ok none
  else if trimmed.contains '/' then
    .error (malformed text (s!"`{String.ofList trimmed}` is more than one path segment — a borg url names " ++
      "one registry, as borg://localhost/<registry>"))
  else if !nameIsValid trimmed then
    .error (malformed text s!"`{String.ofList trimmed}` is not a registry name — letters, digits, `-` and `_`")
  else .ok (some (String.ofList trimmed))

def localUrl (text : String) (rest : List Char) : Except String BorgUrl :=
  let host := authorityOf rest
  let tail := tailOf rest
  if host ≠ [] ∧ host ≠ "localhost".toList then
    .error (malformed text (s!"`{String.ofList host}` is not reachable over the local transport — borg:// is " ++
      "this machine's well-known socket, and a remote server is the reserved borg+ws://"))
  else (registrySegment text tail).map fun registry => ⟨.localSocket, none, none, registry, none⟩

/-- The pattern of a port: one to five digits. -/
def isPort (written : List Char) : Bool := 1 ≤ written.length && written.length ≤ 5 && written.all Char.isDigit

def websocket (text : String) (rest : List Char) (secure : Bool) : Except String BorgUrl :=
  let authority := authorityOf rest
  let tail := tailOf rest
  let noHost : Except String BorgUrl :=
    .error (malformed text "it names no host — borg+ws://<host>[:<port>]/<registry>")
  if authority = [] then noHost
  else
    let colon := Text.findLast ':' authority
    let host :=
      match colon with
      | none => authority
      | some colon => authority.take colon
    let written := colon.map fun colon => authority.drop (colon + 1)
    if host = [] then noHost
    else
      let wrong (written : List Char) : Except String BorgUrl :=
        .error (malformed text s!"`{String.ofList written}` is not a port — borg+ws://<host>:<port>/<registry>")
      match written with
      | some written =>
        if !isPort written then wrong written
        else
          let port := Positional.value 10 (written.map fun c => c.toNat - '0'.toNat)
          if 65535 < port then wrong written
          else (registrySegment text tail).map fun registry =>
            ⟨.ws, none, some ⟨secure, String.ofList host, port⟩, registry, none⟩
      | none => (registrySegment text tail).map fun registry =>
        ⟨.ws, none, some ⟨secure, String.ofList host, if secure then 443 else 80⟩, registry, none⟩

def unix (text : String) (rest : List Char) : Except String BorgUrl :=
  if rest.head? ≠ some '/' then
    .error (malformed text ("borg+unix names an absolute socket path, so it takes three slashes — " ++
      "borg+unix:///tmp/borg.sock"))
  else if rest.getLast? = some '/' then
    let socket := rest.dropLast
    if socket = [] then .error (malformed text "it names no socket path")
    else .ok ⟨.unix, some (String.ofList socket), none, none, none⟩
  else
    let split := Text.findLast '/' rest
    -- Where there is none its position is -1, and a slice to that leaves the last character out.
    let head :=
      match split with
      | none => rest.dropLast
      | some split => rest.take split
    let last :=
      match split with
      | none => rest
      | some split => rest.drop (split + 1)
    if head ≠ [] ∧ nameIsValid last = true then
      .ok ⟨.unix, some (String.ofList head), none, some (String.ofList last), none⟩
    else .ok ⟨.unix, some (String.ofList rest), none, none, none⟩

def transport (text : String) (scheme rest : List Char) : Except String BorgUrl :=
  if scheme = "borg".toList then localUrl text rest
  else if scheme = "borg+unix".toList then unix text rest
  else if scheme = "borg+ws".toList then websocket text rest false
  else if scheme = "borg+wss".toList then websocket text rest true
  else .error (malformed text (s!"`{String.ofList scheme}` is not a borg transport — try borg://, " ++
    "borg+unix://, borg+ws:// or borg+wss://"))

def parseBorgUrl (text : String) : Except String BorgUrl :=
  match Text.find Url.mark text.toList with
  | none =>
    .error (malformed text ("it needs a scheme — borg://localhost/<registry> or " ++
      "borg+unix:///path/to/borg.sock/<registry>"))
  | some i =>
    let scheme := text.toList.take i
    let whole := text.toList.drop (i + 3)
    match whole.find? fun c => c = '?' || c = '#' with
    | some stray =>
      .error (malformed text (s!"`{stray}` has no meaning here — a borg url is a transport, an address and a " ++
        "registry, and nothing else"))
    | none =>
      match userinfo text whole with
      | .error reason => .error reason
      | .ok (credential, rest) =>
        (transport text scheme rest).map fun parsed => { parsed with credential := credential }

end TypeScript

end Sdk

end BorgCore
