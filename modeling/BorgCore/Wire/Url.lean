import Mathlib.Data.List.DropRight
import BorgCore.Core.Layer
import BorgCore.Core.Numbers

/-!
# A connection URL

One string configures a client: where the server is, which registry on it, and what is presented.  The scheme
names the transport.  Every refusal quotes the text back with the credential taken out.
-/

namespace BorgCore

namespace Text

def find (word : List Char) : List Char → Option Nat
  | [] => if word.isEmpty then some 0 else none
  | c :: rest => if word.isPrefixOf (c :: rest) then some 0 else (find word rest).map (· + 1)

def findLast (c : Char) (text : List Char) : Option Nat :=
  (text.reverse.idxOf? c).map (text.length - 1 - ·)

end Text

namespace Url

def mark : List Char := [':', '/', '/']

/-- A URL with its credential taken out. -/
def redacted (text : String) : String :=
  match Text.find mark text.toList with
  | none => text
  | some i =>
    let scheme := text.toList.take i
    let rest := text.toList.drop (i + 3)
    let authority := (rest.idxOf? '/').getD rest.length
    match (rest.take authority).idxOf? '@' with
    | some i => String.ofList (scheme ++ "://:***@".toList ++ rest.drop (i + 1))
    | none => text

def malformed (text why : String) : BorgError := .storage s!"`{redacted text}` is not a borg url: {why}"

/-- What may be a registry: letters, digits, `-` and `_`. -/
def nameIsValid (name : List Char) : Bool :=
  !name.isEmpty && name.all fun c => c.isAlphanum || c = '-' || c = '_'

/-- How a URL says to reach a server. -/
inductive Transport where
  /-- The local one, which the caller resolves. -/
  | localSocket
  | unix (path : String)
  | ws (secure : Bool) (host : String) (port : Nat)
deriving DecidableEq, Repr

structure ConnectionUrl where
  transport : Transport
  /-- The registry that was named; `none` means that none was. -/
  registry : Option String
  credential : Option String
deriving DecidableEq, Repr

/-- The credential, and the rest without it.  The `@` is looked for before the first `/`. -/
def userinfo (text : String) (rest : List Char) : Except BorgError (Option String × List Char) :=
  let authority := (rest.idxOf? '/').getD rest.length
  match (rest.take authority).idxOf? '@' with
  | none => .ok (none, rest)
  | some i =>
    let userinfo := rest.take i
    let address := rest.drop (i + 1)
    let key := (userinfo.dropPrefix? [':']).getD userinfo
    if key.contains ':' then
      .error (malformed text ("a borg url has no username — the credential is the whole userinfo, as " ++
        "borg://:<key>@host/<registry>"))
    else if key.isEmpty then
      .error (malformed text ("it has an empty credential — leave the `@` out to present none, or write " ++
        "borg://:<key>@host/<registry>"))
    else .ok (some (String.ofList key), address)

def splitSlash (rest : List Char) : List Char × List Char :=
  match rest.idxOf? '/' with
  | some i => (rest.take i, rest.drop (i + 1))
  | none => (rest, [])

def registrySegment (text : String) (tail : List Char) : Except BorgError (Option String) :=
  let tail := tail.rdropWhile (· = '/')
  if tail.isEmpty then .ok none
  else if tail.contains '/' then
    .error (malformed text (s!"`{String.ofList tail}` is more than one path segment — a borg url names one " ++
      "registry, as borg://localhost/<registry>"))
  else if !nameIsValid tail then
    .error (malformed text s!"`{String.ofList tail}` is not a registry name — letters, digits, `-` and `_`")
  else .ok (some (String.ofList tail))

/-- `borg://<host>[/<registry>]`; an empty host is the local one. -/
def localUrl (text : String) (rest : List Char) : Except BorgError ConnectionUrl :=
  let (host, tail) := splitSlash rest
  if !host.isEmpty && host ≠ "localhost".toList then
    .error (malformed text (s!"`{String.ofList host}` is not reachable over the local transport — borg:// is " ++
      "this machine's well-known socket, and a remote server is borg+ws://"))
  else (registrySegment text tail).map fun registry => ⟨.localSocket, registry, none⟩

/-- `borg+unix://<socket-path>[/<registry>]`.  The last segment is the registry where it can be one; after a
trailing slash there is none. -/
def unix (text : String) (rest : List Char) : Except BorgError ConnectionUrl :=
  if rest.head? ≠ some '/' then
    .error (malformed text ("borg+unix names an absolute socket path, so it takes three slashes — " ++
      "borg+unix:///tmp/borg.sock"))
  else if rest.getLast? = some '/' then
    let socket := rest.dropLast
    if socket.isEmpty then .error (malformed text "it names no socket path")
    else .ok ⟨.unix (String.ofList socket), none, none⟩
  else
    let split := (Text.findLast '/' rest).getD 0
    let head := rest.take split
    let last := rest.drop (split + 1)
    if !head.isEmpty && nameIsValid last then
      .ok ⟨.unix (String.ofList head), some (String.ofList last), none⟩
    else .ok ⟨.unix (String.ofList rest), none, none⟩

/-- The host and the port of a websocket; the port defaults as it does for any. -/
def hostPort (text : String) (authority : List Char) (secure : Bool) :
    Except BorgError (List Char × Nat) :=
  match Text.findLast ':' authority with
  | some i =>
    let port := authority.drop (i + 1)
    match Number.parseU16 port with
    | some number => .ok (authority.take i, number)
    | none =>
      .error (malformed text s!"`{String.ofList port}` is not a port — borg+ws://<host>:<port>/<registry>")
  | none => .ok (authority, if secure then 443 else 80)

def noHost (text : String) : BorgError :=
  malformed text "it names no host — borg+ws://<host>[:<port>]/<registry>"

/-- `borg+ws://<host>[:<port>][/<registry>]`, and the same for `borg+wss://`. -/
def websocket (text : String) (rest : List Char) (secure : Bool) : Except BorgError ConnectionUrl :=
  let (authority, tail) := splitSlash rest
  if authority.isEmpty then .error (noHost text)
  else
    match hostPort text authority secure with
    | .error err => .error err
    | .ok (host, port) =>
      if host.isEmpty then .error (noHost text)
      else (registrySegment text tail).map fun registry => ⟨.ws secure (String.ofList host) port, registry, none⟩

/-- What the scheme names, parsed from an address that has no credential any more. -/
def transport (text : String) (scheme rest : List Char) : Except BorgError ConnectionUrl :=
  if scheme = "borg".toList then localUrl text rest
  else if scheme = "borg+unix".toList then unix text rest
  else if scheme = "borg+ws".toList then websocket text rest false
  else if scheme = "borg+wss".toList then websocket text rest true
  else .error (malformed text (s!"`{String.ofList scheme}` is not a borg transport — try borg://, " ++
    "borg+unix://, borg+ws:// or borg+wss://"))

def parse (text : String) : Except BorgError ConnectionUrl :=
  match Text.find mark text.toList with
  | none =>
    .error (malformed text ("it needs a scheme — borg://localhost/<registry> or " ++
      "borg+unix:///path/to/borg.sock/<registry>"))
  | some i =>
    let scheme := text.toList.take i
    let rest := text.toList.drop (i + 3)
    match rest.find? fun c => c = '?' || c = '#' with
    | some stray =>
      .error (malformed text (s!"`{stray}` has no meaning here — a borg url is a transport, an address and a " ++
        "registry, and nothing else"))
    | none =>
      match userinfo text rest with
      | .error err => .error err
      | .ok (credential, rest) => (transport text scheme rest).map fun url => { url with credential := credential }

end Url

end BorgCore
