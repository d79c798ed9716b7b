import Mathlib.Data.List.Basic
import BorgCore.Core.Layer
import BorgCore.Lib.Utf8

/-!
# Static API keys

A server checks a credential against a file of hashed keys.  No file means an open server; a file that
is there and cannot be read is a refusal.  The file is written by other processes, and read afresh for
every handshake.
-/

namespace BorgCore

/-- What a key may reach: every registry, or those it names. -/
inductive Scope where
  | all
  | only (names : List String)
deriving DecidableEq

namespace Scope

/-- Whether this scope reaches a registry by that name. -/
def allows : Scope → String → Bool
  | .all, _ => true
  | .only names, name => name ∈ names

def visible (scope : Scope) (names : List String) : List String := names.filter scope.allows

end Scope

/-- One key, as the file holds it: its digest and not the key. -/
structure Key where
  label : String
  hash : String
  registries : Scope
  created : Nat
deriving DecidableEq

/-- What a keys file may hold. -/
inductive KeysFile where
  | keys (keys : List Key)
  | unreadable (err : String)
  | unparsable (err : String)
deriving DecidableEq

/-- What a client presenting a credential may do. -/
inductive Access where
  | open
  | granted (label : String) (scope : Scope)
deriving DecidableEq

namespace Access

def scope : Access → Scope
  | .open => .all
  | .granted _ scope => scope

def mode : Access → String
  | .open => "open"
  | .granted .. => "required"

end Access

/-- Why a handshake was refused, in the words a stranger should read. -/
abbrev Refusal := String

namespace Keys

def keysPath (dataDir : String) : String := s!"{dataDir}/borg-server.keys.json"

/-- The keys a server enforces, or `none` where there is no file and it is open. -/
def load (dataDir : String) : Option KeysFile → Except BorgError (Option (List Key))
  | none => .ok none
  | some (.keys keys) => .ok (some keys)
  | some (.unreadable err) => .error <| .storage <|
      s!"{keysPath dataDir}: {err} — this server has a keys file it cannot read, and refuses connections " ++
        "rather than serving them unauthenticated"
  | some (.unparsable err) => .error <| .storage <|
      s!"{keysPath dataDir}: {err} — this server has a keys file it cannot parse, and refuses connections " ++
        "rather than serving them unauthenticated"

def matching (digest : String → String) (keys : List Key) (presented : String) : Option Key :=
  keys.find? fun key => key.hash = digest presented

def labelled (keys : List Key) (label : String) : Option Key := keys.find? fun key => key.label = label

def alphabet : List Char := "ABCDEFGHIJKLMNOPQRSTUVWXYZabcdefghijklmnopqrstuvwxyz0123456789-_".toList

def base64url (bytes : List UInt8) : List Char :=
  (bytes.toChunks 3).flatMap fun chunk =>
    let packed := chunk.zipIdx.foldl (fun packed entry => packed ||| (entry.1.toNat <<< (16 - 8 * entry.2))) 0
    (List.range (chunk.length + 1)).map fun i => alphabet.getD ((packed >>> (18 - 6 * i)) &&& 0x3f) 'A'

/-- A fresh key, made of the random bytes that were drawn for it. -/
def generate (bytes : List UInt8) : String := String.ofList ("borgk_".toList ++ base64url bytes)

/-- The admin credential a running server left, if it left one. -/
def readAdmin (file : Option String) : Option String :=
  (file.map fun raw => String.ofList (Utf8.trimmed raw)).filter fun token => ¬ token.isEmpty

def authorize (digest : String → String) (dataDir : String) (file : Option KeysFile)
    (admin : Option String) (presented : Option String) : Except Refusal Access :=
  match load dataDir file with
  | .error _ => .error <| "this server cannot read its credential store, and refuses every connection " ++
      "until an operator has fixed it"
  | .ok none => .ok .open
  | .ok (some keys) =>
    match presented.filter fun key => ¬ key.isEmpty with
    | none => .error <| "this server requires a credential — put a key in the url as " ++
        "borg://:<key>@host/<registry>, or set $BORG_TOKEN"
    | some presented =>
      if (readAdmin admin).any fun admin => digest admin = digest presented then
        .ok (.granted "<local admin>" .all)
      else
        match matching digest keys presented with
        | none => .error "that credential is not valid for this server"
        | some key => .ok (.granted key.label key.registries)

/-- A registry this credential may not reach, refused without saying whether it exists. -/
def permit (scope : Scope) (registry : String) : Except Refusal Unit :=
  if scope.allows registry then .ok ()
  else .error s!"that credential is not valid for registry `{registry}`"

def checkLabel (label : String) : Except BorgError Unit :=
  if ¬ label.isEmpty ∧ label.toList.all fun c => c.isAlphanum ∨ c = '-' ∨ c = '_' then .ok ()
  else .error (.storage s!"`{label}` is not a key label — letters, digits, `-` and `_`")

end Keys

end BorgCore
