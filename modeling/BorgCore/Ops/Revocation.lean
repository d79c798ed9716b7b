import Mathlib.Logic.Function.Basic
import BorgCore.Lib.Calls
import BorgCore.Lib.Machine
import BorgCore.Ops.Keys

/-!
# Issuing and revoking keys

Issuing a key and revoking one are each a read of the keys file, a write of a staged file and a rename,
made by a process of its own; servers read the file in between.  Nothing keeps two such processes apart,
and they stage under one name.
-/

namespace BorgCore

abbrev CallId := Nat

/-- What an operator asks for.  The bytes of a new key are those its process will draw. -/
inductive KeyOp where
  | issue (label : String) (scope : Scope) (bytes : List UInt8) (created : Nat)
  | revoke (label : String)
deriving DecidableEq

/-- How far a call has got: it carries the file it has read and the keys it is to write. -/
inductive KeyStep where
  | started
  | loaded (seen : Option KeysFile) (next : List Key)
  | staged (seen : Option KeysFile) (next : List Key)
  | done
  | failed (err : BorgError)
deriving DecidableEq

/-- How a step on the file system goes; a write that fails leaves what it leaves. -/
inductive FileEnding where
  | well
  | failed (reason : String) (left : Option KeysFile)
deriving DecidableEq

/-- What happens, as seen from outside. -/
inductive Happened where
  | began (call : CallId) (op : KeyOp)
  | returned (call : CallId) (op : KeyOp) (ok : Bool)
  | authorized (presented : Option String) (answer : Except Refusal Access)
deriving DecidableEq

inductive KeyAction where
  | begin (call : CallId) (op : KeyOp)
  | read (call : CallId)
  | stage (call : CallId) (ending : FileEnding)
  | rename (call : CallId) (ending : FileEnding)
  | authorize (presented : Option String)
  /-- A server starts and leaves its admin token. -/
  | mint (bytes : List UInt8)
  | clear

/-- A data directory and the processes at work on it. -/
structure KeyDir where
  dataDir : String
  file : Option KeysFile
  staged : Option KeysFile
  admin : Option String
  calls : CallId → Option (KeyOp × KeyStep)
  /-- Everything that has happened, oldest first. -/
  history : List Happened

def KeyOp.entry (digest : String → String) (label : String) (scope : Scope) (bytes : List UInt8)
    (created : Nat) : Key := ⟨label, digest (Keys.generate bytes), scope, created⟩

/-- The keys a call is to write, from the file it has read. -/
def KeyOp.apply (digest : String → String) (dataDir : String) (file : Option KeysFile) :
    KeyOp → Except BorgError (List Key)
  | .issue label scope bytes created => do
    Keys.checkLabel label
    let keys := (← Keys.load dataDir file).getD []
    if (Keys.labelled keys label).isSome then
      .error <| .storage <| s!"a key labelled `{label}` already exists — revoke it first, or use " ++
        s!"another label; two live keys under one label would make `keys revoke {label}` ambiguous"
    else return keys ++ [entry digest label scope bytes created]
  | .revoke label => do
    match ← Keys.load dataDir file with
    | none => .error <| .storage <|
        s!"there are no keys to revoke — {Keys.keysPath dataDir} does not exist, and this server is open"
    | some keys =>
      let kept := keys.filter fun key => key.label ≠ label
      if kept.length = keys.length then .error (.storage s!"no key labelled `{label}`") else return kept

namespace KeyDir

variable (digest : String → String)

def setCall (s : KeyDir) (call : CallId) (op : KeyOp) (step : KeyStep) : KeyDir :=
  { s with calls := Function.update s.calls call (some (op, step)) }

def record (s : KeyDir) (event : Happened) : KeyDir := { s with history := s.history ++ [event] }

def fail (s : KeyDir) (call : CallId) (op : KeyOp) (err : BorgError) : KeyDir :=
  (s.setCall call op (.failed err)).record (.returned call op false)

/-- What an action makes of the directory. -/
def next (s : KeyDir) : KeyAction → KeyDir
  | .begin call op =>
    match s.calls call with
    | none => (s.setCall call op .started).record (.began call op)
    | some _ => s
  | .read call =>
    match s.calls call with
    | some (op, .started) =>
      match op.apply digest s.dataDir s.file with
      | .ok keys => s.setCall call op (.loaded s.file keys)
      | .error err => s.fail call op err
    | _ => s
  | .stage call ending =>
    match s.calls call with
    | some (op, .loaded seen keys) =>
      match ending with
      | .well => { s.setCall call op (.staged seen keys) with staged := some (.keys keys) }
      | .failed reason left =>
        { s with staged := left }.fail call op (.storage s!"{Keys.keysPath s.dataDir}: {reason}")
    | _ => s
  | .rename call ending =>
    match s.calls call with
    | some (op, .staged _ _) =>
      match ending, s.staged with
      | .well, some contents =>
        { s.setCall call op .done with file := some contents, staged := none }.record
          (.returned call op true)
      | .well, none => s.fail call op (.storage
          s!"{Keys.keysPath s.dataDir}: No such file or directory (os error 2)")
      | .failed reason _, _ => s.fail call op (.storage s!"{Keys.keysPath s.dataDir}: {reason}")
    | _ => s
  | .authorize presented =>
    s.record (.authorized presented (Keys.authorize digest s.dataDir s.file s.admin presented))
  | .mint bytes => { s with admin := some (Keys.generate bytes) }
  | .clear => { s with admin := none }

end KeyDir

/-! ### What is asked of a history -/

/-- Revocation is final, issued keys survive, and a server that has a key is never open again. -/
structure Lawful (history : List Happened) : Prop where
  revoked : ∀ before between between' after i r label scope bytes created answer,
    history = before ++ .returned i (.issue label scope bytes created) true :: between ++
      .began r (.revoke label) :: between' ++ .returned r (.revoke label) true :: after →
    .authorized (some (Keys.generate bytes)) answer ∈ after → ∀ access, answer ≠ .ok access
  survives : ∀ before between after i label scope bytes created answer,
    history = before ++ .returned i (.issue label scope bytes created) true :: between ++
      .authorized (some (Keys.generate bytes)) answer :: after →
    (∀ r, .returned r (.revoke label) true ∉ between) → answer = .ok (.granted label scope)
  enforced : ∀ before after i label scope bytes created presented answer,
    history = before ++ .returned i (.issue label scope bytes created) true :: after →
    .authorized presented answer ∈ after → answer ≠ .ok .open

namespace KeyDir

variable {digest : String → String}

structure Quiet (s : KeyDir) : Prop where
  calls : ∀ call, s.calls call = none
  history : s.history = []

/-- A rename that finds a staged file puts in place what its own call has staged, over the file it has
read. -/
def Safe (s : KeyDir) : KeyAction → Prop
  | .rename call .well =>
    match s.calls call, s.staged with
    | some (_, .staged seen keys), some contents => s.file = seen ∧ contents = .keys keys
    | _, _ => True
  | _ => True

/-- What is drawn at random is new: a key is none that was drawn before, in the file or as a token. -/
def Drawn (digest : String → String) (s : KeyDir) : KeyAction → Prop
  | .begin _ (.issue _ _ bytes _) =>
    (∀ call label scope bytes' created step,
      s.calls call = some (.issue label scope bytes' created, step) →
        Keys.generate bytes' ≠ Keys.generate bytes) ∧
    (∀ keys, s.file = some (.keys keys) → ∀ key ∈ keys, key.hash ≠ digest (Keys.generate bytes)) ∧
    Keys.readAdmin s.admin ≠ some (Keys.generate bytes)
  | .mint bytes => ∀ call label scope bytes' created step,
      s.calls call = some (.issue label scope bytes' created, step) →
        Keys.readAdmin (some (Keys.generate bytes)) ≠ some (Keys.generate bytes')
  | _ => True

def run (digest : String → String) (s : KeyDir) (actions : List KeyAction) : KeyDir :=
  actions.foldl (next digest) s

end KeyDir

/-! ### One more event -/

theorem snoc_eq_split_iff {α : Type*} {events before after : List α} {event at_ : α} :
    events ++ [event] = before ++ at_ :: after ↔
      (after = [] ∧ at_ = event ∧ before = events) ∨
        ∃ rest, after = rest ++ [event] ∧ events = before ++ at_ :: rest := by
  constructor
  · intro heq
    rcases List.eq_nil_or_concat after with rfl | ⟨rest, last, rfl⟩
    · obtain ⟨rfl, hev⟩ := List.append_inj' heq rfl
      exact .inl ⟨rfl, (List.singleton_inj.1 hev).symm, rfl⟩
    · rw [List.concat_eq_append, ← List.cons_append, ← List.append_assoc] at heq
      obtain ⟨heq, hev⟩ := List.append_inj' heq rfl
      rw [← List.singleton_inj.1 hev]
      exact .inr ⟨rest, List.concat_eq_append, heq⟩
  · rintro (⟨rfl, rfl, rfl⟩ | ⟨rest, rfl, rfl⟩)
    · rfl
    · simp

/-- What an answer may be after what has happened. -/
structure Fits (history : List Happened) (presented : Option String) (answer : Except Refusal Access) :
    Prop where
  revoked : ∀ before after i r label scope bytes created,
    history = before ++ .returned i (.issue label scope bytes created) true :: after →
    .returned r (.revoke label) true ∈ after → presented = some (Keys.generate bytes) →
      ∀ access, answer ≠ .ok access
  survives : ∀ before after i label scope bytes created,
    history = before ++ .returned i (.issue label scope bytes created) true :: after →
    (∀ r, .returned r (.revoke label) true ∉ after) → presented = some (Keys.generate bytes) →
      answer = .ok (.granted label scope)
  enforced : ∀ before after i label scope bytes created,
    history = before ++ .returned i (.issue label scope bytes created) true :: after → answer ≠ .ok .open

theorem Lawful.nil : Lawful [] := by
  refine ⟨?_, ?_, ?_⟩
  · intro _ _ _ _ _ _ _ _ _ _ _ heq
    simp at heq
  · intro _ _ _ _ _ _ _ _ _ heq
    simp at heq
  · intro _ _ _ _ _ _ _ _ _ heq
    simp at heq

theorem Lawful.snoc {history : List Happened} (h : Lawful history) {event : Happened}
    (hfits : ∀ presented answer, event = .authorized presented answer → Fits history presented answer) :
    Lawful (history ++ [event]) := by
  refine ⟨?_, ?_, ?_⟩
  · intro before between between' after i r label scope bytes created answer heq hmem
    obtain ⟨rfl, -, -⟩ | ⟨rest, rfl, hrest⟩ := snoc_eq_split_iff.1 heq
    · cases hmem
    · rcases List.mem_append.1 hmem with hmem | hmem
      · exact h.revoked before between between' rest i r label scope bytes created answer hrest hmem
      · have hev := (List.mem_singleton.1 hmem).symm
        have hsplit : history = before ++ .returned i (.issue label scope bytes created) true ::
            (between ++ .began r (.revoke label) :: between' ++ .returned r (.revoke label) true :: rest) := by
          rw [hrest]
          simp
        exact (hfits _ _ hev).revoked before _ i r label scope bytes created hsplit (by simp) rfl
  · intro before between after i label scope bytes created answer heq hnot
    obtain ⟨-, hev, hrest⟩ | ⟨rest, rfl, hrest⟩ := snoc_eq_split_iff.1 heq
    · exact (hfits _ _ hev.symm).survives before between i label scope bytes created hrest.symm hnot rfl
    · exact h.survives before between rest i label scope bytes created answer hrest hnot
  · intro before after i label scope bytes created presented answer heq hmem
    obtain ⟨rfl, -, -⟩ | ⟨rest, rfl, hrest⟩ := snoc_eq_split_iff.1 heq
    · cases hmem
    · rcases List.mem_append.1 hmem with hmem | hmem
      · exact h.enforced before rest i label scope bytes created presented answer hrest hmem
      · have hev := (List.mem_singleton.1 hmem).symm
        exact (hfits _ _ hev).enforced before rest i label scope bytes created hrest

namespace KeyDir

/-! ### What a credential gets -/

section Authorize

variable {digest : String → String} {dataDir : String} {keys : List Key} {admin : Option String}

theorem generate_isEmpty (bytes : List UInt8) : (Keys.generate bytes).isEmpty = false := by
  have hcons : Keys.generate bytes = String.ofList ('b' :: ("orgk_".toList ++ Keys.base64url bytes)) := rfl
  generalize "orgk_".toList ++ Keys.base64url bytes = rest at hcons
  rw [hcons]
  simp

theorem authorize_ne_open (presented : Option String) :
    Keys.authorize digest dataDir (some (.keys keys)) admin presented ≠ .ok .open := by
  intro heq
  unfold Keys.authorize at heq
  dsimp only [Keys.load] at heq
  split at heq
  · cases heq
  · split_ifs at heq
    · cases heq
    · split at heq <;> cases heq

/-- A key that is no admin token is judged by the file alone. -/
theorem authorize_key (hinj : Function.Injective digest) {bytes : List UInt8}
    (hadmin : Keys.readAdmin admin ≠ some (Keys.generate bytes)) :
    Keys.authorize digest dataDir (some (.keys keys)) admin (some (Keys.generate bytes)) =
      match Keys.matching digest keys (Keys.generate bytes) with
      | none => .error "that credential is not valid for this server"
      | some key => .ok (.granted key.label key.registries) := by
  have hany : ((Keys.readAdmin admin).any fun admin => digest admin = digest (Keys.generate bytes)) = false := by
    cases hr : Keys.readAdmin admin with
    | none => rfl
    | some token =>
      rw [hr] at hadmin
      simpa using fun he => hadmin (congrArg some (hinj he))
  have hfilter : (some (Keys.generate bytes)).filter (fun key => ¬ key.isEmpty) = some (Keys.generate bytes) := by
    simp [Option.filter, generate_isEmpty]
  simp only [Keys.authorize, Keys.load, hfilter, hany]
  cases Keys.matching digest keys (Keys.generate bytes) <;> rfl

theorem authorize_removed (hinj : Function.Injective digest) {bytes : List UInt8}
    (hadmin : Keys.readAdmin admin ≠ some (Keys.generate bytes))
    (hkeys : ∀ key ∈ keys, key.hash ≠ digest (Keys.generate bytes)) (access : Access) :
    Keys.authorize digest dataDir (some (.keys keys)) admin (some (Keys.generate bytes)) ≠ .ok access := by
  have hnone : Keys.matching digest keys (Keys.generate bytes) = none := by
    simpa [Keys.matching] using hkeys
  rw [authorize_key hinj hadmin, hnone]
  nofun

theorem authorize_stored (hinj : Function.Injective digest) {bytes : List UInt8} {key : Key}
    (hadmin : Keys.readAdmin admin ≠ some (Keys.generate bytes)) (hmem : key ∈ keys)
    (hhash : key.hash = digest (Keys.generate bytes))
    (honly : ∀ other ∈ keys, other.hash = digest (Keys.generate bytes) → other = key) :
    Keys.authorize digest dataDir (some (.keys keys)) admin (some (Keys.generate bytes)) =
      .ok (.granted key.label key.registries) := by
  have hsome : (Keys.matching digest keys (Keys.generate bytes)).isSome :=
    List.find?_isSome.2 ⟨key, hmem, by simp [hhash]⟩
  obtain ⟨found, hfound⟩ := Option.isSome_iff_exists.1 hsome
  have heq : found = key := by
    refine honly found (List.mem_of_find?_eq_some hfound) ?_
    simpa using List.find?_some hfound
  rw [authorize_key hinj hadmin, hfound, heq]

end Authorize

/-! ### Invariants of a run -/

def Drew (s : KeyDir) (call : CallId) (label : String) (scope : Scope) (bytes : List UInt8) (created : Nat)
    (step : KeyStep) : Prop := s.calls call = some (.issue label scope bytes created, step)

/-- What holds of a directory whose renames have all been safe. -/
structure Inv (digest : String → String) (s : KeyDir) : Prop where
  /-- A call is to write what its operation makes of the file it has read. -/
  planned : ∀ call op seen keys, s.calls call = some (op, .loaded seen keys) ∨
    s.calls call = some (op, .staged seen keys) → op.apply digest s.dataDir seen = .ok keys
  distinct : ∀ call call' label label' scope scope' bytes bytes' created created' step step',
    s.Drew call label scope bytes created step → s.Drew call' label' scope' bytes' created' step' →
      call ≠ call' → Keys.generate bytes ≠ Keys.generate bytes'
  admin : ∀ call label scope bytes created step, s.Drew call label scope bytes created step →
    Keys.readAdmin s.admin ≠ some (Keys.generate bytes)
  /-- An entry for a call's key is the one that call stored. -/
  entries : ∀ call label scope bytes created step keys, s.Drew call label scope bytes created step →
    s.file = some (.keys keys) → ∀ key ∈ keys, key.hash = digest (Keys.generate bytes) →
      key = KeyOp.entry digest label scope bytes created ∧ step = .done
  returned : ∀ call op, .returned call op true ∈ s.history → s.calls call = some (op, .done)
  /-- An issued key is in the file until it is revoked, and not after. -/
  stored : ∀ before after i label scope bytes created,
    s.history = before ++ .returned i (.issue label scope bytes created) true :: after →
    ∃ keys, s.file = some (.keys keys) ∧
      ((∀ r, .returned r (.revoke label) true ∉ after) →
        KeyOp.entry digest label scope bytes created ∈ keys) ∧
      ∀ r, .returned r (.revoke label) true ∈ after → ∀ key ∈ keys, key.hash ≠ digest (Keys.generate bytes)
  lawful : Lawful s.history

theorem Quiet.inv {s : KeyDir} (h : s.Quiet) : s.Inv digest := by
  have hcall : ∀ call entry, s.calls call ≠ some entry := by
    intro call entry he
    rw [h.calls] at he
    cases he
  refine ⟨?_, ?_, ?_, ?_, ?_, ?_, ?_⟩
  · intro call op seen keys hop
    exact hop.elim (fun he => absurd he (hcall _ _)) fun he => absurd he (hcall _ _)
  · intro _ _ _ _ _ _ _ _ _ _ _ _ hdrew
    exact absurd hdrew (hcall _ _)
  · intro _ _ _ _ _ _ hdrew
    exact absurd hdrew (hcall _ _)
  · intro _ _ _ _ _ _ _ hdrew
    exact absurd hdrew (hcall _ _)
  · intro call op hmem
    rw [h.history] at hmem
    cases hmem
  · intro before after _ _ _ _ _ heq
    rw [h.history] at heq
    simp at heq
  · rw [h.history]
    exact Lawful.nil

theorem Inv.fits (hinj : Function.Injective digest) {s : KeyDir} (h : s.Inv digest)
    (presented : Option String) :
    Fits s.history presented (Keys.authorize digest s.dataDir s.file s.admin presented) := by
  have hdrew : ∀ before after i label scope bytes created,
      s.history = before ++ .returned i (.issue label scope bytes created) true :: after →
        s.Drew i label scope bytes created .done := by
    intro before after i label scope bytes created heq
    refine h.returned i _ ?_
    rw [heq]
    simp
  refine ⟨?_, ?_, ?_⟩
  · intro before after i r label scope bytes created heq hmem hpres access
    obtain ⟨keys, hfile, -, hgone⟩ := h.stored before after i label scope bytes created heq
    rw [hfile, hpres]
    exact authorize_removed hinj (h.admin _ _ _ _ _ _ (hdrew _ _ _ _ _ _ _ heq)) (hgone r hmem) access
  · intro before after i label scope bytes created heq hnot hpres
    obtain ⟨keys, hfile, hkept, -⟩ := h.stored before after i label scope bytes created heq
    have hd := hdrew _ _ _ _ _ _ _ heq
    rw [hfile, hpres]
    refine authorize_stored hinj (h.admin _ _ _ _ _ _ hd) (hkept hnot) rfl ?_
    intro other hother hhash
    exact (h.entries _ _ _ _ _ _ _ hd hfile other hother hhash).1
  · intro before after i label scope bytes created heq
    obtain ⟨keys, hfile, -, -⟩ := h.stored before after i label scope bytes created heq
    rw [hfile]
    exact authorize_ne_open presented

/-! ### What a call writes -/

theorem apply_issue {dataDir label : String} {scope : Scope} {bytes : List UInt8} {created : Nat}
    {file : Option KeysFile} {keys : List Key}
    (h : (KeyOp.issue label scope bytes created).apply digest dataDir file = .ok keys) :
    ∃ old, (file = none ∧ old = [] ∨ file = some (.keys old)) ∧
      keys = old ++ [KeyOp.entry digest label scope bytes created] := by
  rw [KeyOp.apply] at h
  obtain ⟨-, -, h⟩ := Calls.except_bind_eq_ok h
  obtain ⟨loaded, hload, h⟩ := Calls.except_bind_eq_ok h
  have hfile : file = none ∧ loaded.getD [] = [] ∨ file = some (.keys (loaded.getD [])) := by
    cases file with
    | none => cases hload; exact .inl ⟨rfl, rfl⟩
    | some contents =>
      cases contents with
      | keys old => cases hload; exact .inr rfl
      | unreadable err => cases hload
      | unparsable err => cases hload
  refine ⟨_, hfile, ?_⟩
  dsimp only at h
  split_ifs at h
  cases h
  rfl

theorem apply_revoke {dataDir label : String} {file : Option KeysFile} {keys : List Key}
    (h : (KeyOp.revoke label).apply digest dataDir file = .ok keys) :
    ∃ old, file = some (.keys old) ∧ keys = old.filter fun key => key.label ≠ label := by
  rw [KeyOp.apply] at h
  obtain ⟨loaded, hload, h⟩ := Calls.except_bind_eq_ok h
  cases file with
  | none => cases hload; cases h
  | some contents =>
    cases contents with
    | keys old =>
      cases hload
      dsimp only at h
      split_ifs at h
      cases h
      exact ⟨old, rfl, rfl⟩
    | unreadable err => cases hload
    | unparsable err => cases hload

/-! ### One step of a call -/

section Steps

variable {s : KeyDir} {call : CallId} {op : KeyOp} {step step' : KeyStep}

@[simp] theorem setCall_self : (s.setCall call op step).calls call = some (op, step) := by simp [setCall]

theorem setCall_of_ne {other : CallId} (hne : other ≠ call) :
    (s.setCall call op step).calls other = s.calls other := by simp [setCall, hne]

theorem Drew.of_setCall (hop : s.calls call = some (op, step)) {other : CallId} {label : String}
    {scope : Scope} {bytes : List UInt8} {created : Nat} {last : KeyStep}
    (h : (s.setCall call op step').Drew other label scope bytes created last) :
    (other = call ∧ last = step' ∧ s.Drew call label scope bytes created step) ∨
      (other ≠ call ∧ s.Drew other label scope bytes created last) := by
  unfold Drew at h ⊢
  by_cases hne : other = call
  · subst hne
    rw [setCall_self] at h
    cases h
    exact .inl ⟨rfl, rfl, hop⟩
  · rw [setCall_of_ne hne] at h
    exact .inr ⟨hne, h⟩

theorem Drew.exists_of_setCall (hop : s.calls call = some (op, step)) {other : CallId} {label : String}
    {scope : Scope} {bytes : List UInt8} {created : Nat} {last : KeyStep}
    (h : (s.setCall call op step').Drew other label scope bytes created last) :
    ∃ first, s.Drew other label scope bytes created first := by
  obtain ⟨rfl, -, h⟩ | ⟨-, h⟩ := h.of_setCall hop
  · exact ⟨_, h⟩
  · exact ⟨_, h⟩

/-- A call goes on to its next step without touching the file. -/
theorem Inv.stepped (h : s.Inv digest) (hop : s.calls call = some (op, step)) (hstep : step ≠ .done)
    (hplanned : ∀ seen keys, step' = .loaded seen keys ∨ step' = .staged seen keys →
      op.apply digest s.dataDir seen = .ok keys) : (s.setCall call op step').Inv digest := by
  refine ⟨?_, ?_, ?_, ?_, ?_, h.stored, h.lawful⟩
  · intro other op' seen keys hother
    by_cases hne : other = call
    · subst hne
      rw [setCall_self] at hother
      obtain hother | hother := hother
      · cases hother
        exact hplanned seen keys (.inl rfl)
      · cases hother
        exact hplanned seen keys (.inr rfl)
    · rw [setCall_of_ne hne] at hother
      exact h.planned other op' seen keys hother
  · intro i j label label' scope scope' bytes bytes' created created' last last' hi hj hne
    obtain ⟨_, hi⟩ := hi.exists_of_setCall hop
    obtain ⟨_, hj⟩ := hj.exists_of_setCall hop
    exact h.distinct i j label label' scope scope' bytes bytes' created created' _ _ hi hj hne
  · intro i label scope bytes created last hi
    obtain ⟨_, hi⟩ := hi.exists_of_setCall hop
    exact h.admin i label scope bytes created _ hi
  · intro i label scope bytes created last keys hi hfile key hkey hhash
    obtain ⟨rfl, -, hi⟩ | ⟨-, hi⟩ := hi.of_setCall hop
    · exact absurd (h.entries i label scope bytes created step keys hi hfile key hkey hhash).2 hstep
    · exact h.entries i label scope bytes created last keys hi hfile key hkey hhash
  · intro other op' hmem
    have hdone := h.returned other op' hmem
    have hne : other ≠ call := by
      rintro rfl
      rw [hop] at hdone
      cases hdone
      exact hstep rfl
    rw [setCall_of_ne hne, hdone]

theorem Inv.recorded (h : s.Inv digest) {event : Happened}
    (hfail : ∀ call op, event ≠ .returned call op true)
    (hfits : ∀ presented answer, event = .authorized presented answer → Fits s.history presented answer) :
    (s.record event).Inv digest := by
  have hmem : ∀ (events : List Happened) call op,
      .returned call op true ∈ events ++ [event] → .returned call op true ∈ events := by
    intro events call op hin
    obtain hin | hin := List.mem_append.1 hin
    · exact hin
    · exact absurd (List.mem_singleton.1 hin).symm (hfail call op)
  refine ⟨h.planned, h.distinct, h.admin, h.entries, ?_, ?_, h.lawful.snoc hfits⟩
  · intro call op hin
    exact h.returned call op (hmem _ _ _ hin)
  · intro before after i label scope bytes created heq
    obtain ⟨-, hev, -⟩ | ⟨rest, rfl, hrest⟩ := snoc_eq_split_iff.1 heq
    · exact absurd hev.symm (hfail _ _)
    · obtain ⟨keys, hfile, hkept, hgone⟩ := h.stored before rest i label scope bytes created hrest
      refine ⟨keys, hfile, ?_, ?_⟩
      · intro hnot
        exact hkept fun r hr => hnot r (List.mem_append.2 (.inl hr))
      · intro r hr
        exact hgone r (hmem _ _ _ hr)

theorem Inv.failed (h : s.Inv digest) (hop : s.calls call = some (op, step)) (hstep : step ≠ .done)
    (err : BorgError) : (s.fail call op err).Inv digest := by
  refine (h.stepped hop hstep ?_).recorded ?_ ?_
  · intro seen keys he
    exact he.elim nofun nofun
  · intro call' op' he
    cases he
  · intro presented answer he
    cases he

/-! ### The rename -/

section Renames

variable {seen : Option KeysFile} {keys : List Key}

/-- What a rename puts in place is what was there, with the call's own entry or without those it revokes. -/
theorem Inv.written (h : s.Inv digest) (hop : s.calls call = some (op, .staged seen keys))
    (hsame : s.file = seen) {key : Key} (hkey : key ∈ keys) :
    (∃ old, s.file = some (.keys old) ∧ key ∈ old) ∨
      ∃ label scope bytes created, op = .issue label scope bytes created ∧
        key = KeyOp.entry digest label scope bytes created := by
  have happly := h.planned call op seen keys (.inr hop)
  rw [← hsame] at happly
  cases op with
  | issue label scope bytes created =>
    obtain ⟨old, hfile, rfl⟩ := apply_issue happly
    obtain hold | hnew := List.mem_append.1 hkey
    · obtain ⟨-, rfl⟩ | hfile := hfile
      · cases hold
      · exact .inl ⟨old, hfile, hold⟩
    · exact .inr ⟨label, scope, bytes, created, rfl, List.mem_singleton.1 hnew⟩
  | revoke label =>
    obtain ⟨old, hfile, rfl⟩ := apply_revoke happly
    exact .inl ⟨old, hfile, (List.mem_filter.1 hkey).1⟩

/-- An entry that is not the call's own is one that was there. -/
theorem Inv.kept_entry (hinj : Function.Injective digest) (h : s.Inv digest)
    (hop : s.calls call = some (op, .staged seen keys)) (hsame : s.file = seen) {i : CallId} {label : String}
    {scope : Scope} {bytes : List UInt8} {created : Nat} {last : KeyStep} (hne : i ≠ call)
    (hi : s.Drew i label scope bytes created last) {key : Key} (hkey : key ∈ keys)
    (hhash : key.hash = digest (Keys.generate bytes)) : ∃ old, s.file = some (.keys old) ∧ key ∈ old := by
  obtain hold | ⟨label', scope', bytes', created', rfl, rfl⟩ := h.written hop hsame hkey
  · exact hold
  · exact absurd (hinj hhash) (h.distinct call i _ _ _ _ _ _ _ _ _ _ hop hi hne.symm)

def renamed (s : KeyDir) (call : CallId) (op : KeyOp) (contents : KeysFile) : KeyDir :=
  { s.setCall call op .done with file := some contents, staged := none }.record (.returned call op true)

theorem Inv.entries_renamed (hinj : Function.Injective digest) (h : s.Inv digest)
    (hop : s.calls call = some (op, .staged seen keys)) (hsame : s.file = seen) {i : CallId} {label : String}
    {scope : Scope} {bytes : List UInt8} {created : Nat} {last : KeyStep}
    (hi : (s.setCall call op .done).Drew i label scope bytes created last) {key : Key} (hkey : key ∈ keys)
    (hhash : key.hash = digest (Keys.generate bytes)) :
    key = KeyOp.entry digest label scope bytes created ∧ last = .done := by
  obtain ⟨rfl, rfl, hown⟩ | ⟨hne, hi⟩ := hi.of_setCall hop
  · obtain ⟨old, hfile, hold⟩ | ⟨label', scope', bytes', created', rfl, rfl⟩ := h.written hop hsame hkey
    · cases (h.entries i label scope bytes created _ old hown hfile key hold hhash).2
    · unfold Drew at hown
      rw [hop] at hown
      cases hown
      exact ⟨rfl, rfl⟩
  · obtain ⟨old, hfile, hold⟩ := h.kept_entry hinj hop hsame hne hi hkey hhash
    exact h.entries i label scope bytes created last old hi hfile key hold hhash

/-- An issued key is still there after the rename of another call that does not revoke it. -/
theorem Inv.kept_renamed (h : s.Inv digest) (hop : s.calls call = some (op, .staged seen keys))
    (hsame : s.file = seen) {old : List Key} (hfile : s.file = some (.keys old)) {key : Key}
    (hkey : key ∈ old) (hnot : op ≠ .revoke key.label) : key ∈ keys := by
  have happly := h.planned call op seen keys (.inr hop)
  rw [← hsame, hfile] at happly
  cases op with
  | issue label scope bytes created =>
    obtain ⟨old', ⟨hnone, -⟩ | heq, rfl⟩ := apply_issue happly
    · cases hnone
    · cases heq
      exact List.mem_append.2 (.inl hkey)
  | revoke label =>
    obtain ⟨old', heq, rfl⟩ := apply_revoke happly
    cases heq
    refine List.mem_filter.2 ⟨hkey, ?_⟩
    have hlabel : key.label ≠ label := fun he => hnot (by rw [he])
    simpa using hlabel

theorem Inv.stored_renamed (hinj : Function.Injective digest) (h : s.Inv digest)
    (hop : s.calls call = some (op, .staged seen keys)) (hsame : s.file = seen)
    {before after : List Happened} {i : CallId} {label : String} {scope : Scope} {bytes : List UInt8}
    {created : Nat}
    (heq : s.history ++ [.returned call op true] =
      before ++ .returned i (.issue label scope bytes created) true :: after) :
    ((∀ r, .returned r (.revoke label) true ∉ after) →
        KeyOp.entry digest label scope bytes created ∈ keys) ∧
      ∀ r, .returned r (.revoke label) true ∈ after → ∀ key ∈ keys, key.hash ≠ digest (Keys.generate bytes) := by
  have happly := h.planned call op seen keys (.inr hop)
  obtain ⟨rfl, hev, -⟩ | ⟨rest, rfl, hrest⟩ := snoc_eq_split_iff.1 heq
  · cases hev
    obtain ⟨old, -, rfl⟩ := apply_issue happly
    refine ⟨?_, ?_⟩
    · intro _
      simp
    · intro r hr
      cases hr
  · obtain ⟨old, hfile, hkept, hgone⟩ := h.stored before rest i label scope bytes created hrest
    have hi : s.Drew i label scope bytes created .done := by
      refine h.returned i _ ?_
      rw [hrest]
      simp
    have hne : i ≠ call := by
      rintro rfl
      unfold Drew at hi
      rw [hop] at hi
      cases hi
    refine ⟨?_, ?_⟩
    · intro hnot
      refine h.kept_renamed hop hsame hfile (hkept fun r hr => hnot r (List.mem_append.2 (.inl hr))) ?_
      rintro rfl
      exact hnot call (by simp [KeyOp.entry])
    · intro r hr key hkey hhash
      obtain ⟨old', hfile', hold⟩ := h.kept_entry hinj hop hsame hne hi hkey hhash
      rw [hfile] at hfile'
      cases hfile'
      obtain hr | hr := List.mem_append.1 hr
      · exact hgone r hr key hold hhash
      · cases List.mem_singleton.1 hr
        obtain ⟨old', -, rfl⟩ := apply_revoke happly
        have hentry := (h.entries i label scope bytes created _ old hi hfile key hold hhash).1
        have hlabel : key.label ≠ label := by simpa using (List.mem_filter.1 hkey).2
        exact hlabel (by rw [hentry]; rfl)

theorem Inv.renamed (hinj : Function.Injective digest) (h : s.Inv digest)
    (hop : s.calls call = some (op, .staged seen keys)) (hsame : s.file = seen) :
    (s.renamed call op (.keys keys)).Inv digest := by
  have hstep : (s.setCall call op .done).Inv digest :=
    h.stepped hop (by intro he; cases he) (fun _ _ he => he.elim nofun nofun)
  refine ⟨hstep.planned, hstep.distinct, hstep.admin, ?_, ?_, ?_, ?_⟩
  · intro i label scope bytes created last keys' hi hfile key hkey hhash
    cases hfile
    exact h.entries_renamed hinj hop hsame hi hkey hhash
  · intro other op' hmem
    obtain hmem | hmem := List.mem_append.1 hmem
    · exact hstep.returned other op' hmem
    · cases List.mem_singleton.1 hmem
      exact setCall_self
  · intro before after i label scope bytes created heq
    obtain ⟨hkept, hgone⟩ := h.stored_renamed hinj hop hsame heq
    exact ⟨keys, rfl, hkept, hgone⟩
  · refine h.lawful.snoc ?_
    intro presented answer he
    cases he

end Renames

end Steps

/-! ### Every run -/

section Runs

variable {s : KeyDir}

/-- A call begins, and the key it will store is new. -/
theorem Inv.begun (h : s.Inv digest) {call : CallId} {op : KeyOp}
    (hnone : s.calls call = none) (hdrawn : s.Drawn digest (.begin call op)) :
    (s.setCall call op .started).Inv digest := by
  have hold : ∀ other label scope bytes created step,
      (s.setCall call op .started).Drew other label scope bytes created step →
        (other = call ∧ op = .issue label scope bytes created) ∨
          (other ≠ call ∧ s.Drew other label scope bytes created step) := by
    intro other label scope bytes created step hi
    unfold Drew at hi ⊢
    by_cases hne : other = call
    · subst hne
      rw [setCall_self] at hi
      cases hi
      exact .inl ⟨rfl, rfl⟩
    · rw [setCall_of_ne hne] at hi
      exact .inr ⟨hne, hi⟩
  refine ⟨?_, ?_, ?_, ?_, ?_, h.stored, h.lawful⟩
  · intro other op' seen keys hop
    by_cases hne : other = call
    · subst hne
      rw [setCall_self] at hop
      exact hop.elim nofun nofun
    · rw [setCall_of_ne hne] at hop
      exact h.planned other op' seen keys hop
  · intro i j label label' scope scope' bytes bytes' created created' step step' hi hj hne
    obtain ⟨rfl, rfl⟩ | ⟨-, hold_i⟩ := hold _ _ _ _ _ _ hi
    · obtain ⟨rfl, -⟩ | ⟨-, hold_j⟩ := hold _ _ _ _ _ _ hj
      · exact absurd rfl hne
      · exact (hdrawn.1 j label' scope' bytes' created' step' hold_j).symm
    · obtain ⟨rfl, rfl⟩ | ⟨-, hold_j⟩ := hold _ _ _ _ _ _ hj
      · exact hdrawn.1 i label scope bytes created step hold_i
      · exact h.distinct i j label label' scope scope' bytes bytes' created created' step step' hold_i hold_j
          hne
  · intro i label scope bytes created step hi
    obtain ⟨rfl, rfl⟩ | ⟨-, hi⟩ := hold _ _ _ _ _ _ hi
    · exact hdrawn.2.2
    · exact h.admin i label scope bytes created step hi
  · intro i label scope bytes created step keys hi hfile key hkey hhash
    obtain ⟨rfl, rfl⟩ | ⟨-, hi⟩ := hold _ _ _ _ _ _ hi
    · exact absurd hhash (hdrawn.2.1 keys hfile key hkey)
    · exact h.entries i label scope bytes created step keys hi hfile key hkey hhash
  · intro other op' hmem
    have hdone := h.returned other op' hmem
    have hne : other ≠ call := by
      rintro rfl
      rw [hnone] at hdone
      cases hdone
    rw [setCall_of_ne hne, hdone]

theorem Inv.token (h : s.Inv digest) {admin : Option String}
    (hadmin : ∀ call label scope bytes created step, s.Drew call label scope bytes created step →
      Keys.readAdmin admin ≠ some (Keys.generate bytes)) : { s with admin }.Inv digest :=
  ⟨h.planned, h.distinct, hadmin, h.entries, h.returned, h.stored, h.lawful⟩

theorem Inv.staging (h : s.Inv digest) (staged : Option KeysFile) : { s with staged }.Inv digest :=
  ⟨h.planned, h.distinct, h.admin, h.entries, h.returned, h.stored, h.lawful⟩

theorem Inv.next (hinj : Function.Injective digest) (h : s.Inv digest) {action : KeyAction}
    (hsafe : s.Safe action) (hdrawn : s.Drawn digest action) : (s.next digest action).Inv digest := by
  cases action with
  | begin call op =>
    simp only [KeyDir.next]
    split
    · rename_i hnone
      exact (h.begun hnone hdrawn).recorded (fun _ _ he => by cases he) fun _ _ he => by cases he
    · exact h
  | read call =>
    simp only [KeyDir.next]
    split
    · rename_i op hop
      split
      · rename_i keys happly
        refine h.stepped hop (by intro he; cases he) ?_
        intro seen keys' he
        obtain he | he := he
        · cases he
          exact happly
        · cases he
      · exact h.failed hop (by intro he; cases he) _
    · exact h
  | stage call ending =>
    simp only [KeyDir.next]
    split
    · rename_i op seen keys hop
      split
      · refine Inv.staging (h.stepped hop (by intro he; cases he) ?_) _
        intro seen' keys' he
        obtain he | he := he
        · cases he
        · cases he
          exact h.planned call op seen keys (.inl hop)
      · rename_i left
        exact (h.staging left).failed hop (by intro he; cases he) _
    · exact h
  | rename call ending =>
    simp only [KeyDir.next]
    split
    · rename_i op seen keys hop
      split
      · rename_i contents hstaged
        simp only [Safe, hop, hstaged] at hsafe
        obtain ⟨hsame, rfl⟩ := hsafe
        exact h.renamed hinj hop hsame
      · exact h.failed hop (by intro he; cases he) _
      · exact h.failed hop (by intro he; cases he) _
    · exact h
  | authorize presented =>
    refine h.recorded ?_ ?_
    · intro call op he
      cases he
    · intro presented' answer he
      cases he
      exact h.fits hinj presented
  | mint bytes => exact h.token hdrawn
  | clear =>
    refine h.token ?_
    intro _ _ _ _ _ _ _ he
    cases he

theorem Inv.run (hinj : Function.Injective digest) {actions : List KeyAction} (h : s.Inv digest)
    (hdrawn : Machine.Along (KeyDir.next digest) (Drawn digest) s actions)
    (hsafe : Machine.Along (KeyDir.next digest) Safe s actions) :
    (s.run digest actions).Inv digest := by
  refine Machine.foldl_keeps ?_ h (hdrawn.and hsafe)
  rintro t action ht ⟨hnew, hstep⟩
  exact ht.next hinj hstep hnew

/-- Revocation is final and issued keys survive, where renames put in place what was staged over what
was read. -/
theorem run_lawful (hinj : Function.Injective digest) (hquiet : s.Quiet) {actions : List KeyAction}
    (hdrawn : Machine.Along (KeyDir.next digest) (Drawn digest) s actions)
    (hsafe : Machine.Along (KeyDir.next digest) Safe s actions) :
    Lawful (s.run digest actions).history :=
  (hquiet.inv.run hinj hdrawn hsafe).lawful

end Runs

def bare : KeyDir := ⟨"/data", none, none, none, fun _ => none, []⟩

theorem bare_quiet : bare.Quiet := ⟨fun _ => rfl, rfl⟩

def drawn : List UInt8 := List.replicate 32 7

/-- A key is issued, presented, revoked and presented again. -/
def issuedRevoked : List KeyAction :=
  [.begin 0 (.issue "ci" .all drawn 1), .read 0, .stage 0 .well, .rename 0 .well,
    .authorize (some (Keys.generate drawn)), .begin 1 (.revoke "ci"), .read 1, .stage 1 .well,
    .rename 1 .well, .authorize (some (Keys.generate drawn))]

theorem run_lawful_issuedRevoked : Lawful (bare.run id issuedRevoked).history := by
  refine run_lawful Function.injective_id bare_quiet ?_ ?_
  · refine ⟨⟨?_, ?_, ?_⟩, trivial, trivial, trivial, trivial, trivial, trivial, trivial, trivial, trivial,
      trivial⟩
    · intro _ _ _ _ _ _ he
      cases he
    · intro _ he
      cases he
    · intro he
      cases he
  · exact ⟨trivial, trivial, trivial, ⟨rfl, rfl⟩, trivial, trivial, trivial, trivial, ⟨rfl, rfl⟩, trivial,
      trivial⟩

def redrawn : List UInt8 := List.replicate 32 8

/-- A key is revoked while another is being issued over the file that still held it. -/
def undone : List KeyAction :=
  [.begin 0 (.issue "ci" .all drawn 1), .read 0, .stage 0 .well, .rename 0 .well,
    .begin 2 (.issue "web" .all redrawn 2), .read 2, .begin 1 (.revoke "ci"), .read 1, .stage 1 .well,
    .rename 1 .well, .stage 2 .well, .rename 2 .well, .authorize (some (Keys.generate drawn))]

theorem undone_history : (bare.run id undone).history =
    [.began 0 (.issue "ci" .all drawn 1)] ++ .returned 0 (.issue "ci" .all drawn 1) true ::
      [.began 2 (.issue "web" .all redrawn 2)] ++ .began 1 (.revoke "ci") :: [] ++
        .returned 1 (.revoke "ci") true ::
          [.returned 2 (.issue "web" .all redrawn 2) true,
            .authorized (some (Keys.generate drawn)) (.ok (.granted "ci" .all))] := by
  decide +kernel

theorem generate_drawn_ne : Keys.generate drawn ≠ Keys.generate redrawn := by decide +kernel

theorem undone_drawn : Machine.Along (KeyDir.next id) (Drawn id) bare undone := by
  refine ⟨⟨?_, ?_, ?_⟩, trivial, trivial, trivial, ⟨?_, ?_, ?_⟩, trivial, trivial, trivial, trivial, trivial,
    trivial, trivial, trivial, trivial⟩
  · intro _ _ _ _ _ _ he
    cases he
  · intro _ he
    cases he
  · intro he
    cases he
  · intro call label scope bytes created step he
    cases call with
    | zero => cases he; exact generate_drawn_ne
    | succ other => cases he
  · intro keys he key hkey
    cases he
    cases List.mem_singleton.1 hkey
    exact generate_drawn_ne
  · intro he
    cases he

/-- A revocation is not final when another key is being issued meanwhile. -/
theorem revocation_undone : ¬ ∀ (digest : String → String) (s : KeyDir) (actions : List KeyAction),
    Function.Injective digest → s.Quiet → Machine.Along (KeyDir.next digest) (Drawn digest) s actions →
      Lawful (s.run digest actions).history := by
  intro h
  have hlaw := h id bare undone Function.injective_id bare_quiet undone_drawn
  exact hlaw.revoked _ _ _ _ _ _ _ _ _ _ (.ok (.granted "ci" .all)) undone_history (by simp) _ rfl

end KeyDir

end BorgCore
