import BorgCore.Lib.Reconcile
import BorgCore.Engine.Fold
import BorgCore.Ops.Push

/-!
# What a repo asks for

A description asks for producers and for fields, and a view gives what is asked for or does not.  The diff is
these wishes in their order, each with the event that it emits against the view the push started from.
-/

namespace BorgCore

namespace Repo

inductive Wish where
  | producer (next : ProducerDef)
  | field (key : FieldKey) (ty : ValueType) (owner up down : Option ProducerId)
deriving DecidableEq

namespace Wish

/-- Whether a view gives it.  A producer described without a fingerprint asks for none. -/
def Met (repo : RepoId) (view : DefView) : Wish → Prop
  | .producer next => ∃ standing, view.producers.lookup next.id = some standing ∧
      standing.kind = next.kind ∧ standing.source = next.source ∧
      standing.declaringRepo = next.declaringRepo ∧
      ∀ fingerprint, next.fingerprint = some fingerprint → standing.fingerprint = some fingerprint
  | .field key ty owner _ _ => ∃ declared, view.declared key = some declared ∧ declared.ty = ty ∧
      declared.ownership = ownership owner ∧ declared.declaringRepo = repo

/-- What a push emits for it, where it does not refuse it. -/
def event (repo : RepoId) (view : DefView) : Wish → Option DefEvent
  | .producer next =>
    if producerChange (view.producers.lookup next.id) next = .unchanged then none
    else some (.pushProducer next)
  | .field key ty owner up down =>
    match view.declared key with
    | some existing =>
      if existing.ty ≠ ty then up.map fun up => .mutateField key.1 key.2 ty repo up down
      else if existing.declaringRepo = repo ∧ existing.ownership = ownership owner then none
      else some (.declareField key.1 key.2 ty repo (ownership owner))
    | none => some (.declareField key.1 key.2 ty repo (ownership owner))

end Wish

/-! ### What a description asks for -/

section Wishes

variable (files : Files) (repo : RepoId) (scripts : List Script)

/-- The migration a field names, as it is described. -/
def migrationDefs (structName : ObjectTypeName) (field : FieldName) (direction : MigrationDirection)
    (name : Option String) : List ProducerDef :=
  (name.bind fun name => (findMigration scripts name).map fun (script, spec) =>
    migrationDef files repo structName field direction script spec name).toList

/-- What a field asks for: its migrations, and then itself. -/
def fieldWishes (structName : ObjectTypeName) (field : FieldSpec) : List Wish :=
  (migrationDefs files repo scripts structName field.name .up field.up).map .producer ++
    (migrationDefs files repo scripts structName field.name .down field.down).map .producer ++
      [.field (structName, field.name) (valueType field.ty) (field.derivedBy.map producerId)
        (field.up.map producerId) (field.down.map producerId)]

/-- Everything a repo asks for, in the order it is diffed. -/
def wishes : List Wish :=
  (pipelines scripts).map (fun (script, spec) => .producer (pipelineDef files repo script spec)) ++
    (fields scripts).flatMap fun (structName, field) => fieldWishes files repo scripts structName field

/-- The producers among what is asked for. -/
def Wish.next : Wish → Option ProducerDef
  | .producer next => some next
  | .field .. => none

/-- Every definition a repo describes: its pipelines, and its migrations in every role they are named in. -/
def definitions : List ProducerDef := (wishes files repo scripts).filterMap Wish.next

/-- Where a migration that a field names is implemented. -/
def migrationImpls (structName : ObjectTypeName) (name : Option String) : List Implementation :=
  (name.bind fun name => (findMigration scripts name).map fun (script, _) =>
    ⟨producerId name, name, structName, files.canonicalize script.1, script.2.transport⟩).toList

/-- Where everything a repo describes is implemented, in the order it is remembered. -/
def implementations : List Implementation :=
  (pipelines scripts).map (fun (script, spec) => ⟨producerId spec.name, spec.name, spec.source,
      files.canonicalize script.1, script.2.transport⟩) ++
    (fields scripts).flatMap fun (structName, field) =>
      migrationImpls files scripts structName field.up ++ migrationImpls files scripts structName field.down

def Resolves (name : Option String) : Prop := ∀ owner, name = some owner → owner ∈ known scripts

def Implements (name : Option String) : Prop :=
  ∀ owner, name = some owner → owner ∈ known scripts ∧ (findMigration scripts owner).isSome

end Wishes

/-! ### What is met emits nothing -/

variable {files : Files} {repo : RepoId} {scripts : List Script} {view view' : DefView} {next : ProducerDef}

theorem producerChange_eq_unchanged {existing : Option ProducerDef} :
    producerChange existing next = .unchanged ↔ ∃ standing, existing = some standing ∧
      standing.kind = next.kind ∧ standing.source = next.source ∧
      standing.declaringRepo = next.declaringRepo ∧
      ∀ fingerprint, next.fingerprint = some fingerprint → standing.fingerprint = some fingerprint := by
  cases existing with
  | none => simp [producerChange]
  | some standing =>
    simp only [producerChange, Option.some.injEq, exists_eq_left']
    by_cases hshape : standing.kind ≠ next.kind ∨ standing.source ≠ next.source ∨
        standing.declaringRepo ≠ next.declaringRepo
    · rw [if_pos hshape]
      grind
    · rw [if_neg hshape]
      push Not at hshape
      cases hstanding : standing.fingerprint <;> cases hnext : next.fingerprint <;> simp [hshape]

/-- A producer is met where the diff finds it unchanged. -/
theorem met_producer : (Wish.producer next).Met repo view ↔
    producerChange (view.producers.lookup next.id) next = .unchanged :=
  producerChange_eq_unchanged.symm

theorem event_of_met {wish : Wish} (h : wish.Met repo view) : wish.event repo view = none := by
  cases wish with
  | producer next => exact if_pos (met_producer.1 h)
  | field key ty owner up down =>
    obtain ⟨declared, hdeclared, hty, howner, hrepo⟩ := h
    simp only [Wish.event, hdeclared]
    rw [if_neg (not_not.2 hty), if_pos ⟨hrepo, howner⟩]

end Repo

end BorgCore
