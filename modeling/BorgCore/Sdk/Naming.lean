import BorgCore.Core.BigIntCodec
import BorgCore.Engine.Migrations
import BorgCore.Sdk.Template

/-!
# What names a schema can hold

A def push takes every name there is: a view is only folded from declarations that do not collide.  So a schema as it
is sent has one struct to a name, and its version, the versions of its fields and the producers of its fields are
printed from numbers.  That its names are names is for who pushes them to see to.
-/

namespace BorgCore

namespace Generate

/-! ### Schemas as they are sent -/

structure FieldDef.Sent (field : FieldDef) : Prop where
  version : ∃ layer : LayerId, field.version = s!"L{layer}"
  derivedBy : ∀ text ∈ field.derivedBy, ∃ producer : ProducerId, text = s!"P{producer}"

/-- A schema that a server can send. -/
structure Held (schema : SchemaDef) : Prop where
  version : ∃ layer : LayerId, schema.version = s!"L{layer}"
  nodup : (schema.structs.map StructDef.name).Nodup
  sent : ∀ object ∈ schema.structs, ∀ field ∈ object.fields, field.Sent

/-- A text that stays on its line. -/
def Unbroken (text : String) : Prop := ∀ c ∈ text.toList, c ≠ '\n' ∧ c ≠ '\r'

/-- The names that a module declares and imports for itself. -/
def claimed (schema : SchemaDef) : List String :=
  let structs := sorted schema
  ["CLIENT_VERSION", "createBorgContext", "connect", "defineStruct"] ++ importedValues structs ++
    ["BorgContext", "BorgContextOptions"] ++ (if anyReference structs then ["Ref"] else []) ++ ["StructDescriptor"]

/-- A schema whose names can be carried: a struct is named by a name that is not reserved and not claimed, no name of
a field and no type goes on to another line, and no type closes a comment. -/
structure WellNamed (unicode : EcmaScript.Unicode) (schema : SchemaDef) : Prop where
  identifiers : ∀ object ∈ schema.structs, EcmaScript.isIdentifierName unicode object.name.toList = true ∧
    EcmaScript.isReserved object.name.toList = false
  free : ∀ object ∈ schema.structs, object.name ∉ claimed schema
  unbroken : ∀ object ∈ schema.structs, ∀ field ∈ object.fields, Unbroken field.name ∧ Unbroken field.ty
  unclosed : ∀ object ∈ schema.structs, ∀ field ∈ object.fields, ¬ EcmaScript.close <:+: field.ty.toList

/-! ### Folded views -/

end Generate

namespace DefView

variable {view view' : DefView} {layer : LayerId} {event : DefEvent}

def Named (view : DefView) : Prop :=
  ∀ (name : ObjectTypeName) (object : ObjectDef), view.objects.lookup name = some object → object.name = name

theorem Named.setField {structName : ObjectTypeName} {object : ObjectDef} (h : view.Named)
    (hname : object.name = structName) (field : FieldName) (declared : Option FieldDef) :
    (view.setField structName object field declared).Named := by
  intro name found hl
  simp only [DefView.setField, AssocMap.lookup_insert_eq] at hl
  split at hl
  · cases hl
    rename_i heq
    exact hname.trans heq.symm
  · exact h name found hl

theorem Named.apply (h : view.Named) (ha : view.apply event layer = .ok view') : view'.Named := by
  cases event with
  | declareField structName field ty repo ownership =>
    have hname : ((view.objects.lookup structName).getD ⟨structName, ∅⟩).name = structName := by
      cases hl : view.objects.lookup structName with
      | none => rfl
      | some object => exact h structName object hl
    simp only [DefView.apply] at ha
    split at ha
    · split at ha
      · cases ha
        exact h
      · cases ha
    · cases ha
      exact h.setField hname _ _
  | mutateField structName field ty repo up down =>
    simp only [DefView.apply] at ha
    split at ha
    · cases ha
    · rename_i object hl
      split at ha
      · cases ha
      · rename_i existing hexisting
        split at ha
        · cases ha
        · split at ha
          · cases ha
          · cases ha
            exact h.setField (h structName object hl) field (some { existing with ty := ty, version := layer })
  | deleteField structName field repo =>
    simp only [DefView.apply] at ha
    split at ha
    · cases ha
      exact h
    · rename_i object hl
      split at ha
      · split at ha
        · cases ha
        · cases ha
          exact h.setField (h structName object hl) _ _
      · cases ha
        exact h.setField (h structName object hl) _ _
  | pushProducer definition =>
    cases ha
    exact h

theorem Folded.named (h : view.Folded) : view.Named := by
  obtain ⟨stream, -, hfolded⟩ := h
  have hrun : ∀ (stream : List (LayerId × DefEvent)) {view view' : DefView}, view.Named →
      foldEvents stream view = .ok view' → view'.Named := by
    intro stream
    induction stream with
    | nil =>
      intro view view' h ha
      cases ha
      exact h
    | cons entry rest ih =>
      intro view view' h ha
      obtain ⟨next, hnext, hrest⟩ := foldEvents_cons_ok.1 ha
      exact ih (h.apply hnext) hrest
  refine hrun stream (fun name object hl => ?_) hfolded
  rw [empty, AssocMap.lookup_empty] at hl
  cases hl

end DefView

namespace Generate

/-- What a server sends of a view that was folded from accepted pushes is a schema as it is sent. -/
theorem held_schemaDef {view : DefView} (h : view.Folded) (version : LayerId) : Held (schemaDef version view) where
  version := ⟨version, rfl⟩
  nodup := by
    have hkeys : view.objects.values.map ObjectDef.name = view.objects.keys :=
      AssocMap.map_values fun hl => h.named _ _ hl
    have hnodup : (view.objects.values.map ObjectDef.name).Nodup := by
      rw [hkeys]
      exact view.objects.keys_nodup
    rw [schemaDef, List.map_map]
    exact ((List.perm_insertionSort _ _).map _).nodup_iff.2 hnodup
  sent := by
    intro object hobject field hfield
    obtain ⟨declared, -, rfl⟩ := List.mem_map.1 hobject
    obtain ⟨declared, -, rfl⟩ := List.mem_map.1 hfield
    refine ⟨⟨_, rfl⟩, fun text htext => ?_⟩
    simp only [Option.mem_def] at htext
    split at htext
    · cases htext
      exact ⟨_, rfl⟩
    · cases htext

end Generate

end BorgCore
