import BorgCore.Lib.Calls
import BorgCore.Storage.Sqlite

/-!
# What the text columns carry

serde_json does not read everything back as it was written: the text of an infinite double is `null`, which is
no double, and a finite one can come back next to what it was.  Where every text of the tables is read back as
what it was written from, reads go by the tables as they are.
-/

namespace BorgCore

/-- Two answers are the same rows in some order, or neither is there. -/
def SameRows {ε α : Type} : Except ε (List α) → Except ε (List α) → Prop
  | .ok rows, .ok rows' => rows.Perm rows'
  | .error _, .error _ => True
  | _, _ => False

namespace SameRows

variable {ε α β : Type} {answer answer' answer'' : Except ε (List α)} {as as' : List α}

theorem refl (answer : Except ε (List α)) : SameRows answer answer := by
  cases answer with
  | ok rows => exact List.Perm.refl rows
  | error err => trivial

theorem trans (h : SameRows answer answer') (h' : SameRows answer' answer'') : SameRows answer answer'' := by
  cases answer <;> cases answer' <;> cases answer'' <;> first | exact h.elim | exact h'.elim | skip
  · trivial
  · exact List.Perm.trans h h'

/-- A question is asked of each row, in whatever order. -/
theorem mapM (question : α → Except ε β) (h : as.Perm as') : SameRows (as.mapM question) (as'.mapM question) := by
  induction h with
  | nil => exact .refl _
  | cons a _ ih =>
    rw [List.mapM_cons, List.mapM_cons]
    cases question a with
    | error err => trivial
    | ok b =>
      revert ih
      cases List.mapM question _ <;> cases List.mapM question _ <;> intro ih
      · trivial
      · exact ih
      · exact ih
      · exact List.Perm.cons b ih
  | swap a b as =>
    simp only [List.mapM_cons]
    cases question a <;> cases question b <;> cases List.mapM question as <;> first | trivial | exact .swap ..
  | trans _ _ ih ih' => exact ih.trans ih'

end SameRows

theorem mapM_of_forall {ε α : Type} {question : α → Except ε α} {as : List α}
    (h : ∀ a ∈ as, question a = .ok a) : as.mapM question = .ok as := by
  induction as with
  | nil => rfl
  | cons a as ih =>
    rw [List.mapM_cons, h a List.mem_cons_self, ih fun b hb => h b (List.mem_cons_of_mem _ hb)]
    rfl

namespace Texts

variable {texts : Texts} {db : Database}

/-- Every text that a read of committed layers goes by is read back as what it was written from; a layer's
metadata is, whatever its state. -/
structure Legible (texts : Texts) (db : Database) : Prop where
  events : ∀ {layer event}, db.isCommitted layer → event ∈ db.readLayer layer → texts.toEvent event = .ok event
  defs : ∀ {layer event}, db.isCommitted layer → event ∈ db.readDefLayer layer →
    texts.defEvent.carry event = .ok event
  layers : ∀ {id row layer}, db.layers.lookup id = some row → row.metadata = some layer →
    ∀ state, texts.layer.carry { layer with state } = .ok { layer with state }
  branches : ∀ {id branch}, db.branches.lookup id = some branch → texts.branch.carry branch = .ok branch

theorem Legible.readLayer (h : texts.Legible db) {layer : LayerId} (hc : db.isCommitted layer) :
    texts.readLayer db layer = .ok (db.readLayer layer) := mapM_of_forall fun _ hin => h.events hc hin

theorem Legible.readDefLayer (h : texts.Legible db) {layer : LayerId} (hc : db.isCommitted layer) :
    texts.readDefLayer db layer = .ok (db.readDefLayer layer) := mapM_of_forall fun _ hin => h.defs hc hin

theorem Legible.readLayers (h : texts.Legible db) : texts.readLayers db = .ok db.readLayers := by
  have hrows (rows : List (LayerRow × Layer)) (hcarried : ∀ row ∈ rows, texts.layer.carry row.2 = .ok row.2) :
      (rows.mapM fun row => do return { ← texts.layer.carry row.2 with state := row.1.state.layerState } :
        Except BorgError (List Layer)) =
        .ok (rows.map fun row => { row.2 with state := row.1.state.layerState }) := by
    induction rows with
    | nil => rfl
    | cons row rows ih =>
      rw [List.mapM_cons, ih fun other hin => hcarried other (List.mem_cons_of_mem _ hin),
        hcarried row List.mem_cons_self]
      rfl
  refine (hrows _ fun row hin => ?_).trans ?_
  · obtain ⟨id, -, hrow⟩ := List.mem_filterMap.1 hin
    obtain ⟨found, hl, hmap⟩ := Option.bind_eq_some_iff.1 hrow
    obtain ⟨layer, hmeta, rfl⟩ := Option.map_eq_some_iff.1 hmap
    exact h.layers hl hmeta layer.state
  · unfold describedRows Database.readLayers Database.LayerRow.layer
    rw [List.map_filterMap]
    simp only [Option.map_bind, Function.comp_def, Option.map_map]

theorem Legible.readBranches (h : texts.Legible db) : texts.readBranches db = .ok db.readBranches := by
  refine mapM_of_forall fun branch hin => ?_
  obtain ⟨id, hl⟩ := AssocMap.mem_values.1 hin
  exact h.branches hl

end Texts

end BorgCore
