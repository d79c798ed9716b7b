import BorgCore.Core.Layer

/-!
# The cell-touch index

Which layers wrote a cell: what a guard is checked against.  Only source layers are recorded, since a
guard may name source cells only.
-/

namespace BorgCore

structure CellTouchIndex where
  cells : AssocMap (BranchId × CellRef) (List LayerId)
  /-- The highest layer recorded on each branch. -/
  highest : AssocMap BranchId LayerId

namespace CellTouchIndex

def new : CellTouchIndex := ⟨∅, ∅⟩

/-- Append a layer to the history of one cell, once however often the layer wrote it. -/
def touch (layer : LayerId) (history : List LayerId) : List LayerId :=
  if history.getLast? = some layer then history else history ++ [layer]

def record (touches : CellTouchIndex) (branch : BranchId) (layer : LayerId)
    (cells : List CellRef) : CellTouchIndex where
  highest := touches.highest.insert branch (max layer (touches.highest.getD branch layer))
  cells := cells.foldl (fun into cell =>
    into.insert (branch, cell) (touch layer (into.getD (branch, cell) []))) touches.cells

def apply (touches : CellTouchIndex) (layer : Layer) (events : List Event) : CellTouchIndex :=
  if layer.author.isSource then touches.record layer.branch layer.id (events.map Event.cell)
  else touches

/-- Whether anything has been written along this path since that layer: the cheap question a large
guard set is asked first. -/
def movedSince (touches : CellTouchIndex) (path : ReadPath) (since : LayerId) : Bool :=
  path.segments.any fun (branch, bound) =>
    match touches.highest.lookup branch with
    | some layer => decide (since < layer ∧ layer ≤ bound)
    | none => false

/-- The earliest layer of the path that touched a cell since that layer. -/
def lookup (touches : CellTouchIndex) (path : ReadPath) (cell : CellRef) (since : LayerId) :
    Option LayerId :=
  (path.segments.flatMap fun (branch, bound) =>
    (touches.cells.getD (branch, cell) []).filter fun layer => since < layer ∧ layer ≤ bound).min?

/-- The first cell of the set that was touched since that layer, and the layer that did it. -/
def firstTouchedSince (touches : CellTouchIndex) (path : ReadPath) (cells : List CellRef)
    (since : LayerId) : Option (CellRef × LayerId) :=
  cells.findSome? fun cell => (touches.lookup path cell since).map fun layer => (cell, layer)

variable {touches : CellTouchIndex} {branch branch' : BranchId} {layer id : LayerId} {cell : CellRef}

theorem mem_touch {history : List LayerId} : id ∈ touch layer history ↔ id ∈ history ∨ id = layer := by
  unfold touch
  split
  · rename_i h
    constructor
    · exact Or.inl
    · rintro (h' | rfl)
      · exact h'
      · exact List.mem_of_getLast? h
  · simp

theorem mem_record (cells : List CellRef) :
    id ∈ (touches.record branch layer cells).cells.getD (branch', cell) [] ↔
      id ∈ touches.cells.getD (branch', cell) [] ∨ branch' = branch ∧ id = layer ∧ cell ∈ cells := by
  unfold record
  simp only
  generalize touches.cells = into
  induction cells generalizing into with
  | nil => simp
  | cons head rest ih =>
    rw [List.foldl_cons, ih, AssocMap.getD_insert]
    by_cases hkey : (branch', cell) = (branch, head)
    · obtain ⟨rfl, rfl⟩ := Prod.mk.inj hkey
      rw [if_pos rfl, mem_touch]
      constructor
      · rintro ((h | h) | ⟨_, h, hm⟩)
        · exact Or.inl h
        · exact Or.inr ⟨rfl, h, List.mem_cons_self⟩
        · exact Or.inr ⟨rfl, h, List.mem_cons_of_mem _ hm⟩
      · rintro (h | ⟨_, h, _⟩)
        · exact Or.inl (Or.inl h)
        · exact Or.inl (Or.inr h)
    · rw [if_neg hkey]
      have hne : branch' = branch → cell ≠ head := fun hb hc => hkey (by rw [hb, hc])
      constructor
      · rintro (h | ⟨hb, h, hm⟩)
        · exact Or.inl h
        · exact Or.inr ⟨hb, h, List.mem_cons_of_mem _ hm⟩
      · rintro (h | ⟨hb, h, hm⟩)
        · exact Or.inl h
        · exact Or.inr ⟨hb, h, (List.mem_cons.1 hm).resolve_left (hne hb)⟩

theorem highest_record (cells : List CellRef) :
    (touches.record branch layer cells).highest.lookup branch' =
      if branch' = branch then some (max layer (touches.highest.getD branch layer))
      else touches.highest.lookup branch' :=
  AssocMap.lookup_insert_eq _ _ _ _

theorem lookup_isSome_iff {path : ReadPath} {since : LayerId} :
    (touches.lookup path cell since).isSome ↔ ∃ segment ∈ path.segments,
      ∃ id ∈ touches.cells.getD (segment.1, cell) [], since < id ∧ id ≤ segment.2 := by
  unfold lookup
  rw [List.isSome_min?_iff]
  constructor
  · intro h
    obtain ⟨id, hid⟩ := List.exists_mem_of_ne_nil _ h
    obtain ⟨segment, hs, hid⟩ := List.mem_flatMap.1 hid
    obtain ⟨hid, hb⟩ := List.mem_filter.1 hid
    exact ⟨segment, hs, id, hid, of_decide_eq_true hb⟩
  · rintro ⟨segment, hs, id, hid, hb⟩
    exact List.ne_nil_of_mem
      (List.mem_flatMap.2 ⟨segment, hs, List.mem_filter.2 ⟨hid, decide_eq_true hb⟩⟩)

/-- The batched check finds a cell exactly when one of them was touched. -/
theorem firstTouchedSince_eq_none_iff {path : ReadPath} {cells : List CellRef} {since : LayerId} :
    touches.firstTouchedSince path cells since = none ↔
      ∀ cell ∈ cells, (touches.lookup path cell since).isSome = false := by
  unfold firstTouchedSince
  simp [List.findSome?_eq_none_iff]

end CellTouchIndex

end BorgCore
