import Mathlib.Data.List.Basic
import Mathlib.Data.List.TakeDrop
import Mathlib.Data.List.TakeWhile
import BorgCore.Core.Cell
import BorgCore.Core.Numbers
import BorgCore.Core.PidSpelling
import BorgCore.Lib.Calls

/-!
# Cell addresses

A cell is named by a text that a shell can carry: `Company:o-04068.website`, `Founder[]:l-040f80r[7]`, and on
input only `Company#7`, the shorthand for a number the caller's branch and allocator complete.  The grammar
is a chain of splits at the first `.`, the first `:` or `#` and the first `[`; what is printed is in the
canonical form, and is read back as the same cell by anyone.
-/

namespace BorgCore

namespace CellRef

def list (element : ObjectTypeName) (pid : Pid) : CellRef := ⟨.list element, .pid pid⟩

def elem (listDef : ObjectTypeName) (pid : Pid) (index : Nat) : CellRef := ⟨.listElem listDef, .elem pid index⟩

end CellRef

namespace Parse

open Pid (splitOnce)

/-! ### Reading -/

/-- The id half of an address.  A canonical PID carries its own kind and is taken at its word; only the
shorthand needs the kind that the shape of the address implies. -/
def idOf (kind : PidKind) (id : List Char) (shorthand : Bool) (branch : BranchId)
    (allocator : AllocatorId) (input : String) : Except ParseError Pid :=
  if !shorthand then
    match Pid.fromStr (String.ofList id) with
    | .ok pid => .ok pid
    | .error inner => .error ⟨"cell", input, inner.reason⟩
  else
    match Number.parseU64 id with
    | some counter => .ok (.allocated kind branch allocator counter)
    | none => .error ⟨"cell", input, s!"`{String.ofList id}` is not an id"⟩

/-- The index of a list element, where the id goes on with one. -/
def indexOf (id : List Char) (input : String) : Except ParseError (List Char × Option Nat) :=
  match splitOnce '[' id with
  | none => .ok (id, none)
  | some (id, index) =>
    match index.dropSuffix? [']'] with
    | none => .error ⟨"cell", input, "unclosed `[`"⟩
    | some index =>
      match Number.parseU64 index with
      | some number => .ok (id, some number)
      | none => .error ⟨"cell", input, s!"`{String.ofList index}` is not an index"⟩

def keyOf (pid : Pid) : Option Nat → CellKey
  | some index => .elem pid index
  | none => .pid pid

def elementOf (element : ObjectTypeName) (pid : Pid) : Option Nat → CellRef
  | some index => .elem element pid index
  | none => .list element pid

/-- `Founder[]:l-5678wxyz` and `Founder[]:l-5678wxyz[0]`: a list, or one of its elements. -/
def listCell (element id : List Char) (shorthand : Bool) (field : Option (List Char)) (branch : BranchId)
    (allocator : AllocatorId) (input : String) : Except ParseError CellRef := do
  if element.isEmpty then .error ⟨"cell", input, "missing element type before `[]`"⟩
  else if field.isSome then .error ⟨"cell", input, "list cells have no fields"⟩
  else
    let (id, index) ← indexOf id input
    let pid ← idOf .list id shorthand branch allocator input
    -- An untyped array has no name of its own: the kind letter of its PID says what it is.
    if pid.kind = .anyArray then return ⟨.anyArray, keyOf pid index⟩
    else return elementOf (String.ofList element) pid index

/-- `Company:o-1234abcd` and `Company:o-1234abcd.website`: an object, or one of its properties. -/
def objectCell (name id : List Char) (shorthand : Bool) (field : Option (List Char)) (branch : BranchId)
    (allocator : AllocatorId) (input : String) : Except ParseError CellRef := do
  if name.isEmpty then .error ⟨"cell", input, "missing struct name"⟩
  else
    let pid ← idOf .object id shorthand branch allocator input
    if pid.kind = .anyObject then
      if field.isSome then .error ⟨"cell", input, "an untyped object has no named fields"⟩
      else return ⟨.anyObject, .pid pid⟩
    else
      match field with
      | some field => return .prop (String.ofList name) (String.ofList field) pid
      | none => return .existence (String.ofList name) pid

/-- The characters that end a name. -/
def isMark (c : Char) : Bool := c = ':' || c = '#'

def headCell (head : List Char) (field : Option (List Char)) (branch : BranchId) (allocator : AllocatorId)
    (input : String) : Except ParseError CellRef :=
  match head.span (!isMark ·) with
  | (_, []) => .error ⟨"cell", input, "expected `Struct:id` or `Element[]:id`"⟩
  | (name, mark :: id) =>
    match name.dropSuffix? ['[', ']'] with
    | some element => listCell element id (mark = '#') field branch allocator input
    | none => objectCell name id (mark = '#') field branch allocator input

def cellRef (input : String) (branch : BranchId) (allocator : AllocatorId) : Except ParseError CellRef :=
  match splitOnce '.' input.toList with
  | some (_, []) => .error ⟨"cell", input, "trailing `.` with no field"⟩
  | some (head, field) => headCell head (some field) branch allocator input
  | none => headCell input.toList none branch allocator input

end Parse

/-! ### Printing -/

/-- The name this buffer wears in an address, and whether it takes `[]`.  The untyped buffers borrow one. -/
def BufferId.address : BufferId → ObjectTypeName × Bool
  | .object name => (name, false)
  | .objectProp name _ => (name, false)
  | .list name => (name, true)
  | .listElem name => (name, true)
  | .anyObject => ("Any", false)
  | .anyArray => ("Any", true)

/-- What stands in brackets after the PID. -/
def CellKey.suffix : CellKey → List Char
  | .elem _ index => '[' :: (Nat.toDigits 10 index ++ [']'])
  | .pid _ => []

/-- What stands after the first dot. -/
def BufferId.fieldSuffix : BufferId → List Char
  | .objectProp _ field => '.' :: field.toList
  | _ => []

/-- The canonical text of an address; `none` is the panic of a PID's. -/
def CellRef.display (cell : CellRef) : Option String :=
  cell.pid.display.map fun pid =>
    let (name, list) := cell.buffer.address
    String.ofList <| name.toList ++ (if list then ['[', ']'] else []) ++ ':' :: (pid.toList ++ cell.key.suffix) ++
      cell.buffer.fieldSuffix

/-! ### Reading what was printed -/

namespace Parse

open Pid (splitOnce)

variable {input : String} {branch branch' : BranchId} {allocator allocator' : AllocatorId} {cell : CellRef}
  {pid : Pid} {id name head rest : List Char} {index : Nat}

/-- A name that the grammar can read: it has no dot and ends at the first mark. -/
structure Named (name : List Char) : Prop where
  nonempty : name ≠ []
  undotted : '.' ∉ name
  unmarked : ∀ c ∈ name, isMark c = false

/-- What an address can name.  The name of an object has no brackets at its end, and the untyped containers
are where the PID says that it is one. -/
def Addressed (cell : CellRef) : Prop :=
  cell.pid.Sized ∧
  match cell.buffer, cell.key with
  | .object name, .pid pid =>
    Named name.toList ∧ name.toList.dropSuffix? ['[', ']'] = none ∧ pid.kind ≠ .anyObject
  | .objectProp name field, .pid pid =>
    Named name.toList ∧ name.toList.dropSuffix? ['[', ']'] = none ∧ pid.kind ≠ .anyObject ∧ field.toList ≠ []
  | .list element, .pid pid => Named element.toList ∧ pid.kind ≠ .anyArray
  | .listElem element, .elem pid index => Named element.toList ∧ pid.kind ≠ .anyArray ∧ index < 2 ^ 64
  | .anyObject, .pid pid => pid.kind = .anyObject
  | .anyArray, .pid pid => pid.kind = .anyArray
  | .anyArray, .elem pid index => pid.kind = .anyArray ∧ index < 2 ^ 64
  | _, _ => False

theorem splitOnce_eq_none {sep : Char} {chars : List Char} : splitOnce sep chars = none ↔ sep ∉ chars := by
  induction chars with
  | nil => simp [splitOnce]
  | cons c rest ih =>
    rw [splitOnce]
    by_cases hc : c = sep
    · simp [hc]
    · simp [hc, ih, Ne.symm hc]

theorem span_colon (hname : ∀ c ∈ name, isMark c = false) :
    (name ++ ':' :: rest).span (!isMark ·) = (name, ':' :: rest) := by
  have hpos : ∀ c ∈ name, (!isMark c) = true := fun c hc => by rw [hname c hc]; rfl
  rw [List.span_eq_takeWhile_dropWhile, List.takeWhile_append_of_pos hpos, List.dropWhile_append_of_pos hpos]
  simp [isMark]

theorem of_span {mark : Char} (h : head.span (!isMark ·) = (name, mark :: rest)) :
    head = name ++ mark :: rest ∧ isMark mark = true ∧ ∀ c ∈ name, isMark c = false := by
  rw [List.span_eq_takeWhile_dropWhile, Prod.mk.injEq] at h
  obtain ⟨rfl, hrest⟩ := h
  refine ⟨?_, ?_, fun c hc => ?_⟩
  · rw [← hrest, List.takeWhile_append_dropWhile]
  · have hhead := List.head?_dropWhile_not (!isMark ·) head
    rw [hrest] at hhead
    simpa using hhead
  · simpa using List.mem_takeWhile_imp hc

/-! #### What is read is addressed -/

theorem idOf_sized {kind : PidKind} {shorthand : Bool} (hb : branch < 2 ^ 64) (ha : allocator < 2 ^ 32)
    (h : idOf kind id shorthand branch allocator input = .ok pid) : pid.Sized := by
  unfold idOf at h
  cases shorthand with
  | false =>
    simp only [Bool.not_false, if_true] at h
    split at h
    · rename_i found hfound
      cases h
      exact Pid.sized_of_fromStr hfound
    · cases h
  | true =>
    simp only [Bool.not_true, Bool.false_eq_true, if_false] at h
    split at h
    · rename_i counter hcounter
      cases h
      exact ⟨hb, ha, Number.parseU64_lt hcounter⟩
    · cases h

theorem indexOf_lt {rest : List Char} {index : Option Nat} (h : indexOf id input = .ok (rest, index)) :
    ∀ i, index = some i → i < 2 ^ 64 := by
  rintro i rfl
  unfold indexOf at h
  split at h
  · cases h
  · split at h
    · cases h
    · split at h
      · rename_i number hnumber
        cases h
        exact Number.parseU64_lt hnumber
      · cases h

theorem addressed_of_listCell {shorthand : Bool} {field : Option (List Char)} (hb : branch < 2 ^ 64)
    (ha : allocator < 2 ^ 32) (hundotted : '.' ∉ name) (hunmarked : ∀ c ∈ name, isMark c = false)
    (h : listCell name id shorthand field branch allocator input = .ok cell) : Addressed cell := by
  unfold listCell at h
  split at h
  · cases h
  · rename_i hnonempty
    have hnamed : Named (String.ofList name).toList := by
      rw [String.toList_ofList]
      exact ⟨fun heq => hnonempty (List.isEmpty_iff.2 heq), hundotted, hunmarked⟩
    split at h
    · cases h
    · obtain ⟨⟨rest, index⟩, hindex, h⟩ := Calls.except_bind_eq_ok h
      obtain ⟨pid, hpid, h⟩ := Calls.except_bind_eq_ok h
      have hsized := idOf_sized hb ha hpid
      have hlt := indexOf_lt hindex
      split at h
      · rename_i hkind
        cases h
        cases index with
        | none => exact ⟨hsized, hkind⟩
        | some i => exact ⟨hsized, hkind, hlt i rfl⟩
      · rename_i hkind
        cases h
        cases index with
        | none => exact ⟨hsized, hnamed, hkind⟩
        | some i => exact ⟨hsized, hnamed, hkind, hlt i rfl⟩

theorem addressed_of_objectCell {shorthand : Bool} {field : Option (List Char)} (hb : branch < 2 ^ 64)
    (ha : allocator < 2 ^ 32) (hundotted : '.' ∉ name) (hunmarked : ∀ c ∈ name, isMark c = false)
    (hbrackets : name.dropSuffix? ['[', ']'] = none) (hfield : field ≠ some [])
    (h : objectCell name id shorthand field branch allocator input = .ok cell) : Addressed cell := by
  unfold objectCell at h
  split at h
  · cases h
  · rename_i hnonempty
    have hnamed : Named (String.ofList name).toList := by
      rw [String.toList_ofList]
      exact ⟨fun heq => hnonempty (List.isEmpty_iff.2 heq), hundotted, hunmarked⟩
    have hobject : (String.ofList name).toList.dropSuffix? ['[', ']'] = none := by
      rwa [String.toList_ofList]
    obtain ⟨pid, hpid, h⟩ := Calls.except_bind_eq_ok h
    have hsized := idOf_sized hb ha hpid
    split at h
    · rename_i hkind
      split at h
      · cases h
      · cases h
        exact ⟨hsized, hkind⟩
    · rename_i hkind
      cases field with
      | none =>
        cases h
        exact ⟨hsized, hnamed, hobject, hkind⟩
      | some field =>
        cases h
        refine ⟨hsized, hnamed, hobject, hkind, ?_⟩
        rw [String.toList_ofList]
        rintro rfl
        exact hfield rfl

theorem addressed_of_headCell {field : Option (List Char)} (hb : branch < 2 ^ 64) (ha : allocator < 2 ^ 32)
    (hundotted : '.' ∉ head) (hfield : field ≠ some [])
    (h : headCell head field branch allocator input = .ok cell) : Addressed cell := by
  unfold headCell at h
  split at h
  · cases h
  · rename_i name mark id hspan
    obtain ⟨rfl, -, hunmarked⟩ := of_span hspan
    have hname : '.' ∉ name := fun hmem => hundotted (List.mem_append_left _ hmem)
    split at h
    · rename_i element helement
      obtain ⟨brackets, rfl, -⟩ := List.dropSuffix?_eq_some_iff.1 helement
      exact addressed_of_listCell hb ha (fun hmem => hname (List.mem_append_left _ hmem))
        (fun c hc => hunmarked c (List.mem_append_left _ hc)) h
    · rename_i hbrackets
      exact addressed_of_objectCell hb ha hname hunmarked hbrackets hfield h

/-- What is read can be named. -/
theorem addressed_of_cellRef (hb : branch < 2 ^ 64) (ha : allocator < 2 ^ 32)
    (h : cellRef input branch allocator = .ok cell) : Addressed cell := by
  unfold cellRef at h
  split at h
  · cases h
  · rename_i head field hfield hsplit
    refine addressed_of_headCell hb ha (Pid.splitOnce_eq_some.1 hsplit).2 ?_ h
    rw [Ne, Option.some.injEq]
    exact hfield
  · rename_i hsplit
    exact addressed_of_headCell hb ha (splitOnce_eq_none.1 hsplit) (by simp) h

/-! #### What is addressed is read from its text -/

theorem dropSuffix?_brackets (element : List Char) :
    (element ++ ['[', ']']).dropSuffix? ['[', ']'] = some element :=
  List.dropSuffix?_eq_some_iff.2 ⟨['[', ']'], rfl, beq_self_eq_true _⟩

theorem idOf_canonical {kind : PidKind} {text : String} (h : Pid.fromStr text = .ok pid) :
    idOf kind text.toList false branch allocator input = .ok pid := by
  simp only [idOf, Bool.not_false, if_true, String.ofList_toList, h]

theorem indexOf_none (hid : '[' ∉ id) : indexOf id input = .ok (id, none) := by
  rw [indexOf, splitOnce_eq_none.2 hid]

theorem indexOf_some (hid : '[' ∉ id) (hindex : index < 2 ^ 64) :
    indexOf (id ++ '[' :: (Nat.toDigits 10 index ++ [']'])) input = .ok (id, some index) := by
  have hclosed : (Nat.toDigits 10 index ++ [']']).dropSuffix? [']'] = some (Nat.toDigits 10 index) :=
    List.dropSuffix?_eq_some_iff.2 ⟨[']'], rfl, beq_self_eq_true _⟩
  simp only [indexOf, Pid.splitOnce_eq_some.2 ⟨rfl, hid⟩, hclosed, Number.parseU64_toDigits hindex]

theorem headCell_list (hname : ∀ c ∈ name, isMark c = false) {field : Option (List Char)} :
    headCell (name ++ ['[', ']'] ++ ':' :: id) field branch allocator input =
      listCell name id false field branch allocator input := by
  have hunmarked : ∀ c ∈ name ++ ['[', ']'], isMark c = false := by
    intro c hc
    rcases List.mem_append.1 hc with hc | hc
    · exact hname c hc
    · rcases List.mem_pair.1 hc with rfl | rfl
      · rfl
      · rfl
  simp only [headCell, span_colon hunmarked, dropSuffix?_brackets]
  rfl

theorem headCell_object (hname : ∀ c ∈ name, isMark c = false) (hbrackets : name.dropSuffix? ['[', ']'] = none)
    {field : Option (List Char)} : headCell (name ++ ':' :: id) field branch allocator input =
      objectCell name id false field branch allocator input := by
  simp only [headCell, span_colon hname, hbrackets]
  rfl

theorem cellRef_headCell (hhead : '.' ∉ head) :
    cellRef (String.ofList head) branch allocator =
      headCell head none branch allocator (String.ofList head) := by
  simp only [cellRef, String.toList_ofList, splitOnce_eq_none.2 hhead]

theorem cellRef_headCell_field (hhead : '.' ∉ head) {field : List Char} (hfield : field ≠ []) :
    cellRef (String.ofList (head ++ '.' :: field)) branch allocator =
      headCell head (some field) branch allocator (String.ofList (head ++ '.' :: field)) := by
  have hsplit : splitOnce '.' (head ++ '.' :: field) = some (head, field) :=
    Pid.splitOnce_eq_some.2 ⟨rfl, hhead⟩
  cases field with
  | nil => exact absurd rfl hfield
  | cons c field => simp only [cellRef, String.toList_ofList, hsplit]

theorem undotted_digits (index : Nat) : '.' ∉ Nat.toDigits 10 index := fun hmem => by
  have hdigit : ('.').isDigit = true := Nat.isDigit_of_mem_toDigits (by decide) (by decide) hmem
  revert hdigit
  decide

theorem Named.isEmpty (h : Named name) : name.isEmpty = false := by
  rw [Bool.eq_false_iff, Ne, List.isEmpty_iff]
  exact h.nonempty

/-- A list, or an element of one, that is read from its name and its id. -/
theorem listCell_eq {index : Option Nat} (hname : Named name) (hindex : indexOf id input = .ok (rest, index))
    (hid : idOf .list rest false branch allocator input = .ok pid) (hkind : pid.kind ≠ .anyArray) :
    listCell name id false none branch allocator input = .ok (elementOf (String.ofList name) pid index) := by
  unfold listCell
  rw [if_neg (by simp [hname.isEmpty]), if_neg (by simp), Calls.except_bind_ok hindex]
  refine (Calls.except_bind_ok hid).trans ?_
  rw [if_neg hkind]
  rfl

theorem listCell_untyped {index : Option Nat} (hname : Named name)
    (hindex : indexOf id input = .ok (rest, index))
    (hid : idOf .list rest false branch allocator input = .ok pid) (hkind : pid.kind = .anyArray) :
    listCell name id false none branch allocator input = .ok ⟨.anyArray, keyOf pid index⟩ := by
  unfold listCell
  rw [if_neg (by simp [hname.isEmpty]), if_neg (by simp), Calls.except_bind_ok hindex]
  refine (Calls.except_bind_ok hid).trans ?_
  rw [if_pos hkind]
  rfl

theorem objectCell_eq {field : Option (List Char)} (hname : Named name)
    (hid : idOf .object id false branch allocator input = .ok pid) (hkind : pid.kind ≠ .anyObject) :
    objectCell name id false field branch allocator input =
      match field with
      | some field => .ok (.prop (String.ofList name) (String.ofList field) pid)
      | none => .ok (.existence (String.ofList name) pid) := by
  unfold objectCell
  rw [if_neg (by simp [hname.isEmpty]), Calls.except_bind_ok hid, if_neg hkind]
  rfl

theorem objectCell_untyped (hname : Named name)
    (hid : idOf .object id false branch allocator input = .ok pid) (hkind : pid.kind = .anyObject) :
    objectCell name id false none branch allocator input = .ok ⟨.anyObject, .pid pid⟩ := by
  unfold objectCell
  rw [if_neg (by simp [hname.isEmpty]), Calls.except_bind_ok hid, if_pos hkind]
  rfl

theorem named_any : Named "Any".toList where
  nonempty := by decide
  undotted := by decide
  unmarked c hc := by
    have hc : c ∈ ['A', 'n', 'y'] := hc
    simp only [List.mem_cons, List.not_mem_nil, or_false] at hc
    rcases hc with rfl | rfl | rfl
    · rfl
    · rfl
    · rfl

/-- **What is named is read.**  The text of an addressed cell is read as the cell, whoever reads it. -/
theorem cellRef_of_addressed (h : Addressed cell) :
    ∃ text, cell.display = some text ∧
      ∀ branch allocator, cellRef text branch allocator = .ok cell := by
  obtain ⟨hsized, h⟩ := h
  obtain ⟨text, hdisplay, hread, hplain⟩ := Pid.display_plain hsized
  have hmem {c : Char} (hc : c.isAlphanum = false) (hne : c ≠ '-') : c ∉ text.toList := fun hmem => by
    rcases hplain c hmem with hc' | rfl
    · rw [hc] at hc'
      cases hc'
    · exact hne rfl
  have hdot : '.' ∉ text.toList := hmem (by decide) (by decide)
  have hbracket : '[' ∉ text.toList := hmem (by decide) (by decide)
  refine ⟨_, by rw [CellRef.display, hdisplay, Option.map_some], fun branch allocator => ?_⟩
  have hid (kind : PidKind) (input : String) :
      idOf kind text.toList false branch allocator input = .ok cell.pid := idOf_canonical hread
  obtain ⟨buffer, key⟩ := cell
  match buffer, key, h with
  | .object name, .pid pid, ⟨hname, hbrackets, hkind⟩ =>
    have hhead : '.' ∉ name.toList ++ ':' :: text.toList := by simp [hname.undotted, hdot]
    simp only [BufferId.address, CellKey.suffix, BufferId.fieldSuffix, List.append_nil, Bool.false_eq_true,
      if_false]
    rw [cellRef_headCell hhead, headCell_object hname.unmarked hbrackets,
      objectCell_eq hname (hid .object _) hkind, String.ofList_toList]
    rfl
  | .objectProp name field, .pid pid, ⟨hname, hbrackets, hkind, hfield⟩ =>
    have hhead : '.' ∉ name.toList ++ ':' :: text.toList := by simp [hname.undotted, hdot]
    simp only [BufferId.address, CellKey.suffix, BufferId.fieldSuffix, List.append_nil, Bool.false_eq_true,
      if_false]
    rw [cellRef_headCell_field hhead hfield, headCell_object hname.unmarked hbrackets,
      objectCell_eq hname (hid .object _) hkind]
    simp only [String.ofList_toList]
    rfl
  | .list element, .pid pid, ⟨hname, hkind⟩ =>
    have hhead : '.' ∉ element.toList ++ ['[', ']'] ++ ':' :: text.toList := by simp [hname.undotted, hdot]
    simp only [BufferId.address, CellKey.suffix, BufferId.fieldSuffix, List.append_nil, if_true]
    rw [cellRef_headCell hhead, headCell_list hname.unmarked,
      listCell_eq hname (indexOf_none hbracket) (hid .list _) hkind, String.ofList_toList]
    rfl
  | .listElem element, .elem pid index, ⟨hname, hkind, hindex⟩ =>
    have hhead : '.' ∉ element.toList ++ ['[', ']'] ++
        ':' :: (text.toList ++ '[' :: (Nat.toDigits 10 index ++ [']'])) := by
      simp [hname.undotted, hdot, undotted_digits]
    simp only [BufferId.address, CellKey.suffix, BufferId.fieldSuffix, List.append_nil, if_true]
    rw [cellRef_headCell hhead, headCell_list hname.unmarked,
      listCell_eq hname (indexOf_some hbracket hindex) (hid .list _) hkind, String.ofList_toList]
    rfl
  | .anyObject, .pid pid, hkind =>
    have hhead : '.' ∉ "Any".toList ++ ':' :: text.toList := by simp [hdot]
    simp only [BufferId.address, CellKey.suffix, BufferId.fieldSuffix, List.append_nil, Bool.false_eq_true,
      if_false]
    rw [cellRef_headCell hhead, headCell_object named_any.unmarked (by decide),
      objectCell_untyped named_any (hid .object _) hkind]
    rfl
  | .anyArray, .pid pid, hkind =>
    have hhead : '.' ∉ "Any".toList ++ ['[', ']'] ++ ':' :: text.toList := by simp [hdot]
    simp only [BufferId.address, CellKey.suffix, BufferId.fieldSuffix, List.append_nil, if_true]
    rw [cellRef_headCell hhead, headCell_list named_any.unmarked,
      listCell_untyped named_any (indexOf_none hbracket) (hid .list _) hkind]
    rfl
  | .anyArray, .elem pid index, ⟨hkind, hindex⟩ =>
    have hhead : '.' ∉ "Any".toList ++ ['[', ']'] ++
        ':' :: (text.toList ++ '[' :: (Nat.toDigits 10 index ++ [']'])) := by
      simp [hdot, undotted_digits]
    simp only [BufferId.address, CellKey.suffix, BufferId.fieldSuffix, List.append_nil, if_true]
    rw [cellRef_headCell hhead, headCell_list named_any.unmarked,
      listCell_untyped named_any (indexOf_some hbracket hindex) (hid .list _) hkind]
    rfl

/-- **Addresses are stable text.**  What an address was read as has a text, which is read as the same cell on
every branch and by every allocator; and no other cell that an address names has that text. -/
theorem cellRef_stable (hb : branch < 2 ^ 64) (ha : allocator < 2 ^ 32)
    (h : cellRef input branch allocator = .ok cell) :
    ∃ text, cell.display = some text ∧
      (∀ branch' allocator', cellRef text branch' allocator' = .ok cell) ∧
      ∀ input' branch' allocator' cell', branch' < 2 ^ 64 → allocator' < 2 ^ 32 →
        cellRef input' branch' allocator' = .ok cell' → cell'.display = some text → cell' = cell := by
  obtain ⟨text, hdisplay, hread⟩ := cellRef_of_addressed (addressed_of_cellRef hb ha h)
  refine ⟨text, hdisplay, hread, fun input' branch' allocator' cell' hb' ha' h' hsame => ?_⟩
  obtain ⟨text', hdisplay', hread'⟩ := cellRef_of_addressed (addressed_of_cellRef hb' ha' h')
  obtain rfl : text' = text := Option.some.inj (hdisplay'.symm.trans hsame)
  have hboth := (hread' 0 0).symm.trans (hread 0 0)
  exact Except.ok.inj hboth

/-- The seventh element of a list, by its shorthand. -/
theorem cellRef_stable_shorthand :
    cellRef "Founder[]#500[7]" 1 0 = .ok (.elem "Founder" (.allocated .list 1 0 500) 7) ∧
      ∃ text, (CellRef.elem "Founder" (.allocated .list 1 0 500) 7).display = some text ∧
        (∀ branch' allocator', cellRef text branch' allocator' =
          .ok (.elem "Founder" (.allocated .list 1 0 500) 7)) ∧
        ∀ input' branch' allocator' cell', branch' < 2 ^ 64 → allocator' < 2 ^ 32 →
          cellRef input' branch' allocator' = .ok cell' → cell'.display = some text →
          cell' = .elem "Founder" (.allocated .list 1 0 500) 7 := by
  have hread : cellRef "Founder[]#500[7]" 1 0 = .ok (.elem "Founder" (.allocated .list 1 0 500) 7) := by
    decide +kernel
  exact ⟨hread, cellRef_stable (by decide) (by decide) hread⟩

end Parse

end BorgCore
