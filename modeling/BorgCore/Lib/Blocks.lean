import Mathlib.Data.List.TakeWhile

/-!
# Lists of blocks

A list that is put together of blocks can be taken apart again where each block starts with a mark and has no other
mark in it.
-/

namespace BorgCore

namespace Blocks

variable {α β : Type*} {f : α → List β} {p : β → Bool} {xs ys : List α}

/-- A block starts with a mark and has no other mark. -/
def Marked (p : β → Bool) (block : List β) : Prop :=
  ∃ mark rest, block = mark :: rest ∧ p mark = true ∧ ∀ b ∈ rest, p b = false

/-- A list is nothing, or starts with a mark. -/
def Ready (p : β → Bool) (list : List β) : Prop := ∀ b ∈ list.head?, p b = true

theorem Marked.ready_append {block rest : List β} (h : Marked p block) : Ready p (block ++ rest) := by
  obtain ⟨mark, others, rfl, hmark, -⟩ := h
  intro b hb
  cases hb
  exact hmark

theorem ready_flatMap (h : ∀ x ∈ xs, Marked p (f x)) : Ready p (xs.flatMap f) := by
  cases xs with
  | nil => exact nofun
  | cons x rest => exact (h x List.mem_cons_self).ready_append

theorem takeWhile_append {rest after : List β} (hrest : ∀ b ∈ rest, p b = false) (hafter : Ready p after) :
    (rest ++ after).takeWhile (fun b => !p b) = rest := by
  rw [List.takeWhile_append_of_pos fun b hb => by rw [hrest b hb]; rfl]
  cases after with
  | nil => rw [List.takeWhile_nil, List.append_nil]
  | cons b others =>
    have hb : p b = true := hafter b rfl
    rw [List.takeWhile_cons_of_neg (by rw [hb]; exact Bool.false_ne_true), List.append_nil]

theorem append_cons_inj {c d : β} {before before' after after' : List β} (hbefore : ∀ b ∈ before, p b = false)
    (hbefore' : ∀ b ∈ before', p b = false) (hc : p c = true) (hd : p d = true)
    (h : before ++ c :: after = before' ++ d :: after') : before = before' ∧ c = d ∧ after = after' := by
  have hready {e : β} {rest : List β} (he : p e = true) : Ready p (e :: rest) := by
    intro b hb
    cases hb
    exact he
  have hfirst : before = before' := by
    rw [← takeWhile_append hbefore (hready hc), ← takeWhile_append hbefore' (hready hd)]
    exact congrArg _ h
  subst hfirst
  obtain ⟨heq, hrest⟩ := List.cons.inj (List.append_cancel_left h)
  exact ⟨rfl, heq, hrest⟩

theorem append_inj {block block' rest rest' : List β} (h : Marked p block) (h' : Marked p block') (hrest : Ready p rest)
    (hrest' : Ready p rest') (heq : block ++ rest = block' ++ rest') : block = block' ∧ rest = rest' := by
  obtain ⟨mark, others, rfl, -, hothers⟩ := h
  obtain ⟨mark', others', rfl, -, hothers'⟩ := h'
  obtain ⟨rfl, htail⟩ := List.cons.inj heq
  have hfirst : others = others' := by
    rw [← takeWhile_append hothers hrest, ← takeWhile_append hothers' hrest']
    exact congrArg _ htail
  subst hfirst
  exact ⟨rfl, List.append_cancel_left htail⟩

/-- **The blocks of a list are determined.** -/
theorem map_eq_of_flatMap_eq (hxs : ∀ x ∈ xs, Marked p (f x)) (hys : ∀ y ∈ ys, Marked p (f y))
    (h : xs.flatMap f = ys.flatMap f) : xs.map f = ys.map f := by
  induction xs generalizing ys with
  | nil =>
    cases ys with
    | nil => rfl
    | cons y others =>
      obtain ⟨mark, rest, hblock, -⟩ := hys y List.mem_cons_self
      rw [List.flatMap_nil, List.flatMap_cons, hblock] at h
      cases h
  | cons x rest ih =>
    obtain ⟨hx, hrest⟩ := List.forall_mem_cons.1 hxs
    cases ys with
    | nil =>
      obtain ⟨mark, after, hblock, -⟩ := hx
      rw [List.flatMap_nil, List.flatMap_cons, hblock] at h
      cases h
    | cons y others =>
      obtain ⟨hy, hothers⟩ := List.forall_mem_cons.1 hys
      obtain ⟨hfirst, htail⟩ := append_inj hx hy (ready_flatMap hrest) (ready_flatMap hothers) h
      rw [List.map_cons, List.map_cons, hfirst, ih hrest hothers htail]

theorem eq_of_map_eq {γ : Type*} {g : α → γ} (hinj : ∀ x ∈ xs, ∀ y ∈ ys, g x = g y → x = y) (h : xs.map g = ys.map g) :
    xs = ys := by
  induction xs generalizing ys with
  | nil => exact (List.map_eq_nil_iff.1 h.symm).symm
  | cons x rest ih =>
    obtain ⟨y, others, rfl, hfirst, hrest⟩ := List.map_eq_cons_iff.1 h.symm
    rw [hinj x List.mem_cons_self y List.mem_cons_self hfirst.symm,
      ih (fun a ha b hb => hinj a (List.mem_cons_of_mem _ ha) b (List.mem_cons_of_mem _ hb)) hrest.symm]

end Blocks

end BorgCore
