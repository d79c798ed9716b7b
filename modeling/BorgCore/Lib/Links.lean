import Mathlib.Data.List.Pairwise
import Mathlib.Data.List.Sort
import Mathlib.Order.Basic

/-!
# Steps along a line

A step begins somewhere and ends somewhere.  A walk follows steps, each from where the one before it
ended and to another place.  Steps that were laid down one after another along a line, possibly with gaps
between them, admit at most one walk from one place up to another: it consists of every step between the
two that leads anywhere.
-/

namespace BorgCore

namespace Links

variable {α β γ : Type} {lo hi : β → α} {a b c : α} {x : β} {xs ys : List β}

/-- The steps lead from `a` to `b`, each from where the one before it ended, and to another place. -/
def Walk (lo hi : β → α) : α → List β → α → Prop
  | a, [], b => a = b
  | a, x :: xs, b => lo x = a ∧ lo x ≠ hi x ∧ Walk lo hi (hi x) xs b

@[simp] theorem walk_nil : Walk lo hi a [] b ↔ a = b := Iff.rfl

@[simp] theorem walk_cons :
    Walk lo hi a (x :: xs) b ↔ lo x = a ∧ lo x ≠ hi x ∧ Walk lo hi (hi x) xs b := Iff.rfl

instance Walk.decidable [DecidableEq α] : ∀ a xs b, Decidable (Walk lo hi a xs b)
  | a, [], b => inferInstanceAs (Decidable (a = b))
  | a, x :: xs, b =>
    have := Walk.decidable (hi x) xs b
    inferInstanceAs (Decidable (lo x = a ∧ lo x ≠ hi x ∧ Walk lo hi (hi x) xs b))

theorem walk_append :
    Walk lo hi a (xs ++ ys) b ↔ ∃ middle, Walk lo hi a xs middle ∧ Walk lo hi middle ys b := by
  induction xs generalizing a with
  | nil => simp
  | cons x xs ih => simp [ih, and_assoc]

theorem walk_reverse : Walk hi lo b xs.reverse a ↔ Walk lo hi a xs b := by
  induction xs generalizing a with
  | nil => exact eq_comm
  | cons x xs ih =>
    rw [List.reverse_cons, walk_append]
    simp only [walk_cons, walk_nil, ih]
    constructor
    · rintro ⟨middle, hwalk, rfl, hne, rfl⟩
      exact ⟨rfl, hne.symm, hwalk⟩
    · rintro ⟨rfl, hne, hwalk⟩
      exact ⟨hi x, hwalk, rfl, hne.symm, rfl⟩

theorem mapM_eq_some {answer : β → Option γ} {zs : List γ} :
    xs.mapM answer = some zs ↔ xs.map answer = zs.map some := by
  induction xs generalizing zs with
  | nil => cases zs <;> simp
  | cons x xs ih =>
    rw [List.mapM_cons, List.map_cons]
    simp only [Option.pure_def, Option.bind_eq_bind, Option.bind_eq_some_iff, ih, Option.some.injEq]
    constructor
    · rintro ⟨z, hz, rest, hrest, rfl⟩
      rw [hz, hrest, List.map_cons]
    · intro h
      cases zs with
      | nil => cases h
      | cons z rest =>
        obtain ⟨hz, hrest⟩ := List.cons_eq_cons.1 h
        exact ⟨z, hz, rest, hrest, rfl⟩

theorem mapM_eq_none {answer : β → Option γ} :
    xs.mapM answer = none ↔ ∃ x ∈ xs, answer x = none := by
  induction xs with
  | nil => simp
  | cons x xs ih =>
    rw [List.mapM_cons]
    cases hx : answer x with
    | none => simp [hx]
    | some z =>
      simp only [List.mem_cons, exists_eq_or_imp, hx, reduceCtorEq, false_or, ← ih]
      cases xs.mapM answer <;> simp

/-- Answers that are all taken from a list answer some of its elements. -/
theorem exists_map_eq {answer : β → Option γ} {zs : List γ}
    (h : ∀ z ∈ zs, ∃ x ∈ xs, answer x = some z) :
    ∃ ys : List β, (∀ y ∈ ys, y ∈ xs) ∧ ys.map answer = zs.map some := by
  induction zs with
  | nil => exact ⟨[], by simp, rfl⟩
  | cons z zs ih =>
    obtain ⟨x, hx, hz⟩ := h z List.mem_cons_self
    obtain ⟨ys, hys, hrest⟩ := ih fun z hm => h z (List.mem_cons_of_mem _ hm)
    refine ⟨x :: ys, fun y hy => ?_, by rw [List.map_cons, List.map_cons, hz, hrest]⟩
    rcases List.mem_cons.1 hy with rfl | hy
    · exact hx
    · exact hys y hy

/-- Steps answered one by one lead where their answers lead. -/
theorem walk_answers {lo' hi' : γ → α} {answer : β → Option γ} {zs : List γ}
    (hends : ∀ x z, answer x = some z → lo' z = lo x ∧ hi' z = hi x)
    (h : xs.map answer = zs.map some) : Walk lo' hi' a zs b ↔ Walk lo hi a xs b := by
  induction xs generalizing a zs with
  | nil =>
    obtain rfl := List.map_eq_nil_iff.1 h.symm
    rfl
  | cons x xs ih =>
    cases zs with
    | nil => cases h
    | cons z zs =>
      obtain ⟨hx, hrest⟩ := List.cons_eq_cons.1 h
      obtain ⟨hlo, hhi⟩ := hends x z hx
      simp only [walk_cons, hlo, hhi, ih hrest]

theorem Walk.ne_nil (h : Walk lo hi a xs b) (hab : a ≠ b) : xs ≠ [] := by
  rintro rfl
  exact hab h

theorem Walk.moves (h : Walk lo hi a xs b) : ∀ x ∈ xs, lo x ≠ hi x := by
  induction xs generalizing a with
  | nil => simp
  | cons x xs ih =>
    obtain ⟨-, hne, hrest⟩ := h
    intro y hy
    rcases List.mem_cons.1 hy with rfl | hy
    · exact hne
    · exact ih hrest y hy

section Order

variable [LinearOrder α]

/-- Steps laid down one after another: none leads back, and each begins no earlier than the ones before
it ended. -/
structure Rising (lo hi : β → α) (xs : List β) : Prop where
  up : ∀ x ∈ xs, lo x ≤ hi x
  apart : xs.Pairwise fun x y => hi x ≤ lo y

def within (lo hi : β → α) (a b : α) (xs : List β) : List β :=
  xs.filter fun x => a ≤ lo x ∧ hi x ≤ b

/-- The steps that lead anywhere. -/
def moving (lo hi : β → α) (xs : List β) : List β := xs.filter fun x => lo x ≠ hi x

theorem mem_within : x ∈ within lo hi a b xs ↔ x ∈ xs ∧ a ≤ lo x ∧ hi x ≤ b := by simp [within]

theorem mem_moving : x ∈ moving lo hi xs ↔ x ∈ xs ∧ lo x ≠ hi x := by simp [moving]

theorem Rising.nil : Rising lo hi ([] : List β) := ⟨by simp, List.Pairwise.nil⟩

/-- The next step laid down begins no earlier than where all others ended. -/
theorem Rising.concat (h : Rising lo hi xs) (hx : lo x ≤ hi x) (hlast : ∀ y ∈ xs, hi y ≤ lo x) :
    Rising lo hi (xs ++ [x]) where
  up y hy := by
    rcases List.mem_append.1 hy with hy | hy
    · exact h.up y hy
    · rwa [List.mem_singleton.1 hy]
  apart := by
    refine List.pairwise_append.2 ⟨h.apart, List.pairwise_singleton _ _, fun y hy z hz => ?_⟩
    rw [List.mem_singleton.1 hz]
    exact hlast y hy

theorem Rising.trichotomy (h : Rising lo hi xs) {x y : β} (hx : x ∈ xs) (hy : y ∈ xs) :
    x = y ∨ hi x ≤ lo y ∨ hi y ≤ lo x := by
  have : Std.Symm fun x y : β => hi x ≤ lo y ∨ hi y ≤ lo x := ⟨fun _ _ => Or.symm⟩
  have hpairs : xs.Pairwise fun x y => hi x ≤ lo y ∨ hi y ≤ lo x := h.apart.imp Or.inl
  by_cases he : x = y
  · exact Or.inl he
  · exact Or.inr (hpairs.forall hx hy he)

theorem Rising.of_sublist (h : Rising lo hi xs) (hs : ys.Sublist xs) : Rising lo hi ys :=
  ⟨fun x hx => h.up x (hs.subset hx), h.apart.sublist hs⟩

/-- Steps that all lead somewhere stand in the order they begin in. -/
theorem Rising.pairwise_lt (h : Rising lo hi xs) (hm : ∀ x ∈ xs, lo x ≠ hi x) :
    xs.Pairwise fun x y => lo x < lo y := by
  refine h.apart.imp_of_mem fun hx _ hxy => lt_of_lt_of_le ?_ hxy
  exact lt_of_le_of_ne (h.up _ hx) (hm _ hx)

/-- A walk up lies between its ends, and its steps come in order. -/
theorem Walk.rising (h : Walk lo hi a xs b) (hup : ∀ x ∈ xs, lo x ≤ hi x) :
    a ≤ b ∧ Rising lo hi xs ∧ ∀ x ∈ xs, a ≤ lo x ∧ hi x ≤ b := by
  induction xs generalizing a with
  | nil => exact ⟨le_of_eq h, .nil, by simp⟩
  | cons x xs ih =>
    obtain ⟨rfl, -, hrest⟩ := h
    have hx := hup x List.mem_cons_self
    obtain ⟨hle, hrising, hrange⟩ := ih hrest fun y hy => hup y (List.mem_cons_of_mem _ hy)
    refine ⟨hx.trans hle, ⟨hup, List.pairwise_cons.2 ⟨fun y hy => (hrange y hy).1, hrising.apart⟩⟩, ?_⟩
    intro y hy
    rcases List.mem_cons.1 hy with rfl | hy
    · exact ⟨le_rfl, hle⟩
    · exact ⟨hx.trans (hrange y hy).1, (hrange y hy).2⟩

/-- A walk passes every place between its ends. -/
theorem Walk.covers (h : Walk lo hi a xs b) (ha : a ≤ c) (hb : c < b) :
    ∃ x ∈ xs, lo x ≤ c ∧ c < hi x := by
  induction xs generalizing a with
  | nil =>
    obtain rfl := h
    exact absurd ha (not_le_of_gt hb)
  | cons x xs ih =>
    obtain ⟨rfl, -, hrest⟩ := h
    by_cases hx : c < hi x
    · exact ⟨x, List.mem_cons_self, ha, hx⟩
    · obtain ⟨y, hy, hc⟩ := ih hrest (not_lt.1 hx)
      exact ⟨y, List.mem_cons_of_mem _ hy, hc⟩

/-- **The only walk.**  A walk over steps that were laid down along the line takes every one between its
ends that leads anywhere, in order. -/
theorem Walk.eq_moving (h : Walk lo hi a ys b) (hrising : Rising lo hi xs) (hsub : ∀ y ∈ ys, y ∈ xs) :
    ys = moving lo hi (within lo hi a b xs) := by
  have hup : ∀ y ∈ ys, lo y ≤ hi y := fun y hy => hrising.up y (hsub y hy)
  obtain ⟨-, hys, hrange⟩ := h.rising hup
  have hkept : (moving lo hi (within lo hi a b xs)).Sublist xs :=
    List.filter_sublist.trans List.filter_sublist
  have : Std.Irrefl fun x y : β => lo x < lo y := ⟨fun x => lt_irrefl _⟩
  have : Std.Antisymm fun x y : β => lo x < lo y := ⟨fun x y hxy hyx => absurd hyx (lt_asymm hxy)⟩
  refine (hys.pairwise_lt h.moves).eq_of_mem_iff
    ((hrising.of_sublist hkept).pairwise_lt fun x hx => (mem_moving.1 hx).2) fun z => ?_
  rw [mem_moving, mem_within]
  constructor
  · intro hz
    exact ⟨⟨hsub z hz, hrange z hz⟩, h.moves z hz⟩
  · rintro ⟨⟨hz, ha, hb⟩, hne⟩
    have hlt : lo z < hi z := lt_of_le_of_ne (hrising.up z hz) hne
    -- The walk passes the place where the step begins, so it passes it with that step.
    obtain ⟨y, hy, hbegin, hend⟩ := h.covers ha (hlt.trans_le hb)
    rcases hrising.trichotomy (hsub y hy) hz with rfl | hle | hle
    · exact hy
    · exact absurd hend (not_lt.2 hle)
    · exact absurd (hlt.trans_le (hle.trans hbegin)) (lt_irrefl _)

theorem Walk.moving_eq (h : Walk lo hi a xs b) : moving lo hi xs = xs :=
  List.filter_eq_self.2 fun x hx => decide_eq_true (h.moves x hx)

end Order

end Links

end BorgCore
