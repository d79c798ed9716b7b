import Mathlib.Data.Fintype.Card
import Mathlib.Data.Fintype.EquivFin
import Mathlib.Data.Fintype.Sets
import Mathlib.Data.List.Perm.Subperm
import Mathlib.Logic.Function.Iterate
import Mathlib.Logic.Relation

/-!
# Worklists

The set reachable from some starting points, computed with a stack: an element is popped, and its
successors that are new are added to the set and pushed.  The measure is the number of pops still to
come, at most the length of the stack and one for each element not seen yet.
-/

namespace BorgCore

namespace Worklist

variable {α : Type} [DecidableEq α]

/-- The elements of a list that are not in a set, each once, in the order they come. -/
def fresh (seen : List α) : List α → List α
  | [] => []
  | a :: rest => if a ∈ seen then fresh seen rest else a :: fresh (a :: seen) rest

/-- Close `seen` under `next`, given the elements still on the stack, top first. -/
def close (next : α → List α) : Nat → List α → List α → List α
  | 0, _, seen => seen
  | _ + 1, [], seen => seen
  | fuel + 1, a :: stack, seen =>
    let new := fresh seen (next a)
    close next fuel (new.reverse ++ stack) (seen ++ new)

def Leads (next : α → List α) : α → α → Prop := Relation.ReflTransGen fun a b => b ∈ next a

omit [DecidableEq α] in
/-- Finitely many steps, none of which leads back to where it started, can be taken in order. -/
theorem wellFounded_of_acyclic {r : α → α → Prop} (nodes : List α) (hin : ∀ a b, r a b → b ∈ nodes)
    (h : ∀ a, ¬ Relation.TransGen r a a) : WellFounded r := by
  classical
  let listed := { a : α // a ∈ nodes }
  have hfin : Finite listed := Finite.of_fintype listed
  have htrans : IsTrans listed fun a b => Relation.TransGen r a.1 b.1 := ⟨fun _ _ _ hab hbc => hab.trans hbc⟩
  have hirrefl : Std.Irrefl fun a b : listed => Relation.TransGen r a.1 b.1 := ⟨fun a => h a.1⟩
  have hwf : WellFounded fun a b : listed => Relation.TransGen r a.1 b.1 :=
    Finite.wellFounded_of_trans_of_irrefl _
  -- What is not listed has nothing before it.
  have hfirst {a : α} (ha : a ∉ nodes) : Acc r a := Acc.intro _ fun b hb => absurd (hin b a hb) ha
  have hacc (a : listed) : Acc r a.1 := by
    induction a using hwf.induction with
    | _ a ih =>
      refine Acc.intro _ fun b hb => ?_
      by_cases hl : b ∈ nodes
      · exact ih ⟨b, hl⟩ (.single hb)
      · exact hfirst hl
  refine ⟨fun a => ?_⟩
  by_cases hl : a ∈ nodes
  · exact hacc ⟨a, hl⟩
  · exact hfirst hl

theorem mem_fresh {a : α} {seen xs : List α} : a ∈ fresh seen xs ↔ a ∈ xs ∧ a ∉ seen := by
  induction xs generalizing seen with
  | nil => simp [fresh]
  | cons x xs ih =>
    rw [fresh]
    split
    · rename_i hx
      rw [ih]
      constructor
      · rintro ⟨h, hs⟩
        exact ⟨List.mem_cons_of_mem _ h, hs⟩
      · rintro ⟨h, hs⟩
        rcases List.mem_cons.1 h with rfl | h
        · exact absurd hx hs
        · exact ⟨h, hs⟩
    · rename_i hx
      rw [List.mem_cons, ih]
      constructor
      · rintro (rfl | ⟨h, hs⟩)
        · exact ⟨List.mem_cons_self, hx⟩
        · exact ⟨List.mem_cons_of_mem _ h, fun hm => hs (List.mem_cons_of_mem _ hm)⟩
      · rintro ⟨h, hs⟩
        by_cases ha : a = x
        · exact Or.inl ha
        · refine Or.inr ⟨(List.mem_cons.1 h).resolve_left ha, ?_⟩
          simp [ha, hs]

theorem fresh_nodup (seen xs : List α) : (fresh seen xs).Nodup := by
  induction xs generalizing seen with
  | nil => exact List.nodup_nil
  | cons x xs ih =>
    rw [fresh]
    split
    · exact ih seen
    · refine List.nodup_cons.2 ⟨fun h => ?_, ih _⟩
      exact (mem_fresh.1 h).2 List.mem_cons_self

/-- Seeing new elements of a domain leaves that many fewer of it unseen. -/
theorem unseen_append (domain seen new : List α) (hnew : new.Nodup)
    (hin : ∀ a ∈ new, a ∈ domain) (hout : ∀ a ∈ new, a ∉ seen) :
    (domain.filter (· ∉ seen ++ new)).length + new.length ≤
      (domain.filter (· ∉ seen)).length := by
  have hsub : new ⊆ domain.filter (· ∉ seen) := fun a ha =>
    List.mem_filter.2 ⟨hin a ha, by simpa using hout a ha⟩
  have hperm : (domain.filter (· ∉ seen ++ new)) =
      (domain.filter (· ∉ seen)).filter (· ∉ new) := by
    rw [List.filter_filter]
    refine List.filter_congr fun a _ => ?_
    simp [Bool.and_comm]
  have hsplit := List.length_eq_length_filter_add (l := domain.filter (· ∉ seen)) (· ∉ new)
  have hge : new.length ≤ ((domain.filter (· ∉ seen)).filter fun a => !decide (a ∉ new)).length := by
    refine (List.subperm_of_subset hnew fun a ha => ?_).length_le
    exact List.mem_filter.2 ⟨hsub ha, by simpa using ha⟩
  rw [hperm]
  omega

variable {next : α → List α}

/-- **The worklist computes the reachable set.**  Every element seen is on the stack or has all its
successors seen, so nothing reachable is left out when the stack is empty. -/
theorem mem_close {domain : List α} (hnext : ∀ a b, b ∈ next a → b ∈ domain) {fuel : Nat}
    {stack seen : List α} (hfuel : stack.length + (domain.filter (· ∉ seen)).length ≤ fuel)
    (hstack : ∀ a ∈ stack, a ∈ seen)
    (hdone : ∀ a ∈ seen, a ∈ stack ∨ ∀ b ∈ next a, b ∈ seen) {b : α} :
    b ∈ close next fuel stack seen ↔ ∃ a ∈ seen, Leads next a b := by
  induction fuel generalizing stack seen with
  | zero =>
    have hnil : stack = [] := List.length_eq_zero_iff.1 (by omega)
    subst hnil
    exact mem_seen_iff hdone
  | succ fuel ih =>
    match stack with
    | [] => exact mem_seen_iff hdone
    | a :: stack =>
      have hunseen := unseen_append domain seen (fresh seen (next a)) (fresh_nodup _ _)
        (fun c hc => hnext a c (mem_fresh.1 hc).1) (fun c hc => (mem_fresh.1 hc).2)
      have hpops : ((fresh seen (next a)).reverse ++ stack).length +
          (domain.filter (· ∉ seen ++ fresh seen (next a))).length ≤ fuel := by
        rw [List.length_append, List.length_reverse]
        rw [List.length_cons] at hfuel
        omega
      rw [close, ih hpops]
      · constructor
        · rintro ⟨c, hc, hl⟩
          rcases List.mem_append.1 hc with hc | hc
          · exact ⟨c, hc, hl⟩
          · exact ⟨a, hstack a List.mem_cons_self, .head (mem_fresh.1 hc).1 hl⟩
        · rintro ⟨c, hc, hl⟩
          exact ⟨c, List.mem_append_left _ hc, hl⟩
      · intro c hc
        rcases List.mem_append.1 hc with hc | hc
        · exact List.mem_append_right _ (List.mem_reverse.1 hc)
        · exact List.mem_append_left _ (hstack c (List.mem_cons_of_mem _ hc))
      · intro c hc
        rcases List.mem_append.1 hc with hc | hc
        · rcases hdone c hc with hin | hall
          · rcases List.mem_cons.1 hin with rfl | hin
            · refine Or.inr fun d hd => ?_
              by_cases hs : d ∈ seen
              · exact List.mem_append_left _ hs
              · exact List.mem_append_right _ (mem_fresh.2 ⟨hd, hs⟩)
            · exact Or.inl (List.mem_append_right _ hin)
          · exact Or.inr fun d hd => List.mem_append_left _ (hall d hd)
        · exact Or.inl (List.mem_append_left _ (List.mem_reverse.2 hc))
where
  mem_seen_iff {seen : List α} (hdone : ∀ a ∈ seen, a ∈ [] ∨ ∀ b ∈ next a, b ∈ seen) {b : α} :
      b ∈ seen ↔ ∃ a ∈ seen, Leads next a b := by
    constructor
    · exact fun h => ⟨b, h, .refl⟩
    · rintro ⟨a, ha, hl⟩
      induction hl with
      | refl => exact ha
      | tail _ hstep ih => exact ((hdone _ ih).resolve_left (by simp)) _ hstep

/-! ### The loop -/

/-- One turn of the loop, on its stack and what it has seen; with nothing on the stack it is over. -/
def pop (next : α → List α) : List α × List α → List α × List α
  | ([], seen) => ([], seen)
  | (a :: stack, seen) => ((fresh seen (next a)).reverse ++ stack, seen ++ fresh seen (next a))

theorem iterate_pop_nil (next : α → List α) (turns : Nat) (seen : List α) :
    (pop next)^[turns] ([], seen) = ([], seen) :=
  Function.iterate_fixed rfl turns

/-- **The loop ends**: there are at most as many turns as elements on the stack and not seen yet, and what
has then been seen is the closure. -/
theorem iterate_pop {domain : List α} (hnext : ∀ a b, b ∈ next a → b ∈ domain) {turns : Nat}
    {stack seen : List α} (hturns : stack.length + (domain.filter (· ∉ seen)).length ≤ turns) :
    (pop next)^[turns] (stack, seen) = ([], close next turns stack seen) := by
  induction turns generalizing stack seen with
  | zero =>
    have hnil : stack = [] := List.length_eq_zero_iff.1 (by omega)
    subst hnil
    rfl
  | succ turns ih =>
    rw [Function.iterate_succ_apply]
    match stack with
    | [] =>
      rw [pop, iterate_pop_nil, close]
    | a :: stack =>
      have hunseen := unseen_append domain seen (fresh seen (next a)) (fresh_nodup _ _)
        (fun c hc => hnext a c (mem_fresh.1 hc).1) (fun c hc => (mem_fresh.1 hc).2)
      rw [pop, close, ih]
      rw [List.length_append, List.length_reverse]
      rw [List.length_cons] at hturns
      omega

end Worklist

end BorgCore
