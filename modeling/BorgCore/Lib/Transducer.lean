import Mathlib.Data.List.Basic

/-!
# Transducers

A transducer reads one input after another and writes as it goes, or gives up.  Its runs compose; what holds of
whatever a step writes holds of whatever a run writes.
-/

namespace BorgCore

/-- What reading one input does: it moves the state and writes, or gives up. -/
abbrev Transducer (S I O : Type*) := S → I → Option (S × List O)

namespace Transducer

variable {S I O : Type*} (t : Transducer S I O)

def run : S → List I → Option (S × List O)
  | s, [] => some (s, [])
  | s, i :: rest => (t s i).bind fun (s', written) => (run s' rest).map fun (s'', more) => (s'', written ++ more)

variable {t} {s s' s'' : S} {xs ys : List I} {os os' : List O}

@[simp] theorem run_nil : run t s [] = some (s, []) := rfl

theorem run_cons {i : I} (hstep : t s i = some (s', os)) (hrest : run t s' xs = some (s'', os')) :
    run t s (i :: xs) = some (s'', os ++ os') := by
  simp only [run, hstep, Option.bind_some, hrest, Option.map_some]

theorem run_cons_eq_some {i : I} (h : run t s (i :: xs) = some (s'', os')) :
    ∃ s' os more, t s i = some (s', os) ∧ run t s' xs = some (s'', more) ∧ os' = os ++ more := by
  obtain ⟨⟨s', os⟩, hstep, hrest⟩ := Option.bind_eq_some_iff.1 h
  obtain ⟨⟨last, more⟩, hrun, hpair⟩ := Option.map_eq_some_iff.1 hrest
  cases hpair
  exact ⟨s', os, more, hstep, hrun, rfl⟩

theorem run_append (h : run t s xs = some (s', os)) (h' : run t s' ys = some (s'', os')) :
    run t s (xs ++ ys) = some (s'', os ++ os') := by
  induction xs generalizing s os with
  | nil =>
    cases h
    exact h'
  | cons x rest ih =>
    obtain ⟨next, written, more, hstep, hrest, rfl⟩ := run_cons_eq_some h
    rw [List.append_assoc]
    exact run_cons hstep (ih hrest)

/-- A state that reads an input as another state does, but for what it writes first, reads on as that one. -/
theorem run_cons_of_step {i : I} {pending : List O}
    (hstep : t s i = (t s' i).map fun (next, written) => (next, pending ++ written))
    (h : run t s' (i :: xs) = some (s'', os)) : run t s (i :: xs) = some (s'', pending ++ os) := by
  obtain ⟨next, written, more, hfirst, hrest, rfl⟩ := run_cons_eq_some h
  rw [hfirst] at hstep
  rw [← List.append_assoc]
  exact run_cons hstep hrest

theorem run_writes {keeps : S → Prop} {writes : O → Prop}
    (hstep : ∀ {s i s' os}, keeps s → t s i = some (s', os) → keeps s' ∧ ∀ o ∈ os, writes o)
    (hs : keeps s) (h : run t s xs = some (s', os)) : keeps s' ∧ ∀ o ∈ os, writes o := by
  induction xs generalizing s os with
  | nil =>
    cases h
    exact ⟨hs, nofun⟩
  | cons x rest ih =>
    obtain ⟨next, written, more, hfirst, hrest, rfl⟩ := run_cons_eq_some h
    obtain ⟨hnext, hwritten⟩ := hstep hs hfirst
    obtain ⟨hlast, hmore⟩ := ih hnext hrest
    exact ⟨hlast, fun o ho => (List.mem_append.1 ho).elim (hwritten o) (hmore o)⟩

/-- Where one transducer goes, so does another that goes there a step at a time. -/
theorem run_mono {t' : Transducer S I O} (hstep : ∀ {s i r}, t s i = some r → t' s i = some r)
    (h : run t s xs = some (s', os)) : run t' s xs = some (s', os) := by
  induction xs generalizing s os with
  | nil => exact h
  | cons x rest ih =>
    obtain ⟨next, written, more, hfirst, hrest, rfl⟩ := run_cons_eq_some h
    exact run_cons (hstep hfirst) (ih hrest)

end Transducer

end BorgCore
