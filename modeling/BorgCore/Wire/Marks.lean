import Mathlib.Data.List.Induction
import BorgCore.Wire.Worker

/-!
# The order on the wire

What a worker does on its wire belongs to one invocation after another: it hears of one, makes the requests
of its body, and says that it is over.  Invocations are numbered, and none begins twice.
-/

namespace BorgCore

namespace Wire

/-! ### The order on the wire -/

/-- What a worker may do on its wire, and the invocation it leaves open. -/
inductive Ordered : List Mark → Option ℕ → Prop
  | start : Ordered [] none
  | begun {wire : List Mark} {k : ℕ} : Ordered wire none → .begun k ∉ wire →
      Ordered (wire ++ [.begun k]) (some k)
  | request {wire : List Mark} {call : Call} : Ordered wire (some call.invocation) →
      Ordered (wire ++ [.request call]) (some call.invocation)
  | ended {wire : List Mark} {k : ℕ} : Ordered wire (some k) → Ordered (wire ++ [.ended k]) none

namespace Ordered

variable {wire earlier later : List Mark} {mark : Mark} {live : Option ℕ} {k : ℕ}

theorem concat_cases (h : Ordered (wire ++ [mark]) live) :
    (∃ k, mark = .begun k ∧ live = some k ∧ Ordered wire none ∧ .begun k ∉ wire) ∨
    (∃ call : Call, mark = .request call ∧ live = some call.invocation ∧ Ordered wire (some call.invocation)) ∨
    (∃ k, mark = .ended k ∧ live = none ∧ Ordered wire (some k)) := by
  generalize hwhole : wire ++ [mark] = whole at h
  cases h with
  | start => simp at hwhole
  | begun h hnew =>
    obtain ⟨rfl, hmark⟩ := List.append_inj' hwhole rfl
    exact .inl ⟨_, by simpa using hmark, rfl, h, hnew⟩
  | request h =>
    obtain ⟨rfl, hmark⟩ := List.append_inj' hwhole rfl
    exact .inr (.inl ⟨_, by simpa using hmark, rfl, h⟩)
  | ended h =>
    obtain ⟨rfl, hmark⟩ := List.append_inj' hwhole rfl
    exact .inr (.inr ⟨_, by simpa using hmark, rfl, h⟩)

theorem of_append (h : Ordered (earlier ++ later) live) : ∃ live, Ordered earlier live := by
  induction later using List.reverseRecOn generalizing live with
  | nil => exact ⟨live, by simpa using h⟩
  | append_singleton later mark ih =>
    rw [← List.append_assoc] at h
    obtain ⟨_, _, _, h, _⟩ | ⟨_, _, _, h⟩ | ⟨_, _, _, h⟩ := h.concat_cases <;> exact ih h

/-- Since an open invocation began the worker has sent its requests and nothing else. -/
theorem since_begun (h : Ordered wire (some k)) :
    ∃ before own, wire = before ++ .begun k :: own ∧ .begun k ∉ before ∧
      ∀ mark ∈ own, ∃ call, mark = .request call ∧ call.invocation = k := by
  generalize hlive : some k = live at h
  induction h with
  | start => cases hlive
  | @begun wire k' h hnew _ =>
    obtain rfl : k = k' := by simpa using hlive
    exact ⟨wire, [], rfl, hnew, by simp⟩
  | @request wire call h ih =>
    obtain ⟨before, own, rfl, hbefore, hown⟩ := ih hlive
    refine ⟨before, own ++ [.request call], by simp, hbefore, fun mark hmark => ?_⟩
    rcases List.mem_append.1 hmark with hmark | hmark
    · exact hown mark hmark
    · exact ⟨call, by simpa using hmark, by simpa using hlive.symm⟩
  | ended h ih => cases hlive

theorem mem_begun (h : Ordered wire (some k)) : .begun k ∈ wire := by
  obtain ⟨before, own, rfl, -⟩ := h.since_begun
  simp

/-- Where a mark stands on the wire. -/
theorem mark_cases (h : Ordered (earlier ++ mark :: later) live) :
    (∃ k, mark = .begun k ∧ Ordered earlier none ∧ .begun k ∉ earlier) ∨
    (∃ call : Call, mark = .request call ∧ Ordered earlier (some call.invocation)) ∨
    (∃ k, mark = .ended k ∧ Ordered earlier (some k)) := by
  rw [List.append_cons] at h
  obtain ⟨_, h⟩ := h.of_append
  obtain ⟨k, hmark, -, h, hnew⟩ | ⟨call, hmark, -, h⟩ | ⟨k, hmark, -, h⟩ := h.concat_cases
  · exact .inl ⟨k, hmark, h, hnew⟩
  · exact .inr (.inl ⟨call, hmark, h⟩)
  · exact .inr (.inr ⟨k, hmark, h⟩)

/-- A request is sent in the invocation whose body made it. -/
theorem request_within {call : Call} (h : Ordered (earlier ++ .request call :: later) live) :
    Ordered earlier (some call.invocation) := by
  obtain ⟨_, hmark, -⟩ | ⟨_, hmark, h⟩ | ⟨_, hmark, -⟩ := h.mark_cases <;> cases hmark
  exact h

theorem ended_within (h : Ordered (earlier ++ .ended k :: later) live) : Ordered earlier (some k) := by
  obtain ⟨_, hmark, -⟩ | ⟨_, hmark, -⟩ | ⟨_, hmark, h⟩ := h.mark_cases <;> cases hmark
  exact h

theorem ended_silent (h : Ordered (earlier ++ .ended k :: later) live) {call : Call}
    (hcall : .request call ∈ later) : call.invocation ≠ k := by
  rintro rfl
  have hbegun := h.ended_within.mem_begun
  obtain ⟨between, rest, rfl⟩ := List.append_of_mem hcall
  have hopen : Ordered (earlier ++ .ended call.invocation :: between) (some call.invocation) :=
    request_within (by simpa using h)
  obtain ⟨before, own, hwire, hbefore, hown⟩ := hopen.since_begun
  -- the invocation began before it ended, and nothing it has begun since has
  obtain ⟨own', rfl, -⟩ | ⟨own', rfl, hrest⟩ := List.append_eq_append_iff.1 hwire
  · exact hbefore (List.mem_append_left _ hbegun)
  · obtain ⟨hnil, hmark⟩ | ⟨own'', rfl, hmark⟩ := List.cons_eq_append_iff.1 hrest
    · cases hmark
    · obtain ⟨_, hcall, -⟩ := hown (.ended call.invocation) (by simp [hmark])
      cases hcall

end Ordered

/-- Invocations are numbered: those in the pipe have not begun, and there were so many. -/
structure Fresh (count : ℕ) (toWorker : List ToWorker) (wire : List Mark) : Prop where
  ahead : ∀ k producer input, .invoke k producer input ∈ toWorker → .begun k ∉ wire ∧ k < count
  begun : ∀ k, .begun k ∈ wire → k < count

namespace Fresh

variable {count k : ℕ} {toWorker toWorker' : List ToWorker} {wire wire' : List Mark}

theorem congr (h : Fresh count toWorker wire)
    (hpipe : ∀ k producer input, .invoke k producer input ∈ toWorker' → .invoke k producer input ∈ toWorker)
    (hwire : ∀ k, .begun k ∈ wire' ↔ .begun k ∈ wire) : Fresh count toWorker' wire' where
  ahead k producer input hmem := by
    rw [hwire]
    exact h.ahead k producer input (hpipe k producer input hmem)
  begun k hmem := h.begun k ((hwire k).1 hmem)

theorem begins {producer : ℕ} {input : String} (h : Fresh count (.invoke k producer input :: toWorker) wire)
    (hlast : ∀ k producer input, .invoke k producer input ∉ toWorker) :
    Fresh count toWorker (wire ++ [.begun k]) where
  ahead j producer input hmem := absurd hmem (hlast j producer input)
  begun j hmem := by
    rcases List.mem_append.1 hmem with hmem | hmem
    · exact h.begun j hmem
    · obtain rfl : j = k := by simpa using hmem
      exact (h.ahead j producer input (List.mem_cons_self ..)).2

theorem invoke (h : Fresh count toWorker wire) (producer : ℕ) (input : String) :
    Fresh (count + 1) (toWorker ++ [.invoke count producer input]) wire where
  ahead j producer' input' hmem := by
    rcases List.mem_append.1 hmem with hmem | hmem
    · obtain ⟨hnew, hlt⟩ := h.ahead j producer' input' hmem
      exact ⟨hnew, by omega⟩
    · obtain rfl : j = count := by simpa using And.left (by simpa using hmem)
      exact ⟨fun hbegun => absurd (h.begun j hbegun) (Nat.lt_irrefl j), by omega⟩
  begun j hmem := Nat.lt_succ_of_lt (h.begun j hmem)

theorem mono {more : ℕ} (h : Fresh count toWorker wire) (hle : count ≤ more) : Fresh more toWorker wire where
  ahead k producer input hmem := (h.ahead k producer input hmem).imp_right fun hlt => Nat.lt_of_lt_of_le hlt hle
  begun k hmem := Nat.lt_of_lt_of_le (h.begun k hmem) hle

end Fresh

end Wire

end BorgCore
