import Mathlib.Data.List.Forall2

/-!
# Calls that keep what they had done

`EStateM` is a call on a state that may fail, and that leaves the state where it had got to.  These
are its rules for a sequence: one step forward, and one step back from a result.
-/

namespace BorgCore

namespace Calls

variable {ε σ α β : Type} {x : EStateM ε σ α} {f : α → EStateM ε σ β} {s t u : σ} {a : α} {b : β}
  {e : ε}

theorem bind_ok (h : x s = .ok a t) : (x >>= f) s = f a t := by
  simp only [bind, EStateM.bind, h]

theorem bind_error (h : x s = .error e t) : (x >>= f) s = .error e t := by
  simp only [bind, EStateM.bind, h]

theorem bind_eq_ok_iff : (x >>= f) s = .ok b u ↔ ∃ a t, x s = .ok a t ∧ f a t = .ok b u := by
  constructor
  · intro h
    cases hx : x s with
    | ok a t =>
      rw [bind_ok hx] at h
      exact ⟨a, t, rfl, h⟩
    | error e t =>
      rw [bind_error hx] at h
      cases h
  · rintro ⟨a, t, hx, hf⟩
    rw [bind_ok hx, hf]

/-- The same of a question, which leaves no state. -/
theorem except_bind_eq_ok {x : Except ε α} {f : α → Except ε β} (h : (x >>= f) = .ok b) :
    ∃ a, x = .ok a ∧ f a = .ok b := by
  cases x with
  | error err => cases h
  | ok a => exact ⟨a, rfl, h⟩

theorem except_bind_ok {x : Except ε α} {f : α → Except ε β} (h : x = .ok a) : (x >>= f) = f a := by
  rw [h]
  rfl

theorem get_run : (get : EStateM ε σ σ) s = .ok s s := rfl

theorem pure_run : (pure a : EStateM ε σ α) s = .ok a s := rfl

theorem throw_run : (throw e : EStateM ε σ α) s = .error e s := rfl

/-! ### However a call ends -/

def outcome : EStateM.Result ε σ α → Except ε α
  | .ok a _ => .ok a
  | .error e _ => .error e

def left : EStateM.Result ε σ α → σ
  | .ok _ t => t
  | .error _ t => t

theorem eq_ok_of_outcome {result : EStateM.Result ε σ α} (h : outcome result = .ok a) :
    result = .ok a (left result) := by
  cases result with
  | ok found t =>
    cases h
    rfl
  | error e t => cases h

/-- What holds of where a call ends, whether it succeeds or fails. -/
def Ends (x : EStateM ε σ α) (s : σ) (post : Except ε α → σ → Prop) : Prop :=
  match x s with
  | .ok a t => post (.ok a) t
  | .error e t => post (.error e) t

variable {post post' : Except ε α → σ → Prop} {last : Except ε β → σ → Prop}

theorem Ends.of_error (h : x s = .error e t) (hp : post (.error e) t) : Ends x s post := by
  rw [Ends, h]
  exact hp

theorem Ends.ok (he : Ends x s post) (h : x s = .ok a t) : post (.ok a) t := by
  rwa [Ends, h] at he

theorem Ends.error (he : Ends x s post) (h : x s = .error e t) : post (.error e) t := by
  rwa [Ends, h] at he

theorem ends_iff : Ends x s post ↔ post (outcome (x s)) (left (x s)) := by
  unfold Ends
  cases x s <;> rfl

theorem Ends.mono (he : Ends x s post) (h : ∀ answer t, post answer t → post' answer t) :
    Ends x s post' := by
  unfold Ends at he ⊢
  cases hx : x s with
  | ok a t =>
    rw [hx] at he
    exact h _ _ he
  | error e t =>
    rw [hx] at he
    exact h _ _ he

/-- A sequence ends where its second step does, or where its first step failed. -/
theorem Ends.bind (he : Ends x s fun answer t => match answer with
      | .ok a => Ends (f a) t last
      | .error e => last (.error e) t) : Ends (x >>= f) s last := by
  cases hx : x s with
  | ok a t =>
    have hf : Ends (f a) t last := he.ok hx
    unfold Ends at hf ⊢
    rw [bind_ok hx]
    exact hf
  | error e t => exact .of_error (bind_error hx) (he.error hx)

theorem Ends.step (h : x s = .ok a t) (hf : Ends (f a) t last) : Ends (x >>= f) s last := by
  unfold Ends at hf ⊢
  rw [bind_ok h]
  exact hf

/-- What two descriptions of a call say holds of one ending. -/
theorem Ends.exists_both (he : Ends x s post) (he' : Ends x s post') :
    ∃ answer t, post answer t ∧ post' answer t := by
  unfold Ends at he he'
  cases hx : x s with
  | ok a t =>
    rw [hx] at he he'
    exact ⟨.ok a, t, he, he'⟩
  | error e t =>
    rw [hx] at he he'
    exact ⟨.error e, t, he, he'⟩

theorem Ends.returning (g : α → β) (he : Ends x s post) :
    Ends (do return g (← x)) s fun answer t => ∃ found, post found t ∧ answer = found.map g := by
  refine .bind (he.mono fun answer t hp => ?_)
  cases answer with
  | ok a => exact ⟨.ok a, hp, rfl⟩
  | error e => exact ⟨.error e, hp, rfl⟩

theorem Ends.pure {a : α} (hp : post (.ok a) s) : Ends (pure a : EStateM ε σ α) s post := hp

theorem Ends.throw {e : ε} (hp : post (.error e) s) : Ends (throw e : EStateM ε σ α) s post := hp

/-! ### A question for each element -/

/-- Asked for each element of a list, a question that may fail answers each of them. -/
theorem forall₂_of_mapM {question : α → Except ε β} {as : List α} {bs : List β}
    (h : as.mapM question = .ok bs) : List.Forall₂ (fun a b => question a = .ok b) as bs := by
  induction as generalizing bs with
  | nil =>
    cases h
    exact .nil
  | cons a as ih =>
    rw [List.mapM_cons] at h
    simp only [bind, Except.bind, pure, Except.pure] at h
    cases ha : question a with
    | error err => simp [ha] at h
    | ok b =>
      cases has : as.mapM question with
      | error err => simp [ha, has] at h
      | ok bs' =>
        simp only [ha, has, Except.ok.injEq] at h
        rw [← h]
        exact .cons ha (ih has)

/-- What is asked of each element is undone for each answer. -/
theorem mapM_inverse {ε' : Type} {question : α → Except ε β} {back : β → Except ε' α}
    (hback : ∀ a b, question a = .ok b → back b = .ok a) {as : List α} {bs : List β}
    (h : as.mapM question = .ok bs) : bs.mapM back = .ok as := by
  have hanswers := forall₂_of_mapM h
  clear h
  induction hanswers with
  | nil => rfl
  | cons ha _ ih =>
    rw [List.mapM_cons, except_bind_ok (hback _ _ ha), except_bind_ok ih]
    rfl

theorem filterM_ok {α : Type} {question : α → Except ε Bool} (h : ∀ a, ∃ answer, question a = .ok answer)
    (as : List α) : ∃ found, as.filterM question = .ok found := by
  have haux : ∀ as kept : List α, ∃ found, List.filterAuxM question as kept = .ok found := by
    intro as
    induction as with
    | nil => exact fun kept => ⟨kept, rfl⟩
    | cons a rest ih =>
      intro kept
      obtain ⟨answer, ha⟩ := h a
      rw [List.filterAuxM, ha]
      exact ih _
  obtain ⟨found, hf⟩ := haux as []
  exact ⟨found.reverse, by rw [List.filterM, hf]; rfl⟩

end Calls

end BorgCore
