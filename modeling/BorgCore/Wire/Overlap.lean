import BorgCore.Lib.Machine
import BorgCore.Wire.Upright

/-!
# Invocations keep apart

The executor hands a worker on only when it has answered everything the last invocation sent.  So a body's
calls are the only ones served in its invocation, as long as all its calls have been sent when the worker
says that it is over.  One that still waits for its turn then is sent in the next invocation.
-/

namespace BorgCore

namespace Wire

/-! ### The pool -/

namespace Line

variable {line : Line}

theorem listen_executor (ready : List ToWorker) : (line.listen ready).executor = line.executor := by
  induction ready generalizing line with
  | nil =>
    simp only [listen]
    split <;> rfl
  | cons message ready ih =>
    cases message with
    | invoke => rfl
    | shutdown => rfl
    | value => exact ih
    | ok => exact ih

theorem hears_executor (heard : List (Option ToWorker)) : (line.hears heard).executor = line.executor := by
  rcases heard with _ | ⟨_ | message, _⟩
  · rfl
  · rfl
  · exact listen_executor _

/-- The executor's end moves when it serves the end of an invocation, or gives the worker up. -/
theorem next_executor (step : LineStep) :
    (line.next step).executor = line.executor ∨ (line.next step).executor = .gone ∨
      ∃ k, line.executor = .serving k ∧ (line.next step).executor = .idle := by
  cases step with
  | issue asked =>
    refine .inl ?_
    simp only [next, issue]
    split <;> rfl
  | turn => exact .inl rfl
  | settle failure =>
    refine .inl ?_
    simp only [next, settle]
    split
    · rfl
    · exact listen_executor _
  | arrive =>
    refine .inl ?_
    simp only [next, arrive]
    split
    · rfl
    · exact hears_executor _
  | hangUp =>
    refine .inl ?_
    simp only [next, hangUp]
    split
    · exact hears_executor _
    · rfl
  | service answer =>
    simp only [next, service]
    split
    · next k _ _ _ hexecutor _ =>
      cases answer with
      | none => exact .inr (.inl (by simp [abandon, hexecutor]))
      | some text => exact .inl rfl
    · next k _ _ hexecutor _ => exact .inr (.inr ⟨k, hexecutor, rfl⟩)
    · next k _ _ _ hexecutor _ => exact .inr (.inr ⟨k, hexecutor, rfl⟩)
    · exact .inl rfl
  | abandon =>
    cases hexecutor : line.executor <;> simp [next, abandon, hexecutor]

end Line

namespace Pool

variable {pool : Pool} {worker : ℕ}

/-- What holds of a pool at every moment: its workers are upright, and the idle ones serve nobody. -/
structure Sound (pool : Pool) : Prop where
  upright : ∀ worker, Upright pool.invocations (pool.lines worker)
  nodup : pool.idle.Nodup
  idle : ∀ worker ∈ pool.idle, worker < pool.spawned ∧ (pool.lines worker).executor = .idle
  unspawned : ∀ worker, pool.spawned ≤ worker → (pool.lines worker).executor = .idle

theorem Sound.new (size : ℕ) : Sound (.new size) where
  upright _ := .spawned 0
  nodup := .nil
  idle := by simp [Pool.new]
  unspawned _ _ := rfl

theorem Sound.moves (h : pool.Sound) {after : Pool} {line : Line}
    (hlines : after.lines = Function.update pool.lines worker line)
    (hcount : pool.invocations ≤ after.invocations) (hupright : Upright after.invocations line)
    (hspawned : pool.spawned ≤ after.spawned) (hlt : worker < after.spawned) (hnodup : after.idle.Nodup)
    (hidle : ∀ other ∈ after.idle, other ≠ worker ∧ other ∈ pool.idle ∨ other = worker ∧ line.executor = .idle) :
    after.Sound := by
  have hself : after.lines worker = line := by rw [hlines, Function.update_self]
  have hothers : ∀ other, other ≠ worker → after.lines other = pool.lines other := fun other hne => by
    rw [hlines, Function.update_of_ne hne]
  refine ⟨fun other => ?_, hnodup, fun other hmem => ?_, fun other hother => ?_⟩
  · by_cases heq : other = worker
    · rw [heq, hself]
      exact hupright
    · rw [hothers other heq]
      exact (h.upright other).mono hcount
  · rcases hidle other hmem with ⟨hne, hmem⟩ | ⟨rfl, hexecutor⟩
    · rw [hothers other hne]
      exact (h.idle other hmem).imp_left fun hother => hother.trans_le hspawned
    · exact ⟨hlt, hself ▸ hexecutor⟩
  · rw [hothers other (hlt.trans_le hother).ne']
    exact h.unspawned other (hspawned.trans hother)

theorem Sound.checkout (h : pool.Sound) (producer : ℕ) (input : String) :
    (pool.checkout producer input).Sound := by
  unfold Pool.checkout
  split
  · exact h
  · rcases hidle : pool.idle with _ | ⟨worker, idle⟩
    · exact h.moves rfl (Nat.le_succ _) ((h.upright _).invoke (h.unspawned _ le_rfl) producer input)
        (Nat.le_succ _) (Nat.lt_succ_self _) List.nodup_nil (by simp)
    · have hnodup := h.nodup
      rw [hidle] at hnodup
      obtain ⟨hout, hrest⟩ := List.nodup_cons.1 hnodup
      obtain ⟨hlt, hworker⟩ := h.idle worker (hidle ▸ List.mem_cons_self ..)
      refine h.moves rfl (Nat.le_succ _) ((h.upright _).invoke hworker producer input) le_rfl hlt hrest
        fun other hmem => .inl ⟨?_, hidle ▸ List.mem_cons_of_mem _ hmem⟩
      rintro rfl
      exact hout hmem

theorem Sound.step (h : pool.Sound) (hlt : worker < pool.spawned) {step : LineStep}
    (hsettles : (pool.lines worker).Settles step) : (pool.step worker step).Sound := by
  have hupright := (h.upright worker).next hsettles
  have hkeeps : ∀ {k}, (pool.lines worker).executor = .serving k → worker ∉ pool.idle := fun hserving hmem => by
    simp [(h.idle worker hmem).2] at hserving
  simp only [Pool.step]
  split
  · next k hbefore hafter =>
    refine h.moves rfl le_rfl hupright le_rfl hlt (List.nodup_cons.2 ⟨hkeeps hbefore, h.nodup⟩)
      fun other hmem => ?_
    rcases List.mem_cons.1 hmem with rfl | hmem
    · exact .inr ⟨rfl, hafter⟩
    · exact .inl ⟨fun heq => hkeeps hbefore (heq ▸ hmem), hmem⟩
  · next k hbefore hafter =>
    exact h.moves rfl le_rfl hupright le_rfl hlt h.nodup
      fun other hmem => .inl ⟨fun heq => hkeeps hbefore (heq ▸ hmem), hmem⟩
  · next hbefore hafter =>
    refine h.moves rfl le_rfl hupright le_rfl hlt (h.nodup.filter _) fun other hmem => .inl ?_
    simpa [and_comm] using hmem
  · next hserved hleft hgone =>
    refine h.moves rfl le_rfl hupright le_rfl hlt h.nodup fun other hmem => ?_
    by_cases heq : other = worker
    · subst heq
      have hbefore := (h.idle other hmem).2
      refine .inr ⟨rfl, ?_⟩
      obtain hsame | hafter | ⟨k, hserving, -⟩ := (pool.lines other).next_executor step
      · exact hsame.trans hbefore
      · exact absurd hafter (hgone hbefore)
      · simp [hbefore] at hserving
    · exact .inl ⟨heq, hmem⟩

/-- When a worker says that a body is over, it has sent every call the body made. -/
def Settles (pool : Pool) : PoolStep → Prop
  | .checkout .. => True
  | .line worker step => (pool.lines worker).Settles step

instance (pool : Pool) : DecidablePred pool.Settles
  | .checkout .. => isTrue trivial
  | .line worker step => inferInstanceAs (Decidable ((pool.lines worker).Settles step))

theorem Sound.next (h : pool.Sound) {step : PoolStep} (hsettles : pool.Settles step) : (pool.next step).Sound := by
  cases step with
  | checkout producer input => exact h.checkout producer input
  | line worker step =>
    simp only [Pool.next]
    split
    · next hlt => exact h.step hlt hsettles
    · exact h

end Pool

/-! ### Runs -/

/-- The invocations of a worker keep apart. -/
structure Apart (line : Line) : Prop where
  /-- Between hearing of an invocation and saying that it is over, the worker sends what its body asks for. -/
  within : ∀ earlier call later, line.wire = earlier ++ .request call :: later →
    ∃ before own, earlier = before ++ .begun call.invocation :: own ∧
      ∀ mark ∈ own, ∃ other, mark = .request other ∧ other.invocation = call.invocation
  after : ∀ earlier k later, line.wire = earlier ++ .ended k :: later →
    ∀ call, .request call ∈ later → call.invocation ≠ k
  /-- A reply that arrives reaches the call that asked for it. -/
  replies : ∀ message rest call, line.toWorker = message :: rest → message.answered = some call →
    (call, some message) ∈ line.arrive.answers
  answers : ∀ call message, (call, some message) ∈ line.answers →
    ∀ other, message.answered = some other → other = call
  /-- The executor makes the accesses of a body in the invocation it serves. -/
  records : ∀ k call, (k, call) ∈ line.records → call.invocation = k

theorem Upright.apart {count : ℕ} {line : Line} (h : Upright count line) : Apart line where
  within earlier call later hwire := by
    have hordered := h.kept.ordered
    rw [hwire] at hordered
    obtain ⟨before, own, hearlier, -, hown⟩ := hordered.request_within.since_begun
    exact ⟨before, own, hearlier, hown⟩
  after earlier k later hwire call hcall := by
    have hordered := h.kept.ordered
    rw [hwire] at hordered
    exact hordered.ended_silent hcall
  replies message rest call hmessage hanswered := by
    cases hturn : line.worker.conn.exchanging with
    | none =>
      obtain ⟨-, ⟨k, producer, input, rfl, -⟩ | ⟨rfl, -⟩⟩ := h.stage.unasked hmessage hturn <;> cases hanswered
    | some turn =>
      obtain ⟨harrived, hanswers⟩ := h.arrive_exchange hmessage hturn
      have hmem : (turn, some message) ∈ line.arrive.answers := by simp [hanswers]
      rw [harrived.kept.answers turn message hmem call hanswered]
      exact hmem
  answers := h.kept.answers
  records := h.records

/-- **Invocations keep apart** on every worker of a pool, whatever is asked and in whatever order the parties
move, in every run where a worker has sent all the calls of a body when it says that the body is over. -/
theorem Pool.invocations_apart (size : ℕ) (steps : List PoolStep)
    (hsettles : Machine.Along Pool.next Pool.Settles (.new size) steps) (worker : ℕ) :
    Apart ((steps.foldl Pool.next (.new size)).lines worker) :=
  ((Machine.foldl_keeps (fun _ _ h hstep => h.next hstep) (Sound.new size) hsettles).upright worker).apart

def Pool.twice (first second : List LineStep) : List PoolStep :=
  .checkout 7 "Company:o-1" :: first.map (.line 0) ++ .checkout 7 "Company:o-2" :: second.map (.line 0)

theorem Pool.invocations_apart_awaited :
    Apart (((twice
      [.arrive, .issue (.get "Company:o-1.a"), .issue (.set "Company:o-1.b" "x"), .turn, .service (some (some "1")),
        .arrive, .turn, .service (some none), .settle none, .service none]
      [.arrive, .arrive, .issue (.get "Company:o-2.a"), .turn, .service (some none)]).foldl Pool.next
        (.new 1)).lines 0) :=
  invocations_apart 1 _ (by decide +kernel) 0

/-- A body that awaits neither its `get` nor its `set` has the `set` made in the invocation after its own. -/
theorem Pool.invocations_overlap :
    ¬ Apart (((twice
      [.arrive, .issue (.get "Company:o-1.a"), .issue (.set "Company:o-1.b" "x"), .turn, .settle none,
        .service (some (some "1")), .service none]
      [.arrive, .turn, .arrive, .service (some none)]).foldl Pool.next (.new 1)).lines 0) := by
  intro h
  have hrecord := h.records 1 ⟨0, 1⟩ (by decide +kernel)
  cases hrecord

-- Also a body's only call is overtaken by the end of its body, where an earlier invocation's turn has not
-- been passed on by then.
example :
    (((Pool.twice
      [.arrive, .issue (.get "Company:o-1.a"), .turn, .settle none, .service (some (some "1")), .service none]
      [.arrive, .arrive, .issue (.get "Company:o-2.a"), .settle none, .turn]).foldl Pool.next
        (.new 1)).lines 0).wire =
      [.begun 0, .request ⟨0, 0⟩, .ended 0, .begun 1, .ended 1, .request ⟨1, 1⟩] := by
  decide +kernel

end Wire

end BorgCore
