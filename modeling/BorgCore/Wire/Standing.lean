import BorgCore.Wire.Marks

/-!
# Where an invocation is

What is in the pipe tells which invocation a worker is in.  The worker's own side is steady: the calls that
wait for their turn are those of the body that runs, and the loop listens where no body does.
-/

namespace BorgCore

namespace Wire

/-! ### The worker's side -/

/-- The loop waits for a message of its own. -/
def Worker.listening (worker : Worker) : Bool := worker.live.isNone && !worker.closed

@[simp] theorem Worker.listening_of_live {worker : Worker} {k : ℕ} (h : worker.live = some k) :
    worker.listening = false := by
  simp [listening, h]

/-- Every reply a call has come back with is the reply to it. -/
def Own (answers : List (Call × Option ToWorker)) : Prop :=
  ∀ call message, (call, some message) ∈ answers → ∀ other, message.answered = some other → other = call

theorem Own.append {answers more : List (Call × Option ToWorker)} (h : Own answers) (h' : Own more) :
    Own (answers ++ more) := by
  intro call message hmem other hother
  rcases List.mem_append.1 hmem with hmem | hmem
  · exact h call message hmem other hother
  · exact h' call message hmem other hother

/-- What a worker keeps: the calls that wait for their turn are those of the body that runs. -/
structure Worker.Kept (worker : Worker) (wire : List Mark) (answers : List (Call × Option ToWorker)) : Prop where
  steady : worker.conn.Steady worker.listening
  queued : ∀ p ∈ worker.conn.queued, worker.live = some p.1.invocation
  deaf : worker.conn.ended = true → worker.listening = false
  shut : worker.closed = true → worker.live = none
  ordered : Ordered wire worker.live
  answers : Own answers

theorem Ordered.sends {wire : List Mark} {live : Option ℕ} (h : Ordered wire live)
    {sent : List (Call × Asked)} (hsent : ∀ p ∈ sent, live = some p.1.invocation) :
    Ordered (wire ++ sent.map fun (call, _) => .request call) live := by
  induction sent generalizing wire with
  | nil => simpa using h
  | cons p rest ih =>
    have hlive := hsent p (List.mem_cons_self ..)
    rw [List.map_cons, List.append_cons]
    refine ih ?_ fun q hq => hsent q (List.mem_cons_of_mem _ hq)
    rw [hlive] at h ⊢
    exact .request h

/-- A stream that sends what the body asked for, and settles calls with what answers them, is kept. -/
theorem Worker.Kept.takes {worker : Worker} {wire : List Mark} {answers : List (Call × Option ToWorker)}
    (h : worker.Kept wire answers) {conn : Framed ToWorker Call Asked}
    {effects : Effects ToWorker Call Asked} (hsteady : conn.Steady worker.listening)
    (hqueued : ∀ p ∈ conn.queued, worker.live = some p.1.invocation)
    (hended : conn.ended = worker.conn.ended) (hsent : ∀ p ∈ effects.sent, worker.live = some p.1.invocation)
    (hsettled : Own effects.settled) :
    Worker.Kept { worker with conn := conn }
      (wire ++ effects.sent.map fun (call, _) => .request call) (answers ++ effects.settled) where
  steady := hsteady
  queued := hqueued
  deaf hconn := h.deaf (hended ▸ hconn)
  shut := h.shut
  ordered := h.ordered.sends hsent
  answers := h.answers.append hsettled

theorem begun_mem_sends {wire : List Mark} {k : ℕ} (sent : List (Call × Asked)) :
    .begun k ∈ wire ++ (sent.map fun (call, _) => Mark.request call) ↔ .begun k ∈ wire := by
  simp

theorem Worker.Kept.request {worker : Worker} {wire : List Mark} {answers : List (Call × Option ToWorker)}
    (h : worker.Kept wire answers) {k : ℕ} (hlive : worker.live = some k) (number issued : ℕ) (asked : Asked) :
    Worker.Kept { worker with conn := worker.conn.request ⟨k, number⟩ asked, issued := issued } wire answers := by
  have hsteady := h.steady
  rw [worker.listening_of_live hlive] at hsteady
  have hkeeps : (worker.conn.request ⟨k, number⟩ asked).Steady false := hsteady.request
  rw [← worker.listening_of_live hlive] at hkeeps
  refine ⟨hkeeps, fun p hp => ?_, h.deaf, h.shut, h.ordered, h.answers⟩
  rcases List.mem_append.1 hp with hp | hp
  · exact h.queued p hp
  · rw [List.mem_singleton.1 hp]
    exact hlive

theorem Worker.Kept.queued_of_none {worker : Worker} {wire : List Mark}
    {answers : List (Call × Option ToWorker)} (h : worker.Kept wire answers) (hlive : worker.live = none) :
    worker.conn.queued = [] :=
  List.eq_nil_iff_forall_not_mem.2 fun p hp => by simpa [hlive] using h.queued p hp

theorem Worker.Kept.turn {worker : Worker} {wire : List Mark} {answers : List (Call × Option ToWorker)}
    (h : worker.Kept wire answers) (hready : worker.conn.ready = [] ∨ worker.conn.ready = [.shutdown]) :
    Worker.Kept { worker with conn := worker.conn.turn.1 }
      (wire ++ worker.conn.turn.2.sent.map fun (call, _) => .request call)
      (answers ++ worker.conn.turn.2.settled) := by
  obtain heq | ⟨-, call, asked, queued, hqueued, heq⟩ := Framed.turn_cases worker.conn
  · simpa only [heq, List.map_nil, List.append_nil] using h
  have hlive : worker.live = some call.invocation := h.queued (call, asked) (by simp [hqueued])
  have hrest : ∀ p ∈ queued, worker.live = some p.1.invocation := fun p hp =>
    h.queued p (hqueued ▸ List.mem_cons_of_mem _ hp)
  have hsteady := h.steady
  rw [worker.listening_of_live hlive] at hsteady
  have hkeeps := hsteady.turn
  rw [← worker.listening_of_live hlive] at hkeeps
  obtain ⟨-, -, heq⟩ | ⟨-, -, heq⟩ | ⟨message, ready, hmessage, heq⟩ := heq <;> rw [heq] at hkeeps ⊢
  · exact h.takes hkeeps hrest rfl (by simpa using hlive) (by simp [Own])
  · exact h.takes hkeeps hrest rfl (by simpa using hlive) (by simp [Own])
  · obtain rfl : message = .shutdown := by
      rcases hready with hready | hready <;> simp [hready] at hmessage
      exact hmessage.1.symm
    exact h.takes hkeeps hrest rfl (by simpa using hlive) (by simp [Own, ToWorker.answered])

/-! ### The pipe -/

/-- What is in the pipe of the call whose turn it is: its request or the reply to it. -/
inductive Pending : List ToWorker → List FromWorker → Option Call → Prop
  | quiet : Pending [] [] none
  | asked (call : Call) (asked : Asked) : Pending [] [.request call asked] (some call)
  | replied {message : ToWorker} {call : Call} : message.answered = some call → Pending [message] [] (some call)

/-- What an invocation is told about. -/
inductive Says : FromWorker → ℕ → Prop
  | done (k : ℕ) : Says (.done k) k
  | error (k : ℕ) (message : String) : Says (.error k message) k

/-- Where an invocation is, between the executor and the worker. -/
inductive Standing : Executor → Option ℕ → List ToWorker → List FromWorker → Option Call → Prop
  | idle {replies turn} : Pending replies [] turn → Standing .idle none replies [] turn
  | called {replies turn} (k producer : ℕ) (input : String) : Pending replies [] turn →
      Standing (.serving k) none (replies ++ [.invoke k producer input]) [] turn
  | running {replies requests turn} (k : ℕ) : Pending replies requests turn →
      (∀ call, turn = some call → call.invocation = k) → Standing (.serving k) (some k) replies requests turn
  | settled {replies requests turn said} (k : ℕ) : Pending replies requests turn →
      (∀ call, turn = some call → call.invocation = k) → Says said k →
      Standing (.serving k) none replies (requests ++ [said]) turn

/-- What a worker that was given up still has to read. -/
inductive Leaving : Option ℕ → List ToWorker → Option Call → Prop
  | quiet {replies requests live turn} : Pending replies requests turn → Leaving live (replies ++ [.shutdown]) turn
  | called {replies turn} (k producer : ℕ) (input : String) : Pending replies [] turn →
      Leaving none (replies ++ [.invoke k producer input, .shutdown]) turn

/-- The worker is there, and has read all that has arrived. -/
structure Worker.Up (worker : Worker) : Prop where
  opened : worker.closed = false
  lasts : worker.conn.ended = false
  drained : worker.conn.ready = []

inductive Stage (line : Line) : Prop
  | held : line.worker.Up →
      Standing line.executor line.worker.live line.toWorker line.toExecutor line.worker.conn.exchanging → Stage line
  | leaving : line.executor = .gone → line.worker.Up →
      Leaving line.worker.live line.toWorker line.worker.conn.exchanging → Stage line
  | left : line.executor = .gone → line.toWorker = [] →
      line.worker.conn.ready = [] ∨ line.worker.conn.ready = [.shutdown] → Stage line

theorem Pending.of_none {replies : List ToWorker} {requests : List FromWorker}
    (h : Pending replies requests none) : replies = [] ∧ requests = [] := by
  cases h
  exact ⟨rfl, rfl⟩

theorem Standing.running_cases {executor : Executor} {k : ℕ} {toWorker : List ToWorker}
    {toExecutor : List FromWorker} {turn : Option Call} (h : Standing executor (some k) toWorker toExecutor turn) :
    executor = .serving k ∧ Pending toWorker toExecutor turn ∧ ∀ call, turn = some call → call.invocation = k := by
  cases h with
  | running _ hpending hown => exact ⟨rfl, hpending, hown⟩

theorem Leaving.settled {k : ℕ} {toWorker : List ToWorker} {turn : Option Call}
    (h : Leaving (some k) toWorker turn) : Leaving none toWorker turn := by
  cases h with
  | quiet hpending => exact .quiet hpending

/-- While a body computes there is nothing in the pipe. -/
theorem Standing.of_running {executor : Executor} {k : ℕ} {toWorker : List ToWorker}
    {toExecutor : List FromWorker} (h : Standing executor (some k) toWorker toExecutor none) :
    executor = .serving k ∧ toWorker = [] ∧ toExecutor = [] := by
  obtain ⟨hserving, hpending, -⟩ := h.running_cases
  exact ⟨hserving, hpending.of_none⟩

theorem Leaving.of_running {k : ℕ} {toWorker : List ToWorker} (h : Leaving (some k) toWorker none) :
    toWorker = [.shutdown] := by
  cases h with
  | quiet hpending =>
    obtain ⟨rfl, -⟩ := hpending.of_none
    rfl

/-- The reply has arrived, and the turn is free. -/
theorem Standing.answered {executor : Executor} {live : Option ℕ} {message : ToWorker} {rest : List ToWorker}
    {toExecutor : List FromWorker} {turn : Call}
    (h : Standing executor live (message :: rest) toExecutor (some turn)) :
    message.answered = some turn ∧ Standing executor live rest toExecutor none := by
  generalize hpipe : message :: rest = pipe at h
  cases h with
  | idle hpending =>
    cases hpending with
    | replied hanswered =>
      cases hpipe
      exact ⟨hanswered, .idle .quiet⟩
  | called k producer input hpending =>
    cases hpending with
    | replied hanswered =>
      cases hpipe
      exact ⟨hanswered, .called k producer input .quiet⟩
  | running k hpending _ =>
    cases hpending with
    | asked => cases hpipe
    | replied hanswered =>
      cases hpipe
      exact ⟨hanswered, .running k .quiet (by simp)⟩
  | settled k hpending _ hsaid =>
    cases hpending with
    | asked => cases hpipe
    | replied hanswered =>
      cases hpipe
      exact ⟨hanswered, .settled k .quiet (by simp) hsaid⟩

theorem Leaving.answered {live : Option ℕ} {message : ToWorker} {rest : List ToWorker} {turn : Call}
    (h : Leaving live (message :: rest) (some turn)) :
    message = .shutdown ∧ rest = [] ∨ message.answered = some turn ∧ Leaving live rest none := by
  generalize hpipe : message :: rest = pipe at h
  cases h with
  | quiet hpending =>
    cases hpending with
    | asked =>
      cases hpipe
      exact .inl ⟨rfl, rfl⟩
    | replied hanswered =>
      cases hpipe
      exact .inr ⟨hanswered, .quiet .quiet⟩
  | called k producer input hpending =>
    cases hpending with
    | replied hanswered =>
      cases hpipe
      exact .inr ⟨hanswered, .called k producer input .quiet⟩

theorem Standing.abandoned {executor : Executor} {live : Option ℕ} {toWorker : List ToWorker}
    {toExecutor : List FromWorker} {turn : Option Call} (h : Standing executor live toWorker toExecutor turn) :
    Leaving live (toWorker ++ [.shutdown]) turn := by
  cases h with
  | idle hpending => exact .quiet hpending
  | called k producer input hpending =>
    rw [List.append_assoc]
    exact .called k producer input hpending
  | running k hpending _ => exact .quiet hpending
  | settled k hpending _ _ => exact .quiet hpending

theorem Standing.of_idle {live : Option ℕ} {toWorker : List ToWorker} {toExecutor : List FromWorker}
    {turn : Option Call} (h : Standing .idle live toWorker toExecutor turn) :
    live = none ∧ toExecutor = [] ∧ Pending toWorker [] turn := by
  cases h with
  | idle hpending => exact ⟨rfl, rfl, hpending⟩

/-- A request the executor reads is one of the invocation it serves, and the call waits for nothing but the
reply. -/
theorem Standing.served {k : ℕ} {live : Option ℕ} {toWorker : List ToWorker} {call : Call} {asked : Asked}
    {rest : List FromWorker} {turn : Option Call}
    (h : Standing (.serving k) live toWorker (.request call asked :: rest) turn) :
    turn = some call ∧ toWorker = [] ∧ call.invocation = k ∧
      ∀ reply : ToWorker, reply.answered = some call → Standing (.serving k) live [reply] rest turn := by
  generalize hback : FromWorker.request call asked :: rest = back at h
  cases h with
  | called => cases hback
  | running k hpending hown =>
    cases hpending with
    | quiet => cases hback
    | replied => cases hback
    | asked =>
      cases hback
      exact ⟨rfl, rfl, hown _ rfl, fun reply hreply => .running k (.replied hreply) hown⟩
  | settled k hpending hown hsaid =>
    cases hpending with
    | quiet =>
      cases hback
      cases hsaid
    | replied =>
      cases hback
      cases hsaid
    | asked =>
      cases hback
      exact ⟨rfl, rfl, hown _ rfl, fun reply hreply => .settled k (.replied hreply) hown hsaid⟩

/-- When the executor reads that the invocation is over, it has served all of it. -/
theorem Standing.finished {k j : ℕ} {live : Option ℕ} {toWorker : List ToWorker} {said : FromWorker}
    {rest : List FromWorker} {turn : Option Call} (h : Standing (.serving k) live toWorker (said :: rest) turn)
    (hsaid : Says said j) : Standing .idle live toWorker rest turn := by
  generalize hback : said :: rest = back at h
  cases h with
  | called => cases hback
  | running k hpending hown =>
    cases hpending with
    | quiet => cases hback
    | replied => cases hback
    | asked =>
      cases hback
      cases hsaid
  | settled k hpending hown _ =>
    cases hpending with
    | quiet =>
      cases hback
      exact .idle .quiet
    | replied hanswered =>
      cases hback
      exact .idle (.replied hanswered)
    | asked =>
      cases hback
      cases hsaid

/-- What a worker reads of its own accord: an invocation, or that it is given up. -/
theorem Stage.unasked {line : Line} (h : Stage line) {message : ToWorker} {rest : List ToWorker}
    (hmessage : line.toWorker = message :: rest) (hturn : line.worker.conn.exchanging = none) :
    line.worker.Up ∧
      ((∃ k producer input, message = .invoke k producer input ∧ line.worker.live = none ∧
        (line.executor = .serving k ∧ rest = [] ∧ line.toExecutor = [] ∨
          line.executor = .gone ∧ rest = [.shutdown])) ∨
      (message = .shutdown ∧ rest = [] ∧ line.executor = .gone)) := by
  cases h with
  | held hup hstands =>
    refine ⟨hup, .inl ?_⟩
    rw [hturn, hmessage] at hstands
    generalize hexecutor : line.executor = executor at hstands
    generalize hlive : line.worker.live = live at hstands
    generalize hpipe : message :: rest = pipe at hstands
    generalize hback : line.toExecutor = back at hstands
    cases hstands with
    | idle hpending => simp [hpending.of_none] at hpipe
    | called k producer input hpending =>
      obtain ⟨rfl, -⟩ := hpending.of_none
      cases hpipe
      exact ⟨k, producer, input, rfl, rfl, .inl ⟨rfl, rfl, rfl⟩⟩
    | running k hpending => simp [hpending.of_none] at hpipe
    | settled k hpending => simp [hpending.of_none] at hpipe
  | leaving hgone hup hleaves =>
    refine ⟨hup, ?_⟩
    rw [hturn, hmessage] at hleaves
    generalize hlive : line.worker.live = live at hleaves
    generalize hpipe : message :: rest = pipe at hleaves
    cases hleaves with
    | quiet hpending =>
      obtain ⟨rfl, -⟩ := hpending.of_none
      cases hpipe
      exact .inr ⟨rfl, rfl, hgone⟩
    | called k producer input hpending =>
      obtain ⟨rfl, -⟩ := hpending.of_none
      cases hpipe
      exact .inl ⟨k, producer, input, rfl, rfl, .inr ⟨hgone, rfl⟩⟩
  | left _ hempty => simp [hempty] at hmessage

end Wire

end BorgCore
