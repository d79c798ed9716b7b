import Mathlib.Data.List.Basic

/-!
# One stream of messages

The half of a message stream that has nothing to do with framing: the messages that have arrived, the
readers that wait for one, and the turns requests take.  A request is sent when its turn comes and holds the
turn until its reply has arrived.  The turn comes and passes in continuations of its own: whatever else is
ready to run may run between a request and its being sent, and between a reply and the request behind it.
-/

namespace BorgCore

namespace Wire

/-- Who reads the next message: a request its reply, or a loop of its own accord. -/
inductive Reader (C : Type) where
  | exchange (call : C)
  | loop
deriving DecidableEq

/-- A message stream of one side: what arrives are `M`s, and a call of `C` sends an `R`. -/
structure Framed (M C R : Type) where
  /-- Arrived, and read by nobody yet. -/
  ready : List M
  waiting : List (Reader C)
  ended : Bool
  /-- The call whose turn it is. -/
  exchanging : Option C
  /-- Requested and not sent. -/
  queued : List (C × R)

/-- What a stream does: what it sends, the calls it settles, each with its reply or with `none` where the
stream has ended, and what its loop hears. -/
structure Effects (M C R : Type) where
  sent : List (C × R)
  settled : List (C × Option M)
  heard : List (Option M)

namespace Framed

variable {M C R : Type}

def new : Framed M C R := ⟨[], [], false, none, []⟩

/-- Ask for a request to be sent when its turn comes, behind those asked for before. -/
def request (stream : Framed M C R) (call : C) (request : R) : Framed M C R :=
  { stream with queued := stream.queued ++ [(call, request)] }

/-- The first request that waits is sent and reads its reply, if no other holds the turn. -/
def turn (stream : Framed M C R) : Framed M C R × Effects M C R :=
  match stream.exchanging, stream.queued with
  | none, (call, request) :: queued =>
    let stream := { stream with queued := queued }
    match stream.ready with
    | message :: ready => ({ stream with ready := ready }, ⟨[(call, request)], [(call, some message)], []⟩)
    | [] =>
      if stream.ended then (stream, ⟨[(call, request)], [(call, none)], []⟩)
      else
        ({ stream with waiting := stream.waiting ++ [.exchange call], exchanging := some call },
          ⟨[(call, request)], [], []⟩)
  | _, _ => (stream, ⟨[], [], []⟩)

def deliver (stream : Framed M C R) (message : M) : Framed M C R × Effects M C R :=
  match stream.waiting with
  | [] => ({ stream with ready := stream.ready ++ [message] }, ⟨[], [], []⟩)
  | .exchange call :: waiting =>
    ({ stream with waiting := waiting, exchanging := none }, ⟨[], [(call, some message)], []⟩)
  | .loop :: waiting => ({ stream with waiting := waiting }, ⟨[], [], [some message]⟩)

/-- The transport has ended: every reader hears so. -/
def finish (stream : Framed M C R) : Framed M C R × Effects M C R :=
  if stream.ended then (stream, ⟨[], [], []⟩)
  else
    let settled : List (C × Option M) := stream.waiting.filterMap fun
      | .loop => none
      | .exchange call => some (call, none)
    let heard : List (Option M) := stream.waiting.filterMap fun
      | .loop => some none
      | .exchange _ => none
    ({ stream with ended := true, waiting := [], exchanging := none }, ⟨[], settled, heard⟩)

variable {stream : Framed M C R} {call : C} {asked : R} {message : M}

/-- What a turn does: nothing where one is taken or nothing waits, and else it sends the first request, which
then waits, takes what is ready, or finds the stream ended. -/
theorem turn_cases (stream : Framed M C R) :
    stream.turn = (stream, ⟨[], [], []⟩) ∨
    stream.exchanging = none ∧ ∃ call asked queued, stream.queued = (call, asked) :: queued ∧
      ((stream.ready = [] ∧ stream.ended = false ∧
        stream.turn =
          ({ stream with
            waiting := stream.waiting ++ [.exchange call], exchanging := some call, queued := queued },
            ⟨[(call, asked)], [], []⟩)) ∨
      (stream.ready = [] ∧ stream.ended = true ∧
        stream.turn = ({ stream with queued := queued }, ⟨[(call, asked)], [(call, none)], []⟩)) ∨
      (∃ message ready, stream.ready = message :: ready ∧
        stream.turn = ({ stream with ready := ready, queued := queued },
          ⟨[(call, asked)], [(call, some message)], []⟩))) := by
  cases hturn : stream.exchanging with
  | some other => exact .inl (by simp only [turn, hturn])
  | none =>
    cases hqueued : stream.queued with
    | nil => exact .inl (by simp only [turn, hturn, hqueued])
    | cons first queued =>
      obtain ⟨call, asked⟩ := first
      refine .inr ⟨rfl, call, asked, queued, rfl, ?_⟩
      cases hready : stream.ready with
      | cons message ready => exact .inr (.inr ⟨message, ready, rfl, by simp only [turn, hturn, hqueued, hready]⟩)
      | nil =>
        cases hended : stream.ended with
        | false => exact .inl ⟨rfl, rfl, by simp [turn, hturn, hqueued, hready, hended]⟩
        | true => exact .inr (.inl ⟨rfl, rfl, by simp [turn, hturn, hqueued, hready, hended]⟩)

/-! ### A stream between two steps -/

/-- A stream at rest: while it lasts the call that has the turn waits for its reply, in front of the loop
where that listens.  Where the loop listens no request waits to be sent, and nothing lies unread where
somebody reads. -/
structure Steady (stream : Framed M C R) (listening : Bool) : Prop where
  waits : stream.ended = false → stream.waiting =
    stream.exchanging.toList.map .exchange ++ if listening then [.loop] else []
  hush : stream.ended = true → stream.waiting = [] ∧ stream.exchanging = none
  quiet : listening = true → stream.queued = []
  unread : stream.ready = [] ∨ stream.waiting = []

variable {listening : Bool}

theorem Steady.open_of_turn {turn : C} (h : stream.Steady listening) (hturn : stream.exchanging = some turn) :
    stream.ended = false := by
  refine Bool.eq_false_iff.2 fun hended => ?_
  simp [(h.hush hended).2] at hturn

/-- The call whose turn it is reads the next message. -/
theorem Steady.waiting_of_turn {turn : C} (h : stream.Steady listening) (hturn : stream.exchanging = some turn) :
    stream.waiting = .exchange turn :: if listening then [.loop] else [] := by
  simpa [hturn] using h.waits (h.open_of_turn hturn)

theorem Steady.ready_of_turn {turn : C} (h : stream.Steady listening) (hturn : stream.exchanging = some turn) :
    stream.ready = [] :=
  h.unread.resolve_right (by simp [h.waiting_of_turn hturn])

theorem Steady.waiting_of_none (h : stream.Steady listening) (hturn : stream.exchanging = none)
    (hopen : stream.ended = false) : stream.waiting = if listening then [.loop] else [] := by
  simpa [hturn] using h.waits hopen

theorem Steady.request (h : stream.Steady false) : (stream.request call asked).Steady false :=
  ⟨h.waits, h.hush, by simp, h.unread⟩

theorem Steady.turn (h : stream.Steady false) : stream.turn.1.Steady false := by
  obtain heq | ⟨hturn, call, asked, queued, -, ⟨hready, hopen, heq⟩ | ⟨hready, hended, heq⟩ |
    ⟨message, ready, hready, heq⟩⟩ := turn_cases stream <;> rw [heq]
  · exact h
  · have hwaiting := h.waiting_of_none hturn hopen
    exact ⟨fun _ => by simp [hwaiting], by simp [hopen], by simp, .inl hready⟩
  · exact ⟨h.waits, h.hush, by simp, h.unread⟩
  · exact ⟨h.waits, h.hush, by simp, .inr (h.unread.resolve_left (by simp [hready]))⟩

/-- The message a call waits for settles it, and the turn is free. -/
theorem deliver_exchange {turn : C} (h : stream.Steady listening) (hturn : stream.exchanging = some turn)
    (message : M) :
    stream.deliver message =
      ({ stream with waiting := if listening then [.loop] else [], exchanging := none },
        ⟨[], [(turn, some message)], []⟩) := by
  simp only [deliver, h.waiting_of_turn hturn]

theorem Steady.deliver_exchange {turn : C} (h : stream.Steady listening)
    (hturn : stream.exchanging = some turn) (message : M) : (stream.deliver message).1.Steady listening := by
  rw [Framed.deliver_exchange h hturn]
  exact ⟨fun _ => rfl, by simp [h.open_of_turn hturn], h.quiet, .inl (h.ready_of_turn hturn)⟩

theorem deliver_loop (h : stream.Steady true) (hturn : stream.exchanging = none) (hopen : stream.ended = false) :
    stream.deliver message = ({ stream with waiting := [] }, ⟨[], [], [some message]⟩) := by
  simp only [deliver, h.waiting_of_none hturn hopen, if_true]

theorem deliver_nobody (h : stream.Steady false) (hturn : stream.exchanging = none)
    (hopen : stream.ended = false) :
    stream.deliver message = ({ stream with ready := stream.ready ++ [message] }, ⟨[], [], []⟩) := by
  simp [deliver, h.waiting_of_none hturn hopen]

theorem Steady.deliver_nobody (h : stream.Steady false) (hturn : stream.exchanging = none)
    (hopen : stream.ended = false) : (stream.deliver message).1.Steady false := by
  have hwaiting := h.waiting_of_none hturn hopen
  rw [Framed.deliver_nobody h hturn hopen]
  exact ⟨h.waits, h.hush, by simp, .inr (by simpa using hwaiting)⟩

/-- When the transport ends, the call whose turn it is comes back with nothing, and so does the loop where
it listens. -/
theorem finish_eq (h : stream.Steady listening) (hopen : stream.ended = false) :
    stream.finish =
      ({ stream with waiting := [], ended := true, exchanging := none },
        ⟨[], stream.exchanging.toList.map (·, none), if listening then [none] else []⟩) := by
  have hwaits := h.waits hopen
  cases hturn : stream.exchanging <;> cases listening <;> simp [finish, hopen, hturn, hwaits]

end Framed

end Wire

end BorgCore
