import Mathlib.Logic.Function.Basic
import BorgCore.Wire.Framed

/-!
# Pooled workers

A worker is a process at the end of a pipe: it is invoked for one entity, its pipeline body asks for cells
and writes them, and it says when the body is done.  The executor serves one invocation of it at a time and
then puts it back for the next one.  Nothing on the wire says whose request a message is; here every message
carries it, and neither side looks at it.
-/

namespace BorgCore

namespace Wire

/-- One `get` or `set` of a body. -/
structure Call where
  invocation : ℕ
  number : ℕ
deriving DecidableEq

inductive Asked where
  | get (cell : String)
  | set (cell : String) (value : String)
deriving DecidableEq

inductive FromWorker where
  | request (call : Call) (asked : Asked)
  | done (invocation : ℕ)
  | error (invocation : ℕ) (message : String)
deriving DecidableEq

inductive ToWorker where
  | invoke (invocation : ℕ) (producer : ℕ) (input : String)
  | value (call : Call) (text : Option String)
  | ok (call : Call)
  | shutdown
deriving DecidableEq

/-- The call a message answers. -/
def ToWorker.answered : ToWorker → Option Call
  | .value call _ => some call
  | .ok call => some call
  | .invoke .. => none
  | .shutdown => none

/-- What a worker does on its wire, in order. -/
inductive Mark where
  | begun (invocation : ℕ)
  | request (call : Call)
  | ended (invocation : ℕ)
deriving DecidableEq

/-! ### The worker -/

structure Worker where
  conn : Framed ToWorker Call Asked
  /-- The invocation whose body is not over. -/
  live : Option ℕ
  /-- How many calls bodies have made. -/
  issued : ℕ
  /-- The loop has been told to stop. -/
  closed : Bool

/-- The executor's end of a worker. -/
inductive Executor where
  /-- in the pool -/
  | idle
  | serving (invocation : ℕ)
  /-- killed, and never invoked again -/
  | gone
deriving DecidableEq

/-- A worker, its pipe, and what has happened on it. -/
structure Line where
  worker : Worker
  toWorker : List ToWorker
  toExecutor : List FromWorker
  executor : Executor
  wire : List Mark
  /-- What each call came back with. -/
  answers : List (Call × Option ToWorker)
  /-- Every cell access the executor made: for which invocation, and whose request it was. -/
  records : List (ℕ × Call)

namespace Line

/-- A worker that has shaken hands waits to be invoked. -/
def spawned : Line where
  worker := ⟨{ Framed.new with waiting := [.loop] }, none, 0, false⟩
  toWorker := []
  toExecutor := []
  executor := .idle
  wire := []
  answers := []
  records := []

/-- What a worker's stream sends and settles. -/
def took (line : Line) (effects : Effects ToWorker Call Asked) : Line :=
  { line with
    toExecutor := line.toExecutor ++ effects.sent.map fun (call, asked) => .request call asked
    wire := line.wire ++ effects.sent.map fun (call, _) => .request call
    answers := line.answers ++ effects.settled }

def withConn (line : Line) (conn : Framed ToWorker Call Asked) : Line :=
  { line with worker := { line.worker with conn := conn } }

/-- The worker loop: what it does not know it passes over. -/
def listen (line : Line) : List ToWorker → Line
  | [] =>
    if line.worker.conn.ended then { line with worker := { line.worker with closed := true } }
    else line.withConn { line.worker.conn with waiting := line.worker.conn.waiting ++ [.loop] }
  | .invoke invocation _ _ :: ready =>
    { line.withConn { line.worker.conn with ready := ready } with
      worker := { line.worker with conn := { line.worker.conn with ready := ready }, live := some invocation }
      wire := line.wire ++ [Mark.begun invocation] }
  | .shutdown :: ready =>
    { line with worker := { line.worker with conn := { line.worker.conn with ready := ready }, closed := true } }
  | .value .. :: ready => (line.withConn { line.worker.conn with ready := ready }).listen ready
  | .ok _ :: ready => (line.withConn { line.worker.conn with ready := ready }).listen ready

/-- What the loop hears in between. -/
def hears (line : Line) : List (Option ToWorker) → Line
  | [] => line
  | none :: _ => { line with worker := { line.worker with closed := true } }
  | some message :: _ => line.listen (message :: line.worker.conn.ready)

/-- A body makes a call.  Once it is over it makes none: the call throws where it stands. -/
def issue (line : Line) (asked : Asked) : Line :=
  match line.worker.live with
  | none => line
  | some invocation =>
    { line with worker := { line.worker with
        conn := line.worker.conn.request ⟨invocation, line.worker.issued⟩ asked
        issued := line.worker.issued + 1 } }

/-- A request has its turn.  Whether its body is over is not looked at again. -/
def turn (line : Line) : Line :=
  let (conn, effects) := line.worker.conn.turn
  (line.withConn conn).took effects

/-- The worker says that a body is over, and how it ended. -/
def settle (line : Line) (failure : Option String) : Line :=
  match line.worker.live with
  | none => line
  | some invocation =>
    let said : FromWorker := match failure with
      | none => .done invocation
      | some message => .error invocation message
    let line := { line with
      worker := { line.worker with live := none }
      toExecutor := line.toExecutor ++ [said]
      wire := line.wire ++ [Mark.ended invocation] }
    line.listen line.worker.conn.ready

def arrive (line : Line) : Line :=
  match line.toWorker with
  | [] => line
  | message :: rest =>
    let (conn, effects) := line.worker.conn.deliver message
    (({ line with toWorker := rest }.withConn conn).took effects).hears effects.heard

/-- The worker hears that its pipe has ended. -/
def hangUp (line : Line) : Line :=
  if line.executor = .gone ∧ line.toWorker = [] then
    let (conn, effects) := line.worker.conn.finish
    ((line.withConn conn).took effects).hears effects.heard
  else line

/-- The executor gives a worker up: the process is told to stop and its pipe is dropped. -/
def abandon (line : Line) : Line :=
  match line.executor with
  | .gone => line
  | _ => { line with executor := .gone, toWorker := line.toWorker ++ [.shutdown] }

/-- The executor serves the next message: it makes the access a request asks for, in the invocation it is
serving, and replies.  An access that fails gives the worker up. -/
def service (line : Line) (answer : Option (Option String)) : Line :=
  match line.executor, line.toExecutor with
  | .serving invocation, .request call asked :: rest =>
    let line := { line with toExecutor := rest, records := line.records ++ [(invocation, call)] }
    match answer with
    | none => line.abandon
    | some text =>
      { line with toWorker := line.toWorker ++ [match asked with
          | .get _ => .value call text
          | .set _ _ => .ok call] }
  | .serving _, .done _ :: rest => { line with toExecutor := rest, executor := .idle }
  | .serving _, .error _ _ :: rest => { line with toExecutor := rest, executor := .idle }
  | _, _ => line

/-- The executor invokes a worker of its pool. -/
def invoke (line : Line) (invocation producer : ℕ) (input : String) : Line :=
  { line with
    executor := .serving invocation
    toWorker := line.toWorker ++ [.invoke invocation producer input] }

end Line

inductive LineStep where
  | issue (asked : Asked)
  | turn
  | settle (failure : Option String)
  | arrive
  | hangUp
  | service (answer : Option (Option String))
  | abandon

def Line.next (line : Line) : LineStep → Line
  | .issue asked => line.issue asked
  | .turn => line.turn
  | .settle failure => line.settle failure
  | .arrive => line.arrive
  | .hangUp => line.hangUp
  | .service answer => line.service answer
  | .abandon => line.abandon

/-! ### The pool -/

/-- The processes of one command. -/
structure Pool where
  /-- How many may be alive at once. -/
  size : ℕ
  lines : ℕ → Line
  /-- How many were ever spawned. -/
  spawned : ℕ
  /-- Released, and waiting for the next invocation: the last one released is taken first. -/
  idle : List ℕ
  /-- Permits taken. -/
  busy : ℕ
  invocations : ℕ

inductive PoolStep where
  | checkout (producer : ℕ) (input : String)
  | line (worker : ℕ) (step : LineStep)

namespace Pool

def new (size : ℕ) : Pool := ⟨size, fun _ => .spawned, 0, [], 0, 0⟩

/-- Take a worker, spawning one if none is idle, and invoke it. -/
def checkout (pool : Pool) (producer : ℕ) (input : String) : Pool :=
  if pool.size ≤ pool.busy then pool
  else
    let invoked (worker : ℕ) : ℕ → Line :=
      Function.update pool.lines worker ((pool.lines worker).invoke pool.invocations producer input)
    match pool.idle with
    | worker :: idle =>
      { pool with
        lines := invoked worker, idle := idle, busy := pool.busy + 1, invocations := pool.invocations + 1 }
    | [] =>
      { pool with
        lines := invoked pool.spawned, spawned := pool.spawned + 1, busy := pool.busy + 1
        invocations := pool.invocations + 1 }

/-- A step on one line.  A worker whose invocation has ended goes back to the pool, one that was given up
does not. -/
def step (pool : Pool) (worker : ℕ) (step : LineStep) : Pool :=
  let before := (pool.lines worker).executor
  let line := (pool.lines worker).next step
  let pool := { pool with lines := Function.update pool.lines worker line }
  match before, line.executor with
  | .serving _, .idle => { pool with idle := worker :: pool.idle, busy := pool.busy - 1 }
  | .serving _, .gone => { pool with busy := pool.busy - 1 }
  | .idle, .gone => { pool with idle := pool.idle.filter (· ≠ worker) }
  | _, _ => pool

def next (pool : Pool) : PoolStep → Pool
  | .checkout producer input => pool.checkout producer input
  | .line worker step => if worker < pool.spawned then pool.step worker step else pool

end Pool

end Wire

end BorgCore
