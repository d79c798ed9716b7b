import BorgCore.Wire.Standing

/-!
# What one step keeps

A worker's line between two steps, and what each step makes of it.
-/

namespace BorgCore

namespace Wire

/-- What holds of a worker's line at every moment. -/
structure Upright (count : ℕ) (line : Line) : Prop where
  kept : line.worker.Kept line.wire line.answers
  stage : Stage line
  fresh : Fresh count line.toWorker line.wire
  records : ∀ k call, (k, call) ∈ line.records → call.invocation = k

/-- When the worker says that a body is over, it has sent every call the body made. -/
def Line.Settles (line : Line) : LineStep → Prop
  | .settle _ => line.worker.live = none ∨ line.worker.conn.queued = []
  | _ => True

instance (line : Line) : DecidablePred line.Settles
  | .settle _ => inferInstanceAs (Decidable (line.worker.live = none ∨ line.worker.conn.queued = []))
  | .issue _ | .turn | .arrive | .hangUp | .service _ | .abandon => isTrue trivial

namespace Upright

variable {count : ℕ} {line : Line}

theorem spawned (count : ℕ) : Upright count .spawned where
  kept := by
    refine ⟨⟨fun _ => rfl, by simp [Line.spawned, Framed.new], fun _ => rfl, .inl rfl⟩,
      by simp [Line.spawned, Framed.new], by simp [Line.spawned, Framed.new], by simp [Line.spawned],
      .start, by simp [Own, Line.spawned]⟩
  stage := .held ⟨rfl, rfl, rfl⟩ (.idle .quiet)
  fresh := ⟨by simp [Line.spawned], by simp [Line.spawned]⟩
  records := by simp [Line.spawned]

/-! ### A body makes a call -/

theorem unread (h : Upright count line) :
    line.worker.conn.ready = [] ∨ line.worker.conn.ready = [.shutdown] ∧ line.executor = .gone ∧
      line.toWorker = [] := by
  obtain ⟨hup, -⟩ | ⟨-, hup, -⟩ | ⟨hgone, hempty, hready | hready⟩ := h.stage
  · exact .inl hup.drained
  · exact .inl hup.drained
  · exact .inl hready
  · exact .inr ⟨hready, hgone, hempty⟩

theorem issue (h : Upright count line) (asked : Asked) : Upright count (line.issue asked) := by
  cases hlive : line.worker.live with
  | none => simpa only [Line.issue, hlive] using h
  | some k =>
    have hissue : line.issue asked = { line with
        worker := { line.worker with
          conn := line.worker.conn.request ⟨k, line.worker.issued⟩ asked
          issued := line.worker.issued + 1 } } := by
      simp only [Line.issue, hlive]
    rw [hissue]
    refine ⟨h.kept.request hlive .., ?_, h.fresh, h.records⟩
    cases h.stage with
    | held hup hstands => exact .held ⟨hup.opened, hup.lasts, hup.drained⟩ hstands
    | leaving hgone hup hleaves => exact .leaving hgone ⟨hup.opened, hup.lasts, hup.drained⟩ hleaves
    | left hgone hempty hunread => exact .left hgone hempty hunread

/-! ### A request has its turn -/

theorem turn (h : Upright count line) : Upright count line.turn := by
  refine ⟨h.kept.turn (h.unread.imp_right And.left), ?_,
    h.fresh.congr (fun _ _ _ hmem => hmem) fun j => begun_mem_sends _, h.records⟩
  simp only [Line.turn]
  obtain heq | ⟨hturn, call, asked, queued, hqueued, heq⟩ := Framed.turn_cases line.worker.conn
  · rw [heq]
    simpa [Line.took, Line.withConn] using h.stage
  have hlive : line.worker.live = some call.invocation := h.kept.queued (call, asked) (by simp [hqueued])
  obtain ⟨hready, hopen, heq⟩ | ⟨hready, hended, heq⟩ | ⟨message, ready, hready, heq⟩ := heq <;> rw [heq]
  · -- it waits for the reply
    cases h.stage with
    | held hup hstands =>
      refine .held ⟨hup.opened, hup.lasts, hup.drained⟩ ?_
      rw [hlive, hturn] at hstands
      obtain ⟨hserving, hreplies, hrequests⟩ := hstands.of_running
      simp only [Line.took, Line.withConn, hserving, hreplies, hrequests, hlive]
      exact .running call.invocation (.asked call asked) (by rintro _ ⟨⟩; rfl)
    | leaving hgone hup hleaves =>
      refine .leaving hgone ⟨hup.opened, hup.lasts, hup.drained⟩ ?_
      rw [hlive, hturn] at hleaves
      simp only [Line.took, Line.withConn, hleaves.of_running, hlive]
      exact .quiet (.asked call asked)
    | left hgone hempty hunread => exact .left hgone hempty hunread
  · cases h.stage with
    | held hup _ => simp [hup.lasts] at hended
    | leaving _ hup _ => simp [hup.lasts] at hended
    | left hgone hempty hunread => exact .left hgone hempty hunread
  · cases h.stage with
    | held hup _ => simp [hup.drained] at hready
    | leaving _ hup _ => simp [hup.drained] at hready
    | left hgone hempty hunread =>
      refine .left hgone hempty (.inl ?_)
      rcases hunread with hunread | hunread <;> simp [hready] at hunread
      exact hunread.2

/-! ### A body settles -/

theorem settle (h : Upright count line) (failure : Option String)
    (hwaits : line.worker.live = none ∨ line.worker.conn.queued = []) : Upright count (line.settle failure) := by
  cases hlive : line.worker.live with
  | none => simpa only [Line.settle, hlive] using h
  | some k =>
    have hqueued := hwaits.resolve_left (by simp [hlive])
    have hopened : line.worker.closed = false := Bool.eq_false_iff.2 fun hclosed => by
      simp [h.kept.shut hclosed] at hlive
    obtain ⟨said, hsaid, hsettle⟩ : ∃ said, Says said k ∧ line.settle failure =
        Line.listen { line with
          worker := { line.worker with live := none }
          toExecutor := line.toExecutor ++ [said]
          wire := line.wire ++ [Mark.ended k] } line.worker.conn.ready := by
      cases failure with
      | none => exact ⟨_, .done k, by simp only [Line.settle, hlive]⟩
      | some message => exact ⟨_, .error k message, by simp only [Line.settle, hlive]⟩
    have hsteady := h.kept.steady
    rw [line.worker.listening_of_live hlive] at hsteady
    have hordered := h.kept.ordered
    rw [hlive] at hordered
    rw [hsettle]
    have hfresh : Fresh count line.toWorker (line.wire ++ [Mark.ended k]) :=
      h.fresh.congr (fun _ _ _ hmem => hmem) (by simp)
    rcases h.unread with hready | ⟨hready, hgone, hempty⟩ <;> rw [hready]
    · cases hended : line.worker.conn.ended with
      | true =>
        simp only [Line.listen, hended, if_true]
        refine ⟨⟨⟨hsteady.waits, hsteady.hush, by simp [Worker.listening], hsteady.unread⟩,
          by simp [hqueued], by simp [Worker.listening], fun _ => rfl, hordered.ended, h.kept.answers⟩,
          ?_, hfresh, h.records⟩
        cases h.stage with
        | held hup _ => simp [hup.lasts] at hended
        | leaving _ hup _ => simp [hup.lasts] at hended
        | left hgone hempty hunread => exact .left hgone hempty hunread
      | false =>
        simp only [Line.listen, hended, Bool.false_eq_true, if_false]
        refine ⟨⟨⟨fun _ => ?_, by simp [Line.withConn], fun _ => hqueued, .inl hready⟩,
          by simp [Line.withConn, hqueued], by simp [Line.withConn], fun _ => rfl, hordered.ended,
          h.kept.answers⟩, ?_, hfresh, h.records⟩
        · simpa [Line.withConn, Worker.listening, hopened] using hsteady.waits hended
        · cases h.stage with
          | held hup hstands =>
            rw [hlive] at hstands
            obtain ⟨hserving, hpending, hown⟩ := hstands.running_cases
            refine .held ⟨hup.opened, rfl, hup.drained⟩ ?_
            simp only [Line.withConn, hserving]
            exact .settled k hpending hown hsaid
          | leaving hgone hup hleaves =>
            rw [hlive] at hleaves
            exact .leaving hgone ⟨hup.opened, rfl, hup.drained⟩ hleaves.settled
          | left hgone hempty hunread => exact .left hgone hempty hunread
    · have hwaiting := hsteady.unread.resolve_left (by simp [hready])
      simp only [Line.listen]
      exact ⟨⟨⟨hsteady.waits, hsteady.hush, by simp [Worker.listening], .inl rfl⟩,
        by simp [hqueued], by simp [Worker.listening], fun _ => rfl, hordered.ended, h.kept.answers⟩,
        .left hgone hempty (.inl rfl), hfresh, h.records⟩

/-! ### A message arrives -/

theorem arrive_exchange (h : Upright count line) {message : ToWorker} {rest : List ToWorker} {turn : Call}
    (hmessage : line.toWorker = message :: rest) (hturn : line.worker.conn.exchanging = some turn) :
    Upright count line.arrive ∧ line.arrive.answers = line.answers ++ [(turn, some message)] := by
  have hsteady : (line.worker.conn.deliver message).1.Steady line.worker.listening :=
    h.kept.steady.deliver_exchange hturn message
  have harrive : line.arrive = Line.took
      ({ line with toWorker := rest }.withConn (line.worker.conn.deliver message).1)
      (line.worker.conn.deliver message).2 := by
    simp only [Line.arrive, hmessage, Framed.deliver_exchange h.kept.steady hturn, Line.hears]
  rw [Framed.deliver_exchange h.kept.steady hturn] at hsteady harrive
  have hstage : (message = .shutdown ∨ message.answered = some turn) ∧ Stage line.arrive := by
    rw [harrive]
    cases h.stage with
    | held hup hstands =>
      rw [hmessage, hturn] at hstands
      obtain ⟨hanswered, hstands⟩ := hstands.answered
      refine ⟨.inr hanswered, .held ⟨hup.opened, hup.lasts, hup.drained⟩ ?_⟩
      simpa [Line.took, Line.withConn] using hstands
    | leaving hgone hup hleaves =>
      rw [hmessage, hturn] at hleaves
      obtain ⟨hshutdown, hrest⟩ | ⟨hanswered, hleaves⟩ := hleaves.answered
      · exact ⟨.inl hshutdown, .left hgone hrest (.inl hup.drained)⟩
      · exact ⟨.inr hanswered, .leaving hgone ⟨hup.opened, hup.lasts, hup.drained⟩ hleaves⟩
    | left hgone hempty _ => simp [hempty] at hmessage
  rw [harrive] at hstage ⊢
  refine ⟨⟨?_, hstage.2, ?_, h.records⟩, rfl⟩
  · refine h.kept.takes hsteady h.kept.queued rfl (by simp) ?_
    intro call answer hmem other hother
    obtain ⟨rfl, rfl⟩ : call = turn ∧ answer = message := by simpa using hmem
    rcases hstage.1 with rfl | hanswered
    · cases hother
    · exact Option.some.inj (hother.symm.trans hanswered)
  · refine h.fresh.congr (fun j producer input hmem => ?_) fun j => begun_mem_sends _
    rw [hmessage]
    exact List.mem_cons_of_mem _ hmem

/-- A worker that nobody answers hears of its next invocation, or that there is none. -/
theorem arrive_unasked (h : Upright count line) {message : ToWorker} {rest : List ToWorker}
    (hmessage : line.toWorker = message :: rest) (hturn : line.worker.conn.exchanging = none) :
    Upright count line.arrive := by
  have hsteady := h.kept.steady
  obtain ⟨hup, ⟨k, producer, input, rfl, hlive, hstands⟩ | ⟨rfl, rfl, hgone⟩⟩ := h.stage.unasked hmessage hturn
  · have hqueued := h.kept.queued_of_none hlive
    have hlistening : line.worker.listening = true := by simp [Worker.listening, hlive, hup.opened]
    rw [hlistening] at hsteady
    have harrive : line.arrive = { line with
        worker := { line.worker with
          conn := { line.worker.conn with ready := [], waiting := [] }
          live := some k }
        toWorker := rest
        wire := line.wire ++ [Mark.begun k] } := by
      simp [Line.arrive, hmessage, Framed.deliver_loop hsteady hturn hup.lasts, Line.hears, Line.listen,
        Line.took, Line.withConn, hup.drained]
    have hfresh := h.fresh
    rw [hmessage] at hfresh
    have hnew := (hfresh.ahead k producer input (List.mem_cons_self ..)).1
    have hordered := h.kept.ordered
    rw [hlive] at hordered
    rw [harrive]
    refine ⟨⟨⟨fun _ => by simp [Worker.listening, hturn], by simp [hup.lasts],
      by simp [Worker.listening], .inl rfl⟩, by simp [hqueued], by simp [Worker.listening],
      by simp [hup.opened], hordered.begun hnew, h.kept.answers⟩, ?_, hfresh.begins ?_, h.records⟩
    · rcases hstands with ⟨hserving, rfl, hback⟩ | ⟨hgone, rfl⟩
      · refine .held ⟨hup.opened, hup.lasts, rfl⟩ ?_
        simp only [hserving, hback, hturn]
        exact .running k .quiet (by simp)
      · refine .leaving hgone ⟨hup.opened, hup.lasts, rfl⟩ ?_
        simp only [hturn]
        exact .quiet .quiet
    · intro j producer input hmem
      rcases hstands with ⟨-, rfl, -⟩ | ⟨-, rfl⟩ <;> simp at hmem
  · cases hlistening : line.worker.listening with
    | true =>
      rw [hlistening] at hsteady
      have harrive : line.arrive = { line with
          worker := { line.worker with
            conn := { line.worker.conn with ready := [], waiting := [] }
            closed := true }
          toWorker := [] } := by
        simp [Line.arrive, hmessage, Framed.deliver_loop hsteady hturn hup.lasts, Line.hears, Line.listen,
          Line.took, Line.withConn, hup.drained]
      have hlive : line.worker.live = none := by simp_all [Worker.listening]
      have hqueued := h.kept.queued_of_none hlive
      rw [harrive]
      exact ⟨⟨⟨fun _ => by simp [Worker.listening, hturn], by simp [hup.lasts],
        by simp [Worker.listening], .inl rfl⟩, by simp [hqueued], by simp [Worker.listening], fun _ => hlive,
        h.kept.ordered, h.kept.answers⟩, .left hgone rfl (.inl rfl), h.fresh.congr (by simp) (by simp), h.records⟩
    | false =>
      rw [hlistening] at hsteady
      have hkeeps : (line.worker.conn.deliver ToWorker.shutdown).1.Steady false :=
        hsteady.deliver_nobody hturn hup.lasts
      have harrive : line.arrive = { line with
          worker := { line.worker with conn := { line.worker.conn with ready := [.shutdown] } }
          toWorker := [] } := by
        simp [Line.arrive, hmessage, Framed.deliver_nobody hsteady hturn hup.lasts, Line.hears, Line.took,
          Line.withConn, hup.drained]
      rw [Framed.deliver_nobody hsteady hturn hup.lasts, hup.drained] at hkeeps
      rw [harrive]
      exact ⟨⟨hlistening ▸ hkeeps, h.kept.queued, fun _ => hlistening, h.kept.shut, h.kept.ordered,
        h.kept.answers⟩, .left hgone rfl (.inr rfl), h.fresh.congr (by simp) (by simp), h.records⟩

theorem arrive (h : Upright count line) : Upright count line.arrive := by
  cases hmessage : line.toWorker with
  | nil => simpa only [Line.arrive, hmessage] using h
  | cons message rest =>
    cases hturn : line.worker.conn.exchanging with
    | none => exact h.arrive_unasked hmessage hturn
    | some turn => exact (h.arrive_exchange hmessage hturn).1

/-! ### The pipe ends -/

theorem hangUp (h : Upright count line) : Upright count line.hangUp := by
  by_cases hgone : line.executor = .gone ∧ line.toWorker = []
  · cases hended : line.worker.conn.ended with
    | true =>
      have hsame : line.hangUp = line := by
        simp [Line.hangUp, Framed.finish, hended, Line.took, Line.withConn, Line.hears]
      rw [hsame]
      exact h
    | false =>
      have hsteady := h.kept.steady
      have hhangUp : line.hangUp = { line with
          worker := { line.worker with
            conn := { line.worker.conn with waiting := [], ended := true, exchanging := none }
            closed := line.worker.closed || line.worker.listening }
          answers := line.answers ++ line.worker.conn.exchanging.toList.map (·, none) } := by
        cases hlistening : line.worker.listening <;>
          simp [Line.hangUp, if_pos hgone, Framed.finish_eq hsteady hended, hlistening, Line.took,
            Line.withConn, Line.hears]
      have hquiet : (line.worker.live.isNone && !(line.worker.closed || line.worker.listening)) = false := by
        cases hlive : line.worker.live <;> cases hclosed : line.worker.closed <;>
          simp [Worker.listening, hlive, hclosed]
      rw [hhangUp]
      refine ⟨⟨⟨by simp, fun _ => ⟨rfl, rfl⟩, fun hlistens => absurd (hlistens.symm.trans hquiet) (by decide),
          .inr rfl⟩, h.kept.queued, fun _ => hquiet, fun hclosed => ?_, h.kept.ordered,
          h.kept.answers.append (by simp [Own])⟩,
        .left hgone.1 hgone.2 (h.unread.imp_right And.left), h.fresh, h.records⟩
      rcases Bool.or_eq_true_iff.1 hclosed with hclosed | hlistening
      · exact h.kept.shut hclosed
      · simp_all [Worker.listening]
  · simpa only [Line.hangUp, hgone, if_false] using h

/-! ### The executor -/

theorem abandon (h : Upright count line) : Upright count line.abandon := by
  by_cases hgone : line.executor = .gone
  · simpa only [Line.abandon, hgone] using h
  · have habandon : line.abandon = { line with executor := .gone, toWorker := line.toWorker ++ [.shutdown] } := by
      cases hexecutor : line.executor <;> simp_all [Line.abandon]
    rw [habandon]
    refine ⟨h.kept, ?_, h.fresh.congr (by simp) (by simp), h.records⟩
    · cases h.stage with
      | held hup hstands => exact .leaving rfl hup hstands.abandoned
      | leaving h' => exact absurd h' hgone
      | left h' => exact absurd h' hgone

theorem service (h : Upright count line) (answer : Option (Option String)) : Upright count (line.service answer) := by
  cases hexecutor : line.executor with
  | idle => simpa only [Line.service, hexecutor] using h
  | gone => simpa only [Line.service, hexecutor] using h
  | serving k =>
    obtain ⟨hup, hstands⟩ : line.worker.Up ∧ Standing line.executor line.worker.live line.toWorker
        line.toExecutor line.worker.conn.exchanging := by
      cases h.stage with
      | held hup hstands => exact ⟨hup, hstands⟩
      | leaving hgone => simp [hexecutor] at hgone
      | left hgone => simp [hexecutor] at hgone
    cases hback : line.toExecutor with
    | nil => simpa only [Line.service, hexecutor, hback] using h
    | cons said rest =>
      rw [hexecutor, hback] at hstands
      cases said with
      | done j =>
        simp only [Line.service, hexecutor, hback]
        exact ⟨h.kept, .held hup (hstands.finished (.done j)), h.fresh, h.records⟩
      | error j message =>
        simp only [Line.service, hexecutor, hback]
        exact ⟨h.kept, .held hup (hstands.finished (.error j message)), h.fresh, h.records⟩
      | request call asked =>
        obtain ⟨hturn, hempty, rfl, hreplied⟩ := hstands.served
        have hrecords : ∀ j c, (j, c) ∈ line.records ++ [(call.invocation, call)] → c.invocation = j := by
          intro j c hmem
          rcases List.mem_append.1 hmem with hmem | hmem
          · exact h.records j c hmem
          · cases List.mem_singleton.1 hmem
            rfl
        cases answer with
        | none =>
          simp only [Line.service, Line.abandon, hexecutor, hback, hempty]
          refine ⟨h.kept, .leaving rfl hup ?_, h.fresh.congr (by simp) (by simp), hrecords⟩
          simp only [hturn]
          exact .quiet (.asked call asked)
        | some text =>
          simp only [Line.service, hexecutor, hback, hempty]
          refine ⟨h.kept, .held hup (hreplied _ ?_), h.fresh.congr (fun _ _ _ hmem => ?_) (by simp), hrecords⟩
          · cases asked <;> rfl
          · cases asked <;> simp at hmem

theorem invoke (h : Upright count line) (hidle : line.executor = .idle) (producer : ℕ) (input : String) :
    Upright (count + 1) (line.invoke count producer input) := by
  cases h.stage with
  | leaving hgone => simp [hidle] at hgone
  | left hgone => simp [hidle] at hgone
  | held hup hstands =>
    rw [hidle] at hstands
    obtain ⟨hlive, hback, hpending⟩ := hstands.of_idle
    refine ⟨h.kept, .held hup ?_, h.fresh.invoke producer input, h.records⟩
    simp only [Line.invoke, hlive, hback]
    exact .called count producer input hpending

theorem mono {more : ℕ} (h : Upright count line) (hle : count ≤ more) : Upright more line :=
  ⟨h.kept, h.stage, h.fresh.mono hle, h.records⟩

theorem next (h : Upright count line) {step : LineStep} (hsettles : line.Settles step) :
    Upright count (line.next step) := by
  cases step with
  | issue asked => exact h.issue asked
  | turn => exact h.turn
  | settle failure => exact h.settle failure hsettles
  | arrive => exact h.arrive
  | hangUp => exact h.hangUp
  | service answer => exact h.service answer
  | abandon => exact h.abandon

end Upright

end Wire

end BorgCore
