import BorgCore.Ops.Serving

/-!
# One process serves a store

A server that is serving and answers on its socket keeps every other process from its stores: its records
are in place, whoever reads one is refused, and nobody removes one that answers.  Between its check and its
bind, and between the closing of its listener and its exit, it does not answer, and a one-shot command never
does; a check of another process that falls there passes.  So does one made in a directory where the path in
the record does not lead to the server.
-/

namespace BorgCore

namespace Lock

variable {Store Directory Address : Type*} {s : State Store Directory Address} {id : ProcessId}
  {proc : Process Store Directory} {store : Store}

/-! ### What is to hold -/

/-- A live process has its check of the store behind it. -/
def State.Past (s : State Store Directory Address) (id : ProcessId) (store : Store) : Prop :=
  ∃ proc, s.processes id = some proc ∧ proc.Past store

/-- **No two live processes are past their check of one store.** -/
def OneServer (s : State Store Directory Address) : Prop :=
  ∀ id id' store, s.Past id store → s.Past id' store → id = id'

/-- **The record of a server that is starting or serving is as the server wrote it.** -/
def Locked (s : State Store Directory Address) : Prop :=
  ∀ id proc slot, s.processes id = some proc → proc.serves → proc.phase.isUp → slot ∈ proc.claimed →
    s.records slot.1 = some (proc.record slot)

/-! ### When it does -/

section

variable (resolve : Directory → String → Address)

/-- A server is up, and the path of its socket leads to it, in its own directory and in this one. -/
def State.Answers (s : State Store Directory Address) (directory : Directory) (id : ProcessId) : Prop :=
  ∃ proc, s.processes id = some proc ∧ proc.phase = .serving ∧ proc.socket ≠ "" ∧
    s.sockets (resolve proc.directory proc.socket) = some id ∧
    resolve directory proc.socket = resolve proc.directory proc.socket

/-- The next step of a process takes it past its check of a store: there is no record of a socket, or it
removes the one it found silent. -/
def Passing (s : State Store Directory Address) (proc : Process Store Directory) (store : Store) : Prop :=
  match proc.phase with
  | .arriving (slot :: _) => store = slot.1 ∧ ∀ record, s.records store = some record → record.socket = ""
  | .clearing slot _ => store = slot.1
  | _ => False

variable [DecidableEq Address]

/-- Whoever else is past the check of a store answers in this directory, and a record there is silent still. -/
structure State.Clear (s : State Store Directory Address) (id : ProcessId) (directory : Directory)
    (store : Store) : Prop where
  answering : ∀ other, other ≠ id → s.Past other store → s.Answers resolve directory other
  silent : ∀ record, s.records store = some record → s.isListening resolve directory record.socket = false

/-- No check passes while a process that passed it does not answer, and no record is removed that has come
to answer since it was read. -/
def Safe (s : State Store Directory Address) : Action Store Directory → Prop
  | .advance id _ => ∀ proc store, s.processes id = some proc → Passing s proc store →
    s.Clear resolve id proc.directory store
  | _ => True

end

/-! ### What stays true -/

namespace Process

/-- What a process has checked and claimed so far, against what it is to work on. -/
def WellFormed (proc : Process Store Directory) : Prop :=
  match proc.phase with
  | .arriving rest => proc.claimed ++ rest = proc.hosted.slots
  | .probing slot _ rest | .clearing slot rest => proc.claimed ++ slot :: rest = proc.hosted.slots
  | .claiming slot rest | .writing slot rest => proc.serves ∧ proc.claimed ++ slot :: rest = proc.hosted.slots
  | .looking | .unlinking | .binding | .serving => proc.serves ∧ proc.claimed = proc.hosted.slots
  | .releasing rest _ => ∀ store ∈ rest, store ∈ proc.claimed.map Prod.fst
  | .leaving | .working | .ended => True

theorem past_of_claimed (hlive : proc.phase ≠ .ended) (h : store ∈ proc.claimed.map Prod.fst) :
    proc.Past store := by
  unfold Past
  split
  case h_1 hphase => exact absurd hphase hlive
  case h_2 | h_3 => exact .inr h
  case h_4 => exact h

theorem claimed_ne {slot : Store × String} {rest : List (Store × String)}
    (h : proc.claimed ++ slot :: rest = proc.hosted.slots) {old : Store × String} (hold : old ∈ proc.claimed) :
    old.1 ≠ slot.1 := by
  have hdistinct := proc.hosted.distinct
  rw [← h, List.map_append, List.map_cons] at hdistinct
  intro he
  exact (List.nodup_append.1 hdistinct).2.2 _ (List.mem_map_of_mem hold) _ (List.mem_cons_self ..) he

end Process

structure Inv (s : State Store Directory Address) : Prop where
  formed : ∀ id proc, s.processes id = some proc → proc.WellFormed
  one : OneServer s
  locked : Locked s

namespace Inv

section

variable [DecidableEq Address] {resolve : Directory → String → Address}

/-- Who answers is not passed by: its record is there, and is not silent. -/
theorem free (h : Inv s) {directory : Directory} (hclear : s.Clear resolve id directory store)
    {other : ProcessId} (hne : other ≠ id) :
    ¬ s.Past other store := by
  intro hpast
  obtain ⟨proc, hproc, hserving, hnamed, hsocket, hsame⟩ := hclear.answering other hne hpast
  obtain ⟨found, hfound, hpast⟩ := hpast
  obtain rfl : proc = found := Option.some.inj (hproc.symm.trans hfound)
  have hformed := h.formed other proc hproc
  unfold Process.WellFormed at hformed
  unfold Process.Past at hpast
  rw [hserving] at hformed hpast
  obtain ⟨slot, hslot, rfl⟩ := List.mem_map.1 hpast
  have hrecord := h.locked other proc slot hproc hformed.1 (by rw [hserving]; rfl) hslot
  have hlistening : s.isListening resolve directory proc.socket = true := by
    simp [State.isListening, hnamed, hsame, hsocket, hproc, hserving, Phase.isServing]
  have hsilent := hclear.silent _ hrecord
  rw [Process.record, hlistening] at hsilent
  cases hsilent

end

/-- **A step of one process**: what it gets past nobody else is past, and it touches no record of a store
another process is past. -/
theorem moved (h : Inv s) {t : State Store Directory Address} (moved : Process Store Directory)
    (hprocesses : t.processes = Function.update s.processes id (some moved)) (hformed : moved.WellFormed)
    (hpast : ∀ store, moved.Past store → ∀ other, other ≠ id → ¬ s.Past other store)
    (hrecords : ∀ store, t.records store = s.records store ∨ ∀ other, other ≠ id → ¬ s.Past other store)
    (hown : moved.serves → moved.phase.isUp → ∀ slot ∈ moved.claimed,
      t.records slot.1 = some (moved.record slot)) : Inv t := by
  have hself : t.processes id = some moved := by rw [hprocesses, Function.update_self]
  have hother : ∀ other, other ≠ id → t.processes other = s.processes other := by
    intro other hne
    rw [hprocesses, Function.update_of_ne hne]
  have hback : ∀ other, other ≠ id → ∀ store, t.Past other store → s.Past other store := by
    intro other hne store ⟨proc, hproc, hp⟩
    exact ⟨proc, hother other hne ▸ hproc, hp⟩
  have hmine : ∀ store, t.Past id store → moved.Past store := by
    intro store ⟨proc, hproc, hp⟩
    rw [hself] at hproc
    exact Option.some.inj hproc ▸ hp
  refine ⟨?_, ?_, ?_⟩
  · intro other proc hproc
    by_cases hne : other = id
    · subst hne
      rw [hself] at hproc
      exact Option.some.inj hproc ▸ hformed
    · exact h.formed other proc (hother other hne ▸ hproc)
  · intro one two store hone htwo
    by_cases h1 : one = id <;> by_cases h2 : two = id
    · rw [h1, h2]
    · subst h1
      exact absurd (hback two h2 store htwo) (hpast store (hmine store hone) two h2)
    · subst h2
      exact absurd (hback one h1 store hone) (hpast store (hmine store htwo) one h1)
    · exact h.one one two store (hback one h1 store hone) (hback two h2 store htwo)
  · intro other proc slot hproc hserves hup hslot
    by_cases hne : other = id
    · subst hne
      rw [hself] at hproc
      cases hproc
      exact hown hserves hup slot hslot
    · rw [hother other hne] at hproc
      have hlive : proc.phase ≠ .ended := by intro he; rw [he] at hup; cases hup
      have hpast : s.Past other slot.1 :=
        ⟨proc, hproc, Process.past_of_claimed hlive (List.mem_map_of_mem hslot)⟩
      rcases hrecords slot.1 with hkept | hfree
      · rw [hkept]
        exact h.locked other proc slot hproc hserves hup hslot
      · exact absurd hpast (hfree other hne)

theorem alone (h : Inv s) (hproc : s.processes id = some proc) (hpast : proc.Past store) {other : ProcessId}
    (hne : other ≠ id) : ¬ s.Past other store := by
  intro hother
  exact hne (h.one other id store hother ⟨proc, hproc, hpast⟩)

/-- A process goes on to a phase in which it is past nothing more, and no file changes. -/
theorem enter (h : Inv s) (hproc : s.processes id = some proc) {phase : Phase Store}
    (hformed : Process.WellFormed { proc with phase := phase })
    (hpast : ∀ store, Process.Past { proc with phase := phase } store → proc.Past store)
    (hup : phase.isUp → proc.phase.isUp) : Inv (s.enter id proc phase) := by
  refine h.moved { proc with phase := phase } rfl hformed ?_ (fun store => .inl rfl) ?_
  · intro store hp other hne
    exact h.alone hproc (hpast store hp) hne
  · intro hserves hp slot hslot
    exact h.locked id proc slot hproc hserves (hup hp) hslot

/-! ### One step at a time -/

variable {slot : Store × String} {rest : List (Store × String)} {ok : Bool}

theorem formed_at (h : Inv s) (hproc : s.processes id = some proc) {phase : Phase Store}
    (hphase : proc.phase = phase) : Process.WellFormed { proc with phase := phase } :=
  hphase ▸ h.formed id proc hproc

theorem ends (h : Inv s) (hproc : s.processes id = some proc) : Inv (s.enter id proc .ended) :=
  h.enter hproc trivial (fun _ => False.elim) nofun

theorem started (h : Inv s) {new : Process Store Directory} (hclaimed : new.claimed = [])
    (hphase : new.phase = .arriving new.hosted.slots) : Inv (s.put id new) := by
  refine h.moved new rfl ?_ ?_ (fun _ => .inl rfl) ?_
  · unfold Process.WellFormed
    rw [hphase, hclaimed]
    rfl
  · intro store hstore
    unfold Process.Past at hstore
    rw [hphase, hclaimed] at hstore
    cases hstore
  · intro _ _ slot hslot
    rw [hclaimed] at hslot
    cases hslot

variable [DecidableEq Address] {resolve : Directory → String → Address}

theorem unlink (h : Inv s) (directory : Directory) (socket : String) : Inv (s.unlink resolve directory socket) := by
  unfold State.unlink
  split
  · exact h
  · exact ⟨h.formed, h.one, h.locked⟩

theorem unlink_processes (directory : Directory) (socket : String) :
    (s.unlink resolve directory socket).processes = s.processes := by
  unfold State.unlink
  split <;> rfl

/-- A check passes, and the record may be removed with it. -/
theorem pass (h : Inv s) (hproc : s.processes id = some proc)
    (hclear : s.Clear resolve id proc.directory slot.1)
    (hslots : proc.claimed ++ slot :: rest = proc.hosted.slots) (hlive : proc.phase ≠ .ended)
    (hup : proc.phase.isUp) {t : State Store Directory Address} (hprocesses : t.processes = s.processes)
    (hrecords : ∀ store, t.records store = s.records store ∨ store = slot.1) :
    Inv (t.pass id proc slot rest) := by
  have hpassed : ∀ store, (store = slot.1 ∨ store ∈ proc.claimed.map Prod.fst) →
      ∀ other, other ≠ id → ¬ s.Past other store := by
    rintro store (rfl | hstore) other hne
    · exact h.free hclear hne
    · exact h.alone hproc (Process.past_of_claimed hlive hstore) hne
  have hkept : ∀ store, t.records store = s.records store ∨ ∀ other, other ≠ id → ¬ s.Past other store := by
    intro store
    rcases hrecords store with hsame | rfl
    · exact .inl hsame
    · exact .inr fun other hne => h.free hclear hne
  unfold State.pass
  split
  · rename_i hserves
    refine h.moved { proc with phase := .claiming slot rest } (by rw [← hprocesses]; rfl)
      ⟨hserves, hslots⟩ hpassed hkept ?_
    intro _ _ old hold
    show t.records old.1 = _
    rcases hrecords old.1 with hsame | he
    · rw [hsame]
      exact h.locked id proc old hproc hserves hup hold
    · exact absurd he (Process.claimed_ne hslots hold)
  · rename_i hserves
    refine h.moved { proc with claimed := proc.claimed ++ [slot], phase := .arriving rest }
      (by rw [← hprocesses]; rfl) ?_ ?_ hkept fun hs => absurd hs hserves
    · show (proc.claimed ++ [slot]) ++ rest = proc.hosted.slots
      rw [← hslots, List.append_assoc, List.singleton_append]
    · intro store hstore
      refine hpassed store ?_
      have hmem : store ∈ (proc.claimed ++ [slot]).map Prod.fst := hstore
      rw [List.map_append, List.mem_append] at hmem
      exact hmem.symm.imp List.mem_singleton.1 (fun hin => hin)

variable [DecidableEq Store]

theorem records_update (records : Store → Option Record) (store other : Store) (record : Option Record) :
    Function.update records store record other = records other ∨ other = store := by
  by_cases he : other = store
  · exact .inr he
  · exact .inl (Function.update_of_ne he ..)

/-- The check of one store after another, as far as the claim. -/
theorem arriving (h : Inv s) (hproc : s.processes id = some proc) (hphase : proc.phase = .arriving rest)
    (hclear : ∀ store, Passing s proc store → s.Clear resolve id proc.directory store) :
    Inv (s.advance resolve id proc ok) := by
  have hslots : proc.claimed ++ rest = proc.hosted.slots := h.formed_at hproc hphase
  have hlive : proc.phase ≠ .ended := by rw [hphase]; nofun
  have hup : proc.phase.isUp := by rw [hphase]; rfl
  unfold State.advance
  rw [hphase]
  cases rest with
  | nil =>
    rw [List.append_nil] at hslots
    dsimp only
    split
    · rename_i hserves
      exact h.enter hproc ⟨hserves, hslots⟩ (fun _ => Process.past_of_claimed hlive) fun _ => hup
    · exact h.enter hproc trivial (fun _ => Process.past_of_claimed hlive) nofun
  | cons slot rest =>
    have hpass : (∀ record, s.records slot.1 = some record → record.socket = "") →
        Inv (s.pass id proc slot rest) := by
      intro hnone
      have hc : s.Clear resolve id proc.directory slot.1 :=
        hclear slot.1 (by unfold Passing; rw [hphase]; exact ⟨rfl, hnone⟩)
      exact h.pass hproc hc hslots hlive hup rfl fun _ => .inl rfl
    dsimp only
    split
    · rename_i hnone
      exact hpass fun record hrecord => by rw [hnone] at hrecord; cases hrecord
    · rename_i found hfound
      split
      · rename_i hempty
        exact hpass fun record hrecord => by rw [hfound] at hrecord; cases hrecord; exact hempty
      · exact h.enter hproc hslots (fun _ => Process.past_of_claimed hlive) fun _ => hup

theorem probing {socket : String} (h : Inv s) (hproc : s.processes id = some proc)
    (hphase : proc.phase = .probing slot socket rest) : Inv (s.advance resolve id proc ok) := by
  have hslots : proc.claimed ++ slot :: rest = proc.hosted.slots := h.formed_at hproc hphase
  unfold State.advance
  rw [hphase]
  dsimp only
  split
  · exact h.ends hproc
  · exact h.enter hproc hslots (fun _ => Process.past_of_claimed (by rw [hphase]; nofun))
      fun _ => by rw [hphase]; rfl

theorem clearing (h : Inv s) (hproc : s.processes id = some proc) (hphase : proc.phase = .clearing slot rest)
    (hclear : ∀ store, Passing s proc store → s.Clear resolve id proc.directory store) :
    Inv (s.advance resolve id proc ok) := by
  have hslots : proc.claimed ++ slot :: rest = proc.hosted.slots := h.formed_at hproc hphase
  have hc : s.Clear resolve id proc.directory slot.1 := hclear slot.1 (by unfold Passing; rw [hphase])
  unfold State.advance
  rw [hphase]
  exact h.pass hproc hc hslots (by rw [hphase]; nofun) (by rw [hphase]; rfl) rfl
    fun store => records_update ..

/-- A store that was checked is claimed: its record is emptied and then written, and nobody else is past it. -/
theorem claiming (h : Inv s) (hproc : s.processes id = some proc)
    (hphase : proc.phase = .claiming slot rest ∨ proc.phase = .writing slot rest) :
    Inv (s.advance resolve id proc ok) := by
  have hpast : ∀ store, (store = slot.1 ∨ store ∈ proc.claimed.map Prod.fst) → proc.Past store := by
    intro store hstore
    unfold Process.Past
    rcases hphase with hp | hp <;> (rw [hp]; exact hstore)
  have hup : proc.phase.isUp := by rcases hphase with hp | hp <;> (rw [hp]; rfl)
  have hkept : ∀ (record : Option Record) store,
      Function.update s.records slot.1 record store = s.records store ∨
        ∀ other, other ≠ id → ¬ s.Past other store := by
    intro record store
    rcases records_update s.records slot.1 store record with hsame | rfl
    · exact .inl hsame
    · exact .inr fun other hne => h.alone hproc (hpast _ (.inl rfl)) hne
  obtain ⟨hserves, hslots⟩ : proc.serves ∧ proc.claimed ++ slot :: rest = proc.hosted.slots := by
    rcases hphase with hp | hp <;> exact h.formed_at hproc hp
  have hearlier : ∀ (record : Option Record), ∀ old ∈ proc.claimed,
      Function.update s.records slot.1 record old.1 = some (proc.record old) := by
    intro record old hold
    rw [Function.update_of_ne (Process.claimed_ne hslots hold)]
    exact h.locked id proc old hproc hserves hup hold
  unfold State.advance
  rcases hphase with hp | hp
  · rw [hp]
    dsimp only
    split
    · exact h.moved { proc with phase := .writing slot rest } rfl ⟨hserves, hslots⟩
        (fun store hstore other hne => h.alone hproc (hpast store hstore) hne) (hkept none)
        fun _ _ => hearlier none
    · exact h.ends hproc
  · rw [hp]
    dsimp only
    split
    · refine h.moved { proc with claimed := proc.claimed ++ [slot], phase := .arriving rest } rfl ?_ ?_
        (hkept _) ?_
      · show (proc.claimed ++ [slot]) ++ rest = proc.hosted.slots
        rw [← hslots, List.append_assoc, List.singleton_append]
      · intro store hstore other hne
        have hmem : store ∈ (proc.claimed ++ [slot]).map Prod.fst := hstore
        rw [List.map_append, List.mem_append] at hmem
        exact h.alone hproc (hpast store (hmem.symm.imp List.mem_singleton.1 fun hin => hin)) hne
      · intro _ _ old hold
        rcases List.mem_append.1 hold with hin | hin
        · exact hearlier _ old hin
        · obtain rfl := List.mem_singleton.1 hin
          exact Function.update_self ..
    · exact h.ends hproc

/-- Everything is claimed: the address is looked at, cleared and bound, or the locks are given back. -/
theorem binding (h : Inv s) (hproc : s.processes id = some proc)
    (hphase : proc.phase = .looking ∨ proc.phase = .unlinking ∨ proc.phase = .binding) :
    Inv (s.advance resolve id proc ok) := by
  have hup : proc.phase.isUp := by rcases hphase with hp | hp | hp <;> (rw [hp]; rfl)
  have hpast : ∀ store ∈ proc.claimed.map Prod.fst, proc.Past store := fun _ =>
    Process.past_of_claimed (by rcases hphase with hp | hp | hp <;> (rw [hp]; nofun))
  obtain ⟨hserves, hslots⟩ : proc.serves ∧ proc.claimed = proc.hosted.slots := by
    rcases hphase with hp | hp | hp <;> exact h.formed_at hproc hp
  have hback : Inv (s.enter id proc (.releasing (proc.hosted.slots.map Prod.fst) false)) := by
    refine h.enter hproc ?_ hpast nofun
    intro store hstore
    exact hslots ▸ hstore
  have hgoes : ∀ (sockets : Address → Option ProcessId) (phase : Phase Store),
      (phase = .unlinking ∨ phase = .binding ∨ phase = .serving) →
      Inv (State.enter { s with sockets := sockets } id proc phase) := by
    intro sockets phase hp
    refine h.moved { proc with phase := phase } rfl ?_ ?_ (fun _ => .inl rfl)
      fun _ _ old hold => h.locked id proc old hproc hserves hup hold
    · rcases hp with rfl | rfl | rfl <;> exact ⟨hserves, hslots⟩
    · intro store hstore other hne
      have hin : store ∈ proc.claimed.map Prod.fst := by rcases hp with rfl | rfl | rfl <;> exact hstore
      exact h.alone hproc (hpast store hin) hne
  unfold State.advance
  rcases hphase with hp | hp | hp <;> rw [hp] <;> dsimp only
  · split
    · exact hback
    · exact hgoes s.sockets .unlinking (.inl rfl)
  · unfold State.unlink
    split
    · exact hgoes s.sockets .binding (.inr (.inl rfl))
    · exact hgoes _ .binding (.inr (.inl rfl))
  · split
    · exact hback
    split
    · exact hgoes s.sockets .serving (.inr (.inr rfl))
    split
    · exact hgoes _ .serving (.inr (.inr rfl))
    · exact hback

/-- What a process was past is given back: nobody else is past it. -/
theorem releasing {rest : List Store} {bound : Bool} (h : Inv s) (hproc : s.processes id = some proc)
    (hphase : proc.phase = .releasing rest bound) : Inv (s.advance resolve id proc ok) := by
  have hrest : ∀ store ∈ rest, store ∈ proc.claimed.map Prod.fst := h.formed_at hproc hphase
  have hpast : ∀ store ∈ proc.claimed.map Prod.fst, proc.Past store := fun _ =>
    Process.past_of_claimed (by rw [hphase]; nofun)
  unfold State.advance
  rw [hphase]
  cases rest with
  | nil =>
    dsimp only
    split
    · have hkept : (s.unlink resolve proc.directory proc.socket).processes id = some proc := by
        rw [unlink_processes, hproc]
      exact (h.unlink ..).enter hkept trivial hpast nofun
    · exact h.enter hproc trivial hpast nofun
  | cons store rest =>
    refine h.moved { proc with phase := .releasing rest bound } rfl
      (fun other hin => hrest other (List.mem_cons_of_mem _ hin))
      (fun store hstore other hne => h.alone hproc (hpast store hstore) hne) ?_ nofun
    intro other
    rcases records_update s.records store other none with hsame | rfl
    · exact .inl hsame
    · exact .inr fun id' hne => h.alone hproc (hpast _ (hrest _ (List.mem_cons_self ..))) hne

theorem advance (h : Inv s) (hproc : s.processes id = some proc)
    (hclear : ∀ store, Passing s proc store → s.Clear resolve id proc.directory store) :
    Inv (s.advance resolve id proc ok) := by
  cases hphase : proc.phase with
  | arriving rest => exact h.arriving hproc hphase hclear
  | probing slot socket rest => exact h.probing hproc hphase
  | clearing slot rest => exact h.clearing hproc hphase hclear
  | claiming slot rest => exact h.claiming hproc (.inl hphase)
  | writing slot rest => exact h.claiming hproc (.inr hphase)
  | looking => exact h.binding hproc (.inl hphase)
  | unlinking => exact h.binding hproc (.inr (.inl hphase))
  | binding => exact h.binding hproc (.inr (.inr hphase))
  | releasing rest bound => exact h.releasing hproc hphase
  | leaving | working =>
    unfold State.advance
    rw [hphase]
    exact h.ends hproc
  | serving | ended =>
    unfold State.advance
    rw [hphase]
    exact h

theorem next {action : Action Store Directory} (h : Inv s) (hsafe : Safe resolve s action) :
    Inv (next resolve s action) := by
  cases action with
  | start id pid directory socket hosted =>
    dsimp only [Lock.next]
    split
    · exact h.started rfl rfl
    · exact h
  | command id pid directory store =>
    dsimp only [Lock.next]
    split
    · exact h.started rfl rfl
    · exact h
  | advance id ok =>
    dsimp only [Lock.next]
    split
    · exact h
    · rename_i proc hproc
      exact h.advance hproc fun store => hsafe proc store hproc
  | stop id =>
    dsimp only [Lock.next]
    split
    · exact h
    rename_i proc hproc
    split
    · rename_i hserving
      have hphase : proc.phase = .serving := by
        revert hserving
        cases proc.phase <;> first | exact fun _ => rfl | nofun
      obtain ⟨-, hslots⟩ : proc.serves ∧ proc.claimed = proc.hosted.slots := h.formed_at hproc hphase
      refine h.enter hproc ?_ (fun _ => Process.past_of_claimed (by rw [hphase]; nofun)) nofun
      intro store hstore
      exact hslots ▸ hstore
    · exact h
  | crash id =>
    dsimp only [Lock.next]
    split
    · exact h
    · rename_i proc hproc
      exact h.ends hproc

end Inv

theorem State.Start.inv (h : s.Start) : Inv s where
  formed id proc hproc := by rw [h] at hproc; cases hproc
  one id _ _ hpast := by
    obtain ⟨proc, hproc, -⟩ := hpast
    rw [h] at hproc
    cases hproc
  locked id proc _ hproc := by rw [h] at hproc; cases hproc

namespace Sample

/-- An absolute path names the same file in every directory. -/
def resolve (directory path : String) : String :=
  if path.toList.head? = some '/' then path else directory ++ "/" ++ path

def directory : State Nat String String := ⟨fun _ => none, fun _ => none, fun _ => none⟩

theorem directory_start : directory.Start := fun _ => rfl

def hosted : Slots Nat := ⟨[(0, "main")], List.nodup_singleton _⟩

def claims : List (Action Nat String) :=
  [.start 0 100 "/srv" "borg.sock" hosted, .advance 0 true, .advance 0 true, .advance 0 true, .advance 0 true]

/-- A command comes upon the record, probes the socket and goes on. -/
def walksIn (cwd : String) : List (Action Nat String) :=
  [.command 1 101 cwd 0, .advance 1 true, .advance 1 true, .advance 1 true]

/-- The server looks at its address, clears it and binds it. -/
def binds : List (Action Nat String) := [.advance 0 true, .advance 0 true, .advance 0 true]

-- Also while the server answers, a command run elsewhere resolves the relative path to a file that is not there.
example :
    State.records ((claims ++ binds ++ walksIn "/home").foldl (next resolve) directory) 0 = none ∧
      (State.processes ((claims ++ binds ++ walksIn "/home").foldl (next resolve) directory) 0).any
        (fun server => server.phase.isServing) := by
  decide +kernel

theorem safe_of {s : State Nat String String} {proc : Process Nat String} {ok : Bool}
    (hproc : s.processes id = some proc) (hnot : ∀ store, ¬ Passing s proc store) :
    Safe resolve s (.advance id ok) := by
  intro found store hfound hpassing
  rw [hproc] at hfound
  cases hfound
  exact absurd hpassing (hnot store)

end Sample

end Lock

end BorgCore
