import Mathlib.Algebra.BigOperators.Group.Finset.Basic
import Mathlib.Algebra.Order.BigOperators.Group.Finset
import Mathlib.Data.Set.Finite.Lattice
import Mathlib.Logic.Hydra
import BorgCore.Lib.Machine
import BorgCore.Engine.Turns
import BorgCore.Engine.Whole

/-!
# A round ends

What a round may schedule is bounded by what its cells name: an invocation is scheduled only so often, a
wave holds finitely many runs, and a run makes finitely many calls.  A turn lowers one of these and raises
none that comes before it.
-/

namespace BorgCore

namespace Settling

variable {s s' : Settling} {turn : Turn} {turns : ℕ → Turn}

abbrev after (s : Settling) (turns : ℕ → Turn) : ℕ → Settling := Machine.states next s turns

def runs (s : Settling) (invocation : Invocation) : Nat := s.reruns.getD invocation 0

def startOf (s : Settling) : Turn → Option Invocation
  | .start index =>
    if s.failed = none ∧ s.running.length < s.engine.parallelism then (s.waiting[index]?).map Prod.snd
    else none
  | _ => none

/-- How often an invocation was run in so many turns. -/
def starts (s : Settling) (turns : ℕ → Turn) (invocation : Invocation) : ℕ → ℕ
  | 0 => 0
  | n + 1 => s.starts turns invocation n +
    if (s.after turns n).startOf (turns n) = some invocation then 1 else 0

/-- The invocations that the cells of a wave name: the entity of a cell, in the source buffer of a
registered producer. -/
def Names (s : Settling) (invocation : Invocation) : Prop :=
  ∃ layer ∈ s.wave, ∃ cells, s.engine.cellsOf layer = .ok cells ∧ ∃ entry ∈ cells,
    ∃ definition ∈ s.engine.producers.values,
      entry.1.cell.buffer = definition.source ∧ invocation = ⟨definition.id, entry.1.cell.pid⟩

/-! ### Scheduled before it is run -/

theorem Taken.schedules {walk : LayerId → ProducerId → Walk} {out : Scheduling}
    (ran : Scheduling.schedule s.scope walk s.wave s.toSchedule = .ok () out) :
    Scheduling.Schedules s.scope (fun definition invocation =>
      definition ∈ s.engine.producers.values ∧
        ∃ layer ∈ s.wave, s.engine.Dirties s.scope s.seeded layer definition invocation) s.toSchedule out :=
  (Scheduling.schedule_schedules fun layer hlayer _ hdefinition _ hd => ⟨hdefinition, layer, hlayer, hd⟩).ok ran

/-- What waits has been scheduled, and what runs has been; the dependency index knows no other. -/
structure Tracked (known : Invocation → Prop) (s : Settling) : Prop where
  waiting : ∀ entry ∈ s.waiting, entry.1 ∈ s.engine.producers.values ∧ entry.2.producer = entry.1.id ∧
    0 < s.runs entry.2
  running : ∀ run ∈ s.running, run.definition ∈ s.engine.producers.values ∧ 0 < s.runs run.invocation
  index : ∀ invocation, s.engine.index.Mentions invocation → known invocation ∨ 0 < s.runs invocation

theorem Tracked.taken {known : Invocation → Prop} (ht : s.Tracked known) (h : Taken s turn s') :
    s'.Tracked known := by
  cases h with
  | still => exact ht
  | @scheduled walk out enabled ran =>
    have hout := Taken.schedules ran
    obtain ⟨poison, he⟩ := hout.engine
    obtain ⟨new, hwork, -, hnew⟩ := hout.work
    have hindex : out.engine.index = s.engine.index := by rw [he]; rfl
    have hproducers : out.engine.producers = s.engine.producers := by rw [he]; rfl
    refine ⟨fun entry hin => ?_, fun run hrun => ?_, fun invocation hm => ?_⟩
    · have hin : entry ∈ new := by
        have hin : entry ∈ [] ++ new := hwork ▸ hin
        exact hin
      obtain ⟨⟨hdefinition, layer, -, hd⟩, hnot, hmem, -⟩ := hnew entry.1 entry.2 hin
      refine ⟨by rw [hproducers]; exact hdefinition, hd.producer_eq, ?_⟩
      exact Nat.lt_of_lt_of_eq (Nat.succ_pos _) (hout.counted entry.2 hmem hnot).1.symm
    · rw [hproducers]
      obtain ⟨hdefinition, hpos⟩ := ht.running run hrun
      exact ⟨hdefinition, Nat.lt_of_lt_of_le hpos (hout.runs_le run.invocation)⟩
    · rw [hindex] at hm
      exact (ht.index invocation hm).imp_right fun hpos => Nat.lt_of_lt_of_le hpos (hout.runs_le invocation)
  | started enabled found works holds fresh =>
    obtain ⟨hdefinition, hproducer, hpos⟩ := ht.waiting _ (List.mem_of_getElem? found)
    refine ⟨fun entry hin => ht.waiting entry ((List.eraseIdx_sublist _ _).mem hin), fun run hrun => ?_, ht.index⟩
    rcases List.mem_append.1 hrun with hrun | hrun
    · exact ht.running run hrun
    · obtain rfl := List.mem_singleton.1 hrun
      rw [fresh.ofDefinition, fresh.invocation_eq hproducer]
      exact ⟨hdefinition, hpos⟩
  | refused enabled found =>
    exact ⟨fun entry hin => ht.waiting entry ((List.eraseIdx_sublist _ _).mem hin), ht.running, ht.index⟩
  | went enabled found works holds definition input layer follows =>
    refine ⟨ht.waiting, fun run hrun => ?_, ht.index⟩
    rcases List.mem_or_eq_of_mem_set hrun with hrun | rfl
    · exact ht.running run hrun
    · rw [definition, Running.invocation_congr definition input]
      exact ht.running _ (List.mem_of_getElem? found)
  | ended enabled found done works committed wrote =>
    refine ⟨ht.waiting, fun run hrun => ht.running run ((List.eraseIdx_sublist _ _).mem hrun), fun invocation hm => ?_⟩
    rcases hm.of_record with rfl | hm
    · exact .inr (ht.running _ (List.mem_of_getElem? found)).2
    · exact ht.index invocation hm
  | failed enabled found failed works =>
    exact ⟨ht.waiting, fun run hrun => ht.running run ((List.eraseIdx_sublist _ _).mem hrun), ht.index⟩
  | panicked => exact ⟨ht.waiting, ht.running, ht.index⟩

/-! ### How often an invocation is run -/

/-- How often an invocation waits. -/
def owed (s : Settling) (invocation : Invocation) : ℕ := (s.waiting.map Prod.snd).count invocation

theorem enabled_of_startOf {invocation : Invocation} (h : s.startOf turn = some invocation) : s.Enabled turn := by
  cases turn with
  | schedule walk => cases h
  | advance index => cases h
  | start index =>
    unfold startOf at h
    dsimp only at h
    split at h
    · rename_i hroom
      obtain ⟨entry, hfound, -⟩ := Option.map_eq_some_iff.1 h
      exact ⟨hroom.1, (List.getElem?_eq_some_iff.1 hfound).1, hroom.2⟩
    · cases h

theorem owed_start {index : Nat} {definition : ProducerDef} {invocation other : Invocation}
    (enabled : s.Enabled (.start index)) (found : s.waiting[index]? = some (definition, invocation)) :
    (if s.startOf (.start index) = some other then 1 else 0) +
      ((s.waiting.eraseIdx index).map Prod.snd).count other = s.owed other := by
  have hstart : s.startOf (.start index) = some invocation := by
    unfold startOf
    dsimp only
    rw [if_pos ⟨enabled.1, enabled.2.2⟩, found]
    rfl
  obtain ⟨hlt, he⟩ := List.getElem?_eq_some_iff.1 found
  have hperm := ((List.getElem_cons_eraseIdx_perm hlt).map Prod.snd).count_eq other
  rw [he, List.map_cons, List.count_cons] at hperm
  unfold owed
  rw [hstart, ← hperm]
  simp [Nat.add_comm]

/-- **An invocation is run no more often than it is scheduled**, and never beyond the limit. -/
theorem Taken.owed_le (h : Taken s turn s') (invocation : Invocation) {k : ℕ}
    (hruns : k + s.owed invocation ≤ s.runs invocation) (hlimit : k + s.owed invocation ≤ cycleRerunLimit) :
    k + (if s.startOf turn = some invocation then 1 else 0) + s'.owed invocation ≤ s'.runs invocation ∧
    k + (if s.startOf turn = some invocation then 1 else 0) + s'.owed invocation ≤ cycleRerunLimit := by
  cases h with
  | still stands =>
    rw [if_neg fun he => stands (enabled_of_startOf he)]
    exact ⟨hruns, hlimit⟩
  | @scheduled walk out enabled ran =>
    have hout := Taken.schedules ran
    obtain ⟨new, hwork, hnodup, hnew⟩ := hout.work
    have hwork : out.work = new := hwork
    have hnone : s.owed invocation = 0 := by
      unfold owed
      rw [enabled.2.2.1]
      rfl
    rw [hnone] at hruns hlimit
    show k + 0 + (out.work.map Prod.snd).count invocation ≤ out.runs invocation ∧
      k + 0 + (out.work.map Prod.snd).count invocation ≤ cycleRerunLimit
    rw [hwork]
    by_cases hin : invocation ∈ new.map Prod.snd
    · obtain ⟨⟨definition, _⟩, hmem, rfl⟩ := List.mem_map.1 hin
      obtain ⟨-, hnot, hscheduled, hle⟩ := hnew _ _ hmem
      have hcounted : out.runs _ = s.runs _ + 1 := (hout.counted _ hscheduled hnot).1
      rw [List.count_eq_one_of_mem hnodup hin]
      dsimp only at *
      omega
    · have hle : s.runs invocation ≤ out.runs invocation := hout.runs_le invocation
      rw [List.count_eq_zero_of_not_mem hin]
      omega
  | started enabled found =>
    rw [Nat.add_assoc, show _ + owed _ invocation = _ from owed_start enabled found]
    exact ⟨hruns, hlimit⟩
  | refused enabled found =>
    rw [Nat.add_assoc, show _ + owed _ invocation = _ from owed_start enabled found]
    exact ⟨hruns, hlimit⟩
  | went => exact ⟨hruns, hlimit⟩
  | ended => exact ⟨hruns, hlimit⟩
  | failed => exact ⟨hruns, hlimit⟩
  | panicked => exact ⟨hruns, hlimit⟩

theorem after_sound (hs : s.Sound) (turns : ℕ → Turn) (n : ℕ) : (s.after turns n).Sound :=
  Machine.states_keeps (fun _ turn hs => hs.taken (next_taken hs turn)) hs turns n

theorem after_taken (hs : s.Sound) (turns : ℕ → Turn) (n : ℕ) :
    Taken (s.after turns n) (turns n) (s.after turns (n + 1)) :=
  next_taken (after_sound hs turns n) (turns n)

theorem starts_le (hs : s.Sound) (hnone : s.waiting = []) (turns : ℕ → Turn) (invocation : Invocation) (n : ℕ) :
    s.starts turns invocation n ≤ cycleRerunLimit := by
  have hall : s.starts turns invocation n + (s.after turns n).owed invocation ≤ (s.after turns n).runs invocation ∧
      s.starts turns invocation n + (s.after turns n).owed invocation ≤ cycleRerunLimit := by
    induction n with
    | zero =>
      have hzero : (s.after turns 0).owed invocation = 0 := by
        show (s.waiting.map Prod.snd).count invocation = 0
        rw [hnone]
        rfl
      rw [hzero]
      exact ⟨Nat.zero_le _, Nat.zero_le _⟩
    | succ n ih => exact (after_taken hs turns n).owed_le invocation ih.1 ih.2
  exact Nat.le_trans (Nat.le_add_right _ _) hall.2

/-! ### What a round may schedule -/

theorem after_producers (hs : s.Sound) (turns : ℕ → Turn) (n : ℕ) :
    (s.after turns n).engine.producers = s.engine.producers := by
  induction n with
  | zero => rfl
  | succ n ih => exact (after_taken hs turns n).producers.trans ih

theorem Taken.seeded (h : Taken s turn s') : ∀ producer ∈ s.seeded, producer ∈ s'.seeded := by
  cases h with
  | scheduled enabled ran => exact (Taken.schedules ran).seeded
  | still => exact fun _ h => h
  | started => exact fun _ h => h
  | refused => exact fun _ h => h
  | went => exact fun _ h => h
  | ended => exact fun _ h => h
  | failed => exact fun _ h => h
  | panicked => exact fun _ h => h

theorem seeded_mono (hs : s.Sound) (turns : ℕ → Turn) {n m : ℕ} (hle : n ≤ m) :
    ∀ producer ∈ (s.after turns n).seeded, producer ∈ (s.after turns m).seeded := by
  induction m, hle using Nat.le_induction with
  | base => exact fun _ h => h
  | succ m _ ih => exact fun producer h => (after_taken hs turns m).seeded producer (ih producer h)

/-- The seeds a turn takes from a producer's source buffer: they are offered once in a round. -/
def Seeds (s s' : Settling) (definition : ProducerDef) (invocation : Invocation) : Prop :=
  definition.id ∉ s.seeded ∧ definition.id ∈ s'.seeded ∧
    ∃ seeds, s.engine.backfill s.scope definition = .ok seeds ∧ invocation ∈ seeds

/-- **How an invocation comes to be scheduled for the first time**: the dependency index knew it before the
round, a cell of the wave names it, or it is a seed. -/
theorem Taken.enters {known : Invocation → Prop} (h : Taken s turn s') (ht : s.Tracked known)
    {invocation : Invocation} (hzero : s.runs invocation = 0) (hpos : 0 < s'.runs invocation) :
    known invocation ∨ s.Names invocation ∨
      ∃ definition ∈ s.engine.producers.values, s.Seeds s' definition invocation := by
  have hsame (he : s'.runs invocation = s.runs invocation) : False := by
    rw [he, hzero] at hpos
    exact Nat.lt_irrefl 0 hpos
  cases h with
  | @scheduled walk out enabled ran =>
    have hout := Taken.schedules ran
    by_cases hin : invocation ∈ out.scheduled
    swap
    · exact (hsame (hout.other invocation hin)).elim
    obtain ⟨-, definition, ⟨hdefinition, layer, hlayer, -, -, cells, hcells, hd⟩, hseeded⟩ :=
      hout.counted invocation hin List.not_mem_nil
    rcases hd with hd | ⟨hunseeded, seeds, hseeds, hin⟩
    · unfold DerivationEngine.invalidatedBy at hd
      rcases List.mem_append.1 (List.mem_dedup.1 hd) with hd | hd
      · obtain ⟨cell, -, hedge⟩ := DependencyIndex.mem_dependentsOf.1 (List.mem_filter.1 hd).1
        refine .inl ((ht.index invocation ⟨_, hedge⟩).resolve_right fun hpos => ?_)
        rw [hzero] at hpos
        exact Nat.lt_irrefl 0 hpos
      · obtain ⟨entry, hentry, rfl⟩ := List.mem_map.1 hd
        obtain ⟨hentry, hnamed⟩ := List.mem_filter.1 hentry
        simp only [Bool.and_eq_true, decide_eq_true_eq] at hnamed
        exact .inr (.inl ⟨layer, hlayer, cells, hcells, entry, hentry, definition, hdefinition, hnamed.1.2, rfl⟩)
    · exact .inr (.inr ⟨definition, hdefinition, hunseeded, hseeded, seeds, hseeds, hin⟩)
  | still => exact (hsame rfl).elim
  | started => exact (hsame rfl).elim
  | refused => exact (hsame rfl).elim
  | went => exact (hsame rfl).elim
  | ended => exact (hsame rfl).elim
  | failed => exact (hsame rfl).elim
  | panicked => exact (hsame rfl).elim

theorem begin_fresh {engine : DerivationEngine} {branch : BranchId} {span : Span}
    (h : begin engine branch span = .ok s) : s.engine.index = engine.index ∧ s.reruns = ∅ ∧ s.waiting = [] ∧
      s.running = [] ∧ s.failed = none := by
  unfold begin at h
  split at h
  · cases h
  · split at h
    · cases h
    · split at h
      · cases h
      · cases h
        exact ⟨rfl, rfl, rfl, rfl, rfl⟩

/-- Nothing has been scheduled yet. -/
structure Opening (s : Settling) : Prop where
  sound : s.Sound
  reruns : s.reruns = ∅
  waiting : s.waiting = []
  running : s.running = []
  failed : s.failed = none

theorem begin_opening {engine : DerivationEngine} {branch : BranchId} {span : Span}
    (hlog : engine.log.Sound) (h : begin engine branch span = .ok s) : s.Opening := by
  obtain ⟨-, hreruns, hwaiting, hrunning, hfailed⟩ := begin_fresh h
  exact ⟨begin_sound hlog h, hreruns, hwaiting, hrunning, hfailed⟩

theorem Opening.tracked (h : s.Opening) (turns : ℕ → Turn) (n : ℕ) :
    (s.after turns n).Tracked s.engine.index.Mentions := by
  induction n with
  | zero =>
    refine ⟨fun entry hin => ?_, fun run hin => ?_, fun _ hm => .inl hm⟩
    · have hin : entry ∈ s.waiting := hin
      rw [h.waiting] at hin
      cases hin
    · have hin : run ∈ s.running := hin
      rw [h.running] at hin
      cases hin
  | succ n ih => exact ih.taken (after_taken h.sound turns n)

theorem Opening.runs_zero (h : s.Opening) (invocation : Invocation) : s.runs invocation = 0 := by
  unfold runs
  rw [h.reruns]
  exact AssocMap.getD_empty invocation 0

/-- **A round schedules finitely many invocations** where its cells name finitely many. -/
theorem Opening.finite_scheduled (h : s.Opening) (turns : ℕ → Turn)
    (hfinite : {invocation | ∃ n, (s.after turns n).Names invocation}.Finite) :
    {invocation | ∃ n, 0 < (s.after turns n).runs invocation}.Finite := by
  -- a producer is seeded at one turn at most
  have hseeds : ∀ definition, {invocation | ∃ n,
      (s.after turns n).Seeds (s.after turns (n + 1)) definition invocation}.Finite := by
    intro definition
    by_cases hn : ∃ n, definition.id ∉ (s.after turns n).seeded ∧ definition.id ∈ (s.after turns (n + 1)).seeded
    swap
    · exact Set.finite_empty.subset fun invocation ⟨n, hnot, hin, _⟩ => hn ⟨n, hnot, hin⟩
    obtain ⟨n, hnot, hin⟩ := hn
    obtain ⟨seeds, hseeds⟩ := DerivationEngine.backfill_sound (s.after turns n).scope
      (after_sound h.sound turns n).log definition
    refine seeds.finite_toSet.subset fun invocation ⟨m, hnot', hin', found, hfound, hmem⟩ => ?_
    obtain rfl : m = n := by
      rcases Nat.lt_trichotomy m n with hlt | he | hgt
      · exact absurd (seeded_mono h.sound turns hlt _ hin') hnot
      · exact he
      · exact absurd (seeded_mono h.sound turns hgt _ hin) hnot'
    rw [hseeds] at hfound
    cases hfound
    exact hmem
  have hall := ((DependencyIndex.finite_mentions s.engine.index).union hfinite).union
    (Set.Finite.biUnion s.engine.producers.values.finite_toSet fun definition _ => hseeds definition)
  refine hall.subset fun invocation ⟨n, hpos⟩ => ?_
  induction n with
  | zero =>
    rw [show (s.after turns 0).runs invocation = 0 from h.runs_zero invocation] at hpos
    exact absurd hpos (Nat.lt_irrefl 0)
  | succ n ih =>
    by_cases hzero : (s.after turns n).runs invocation = 0
    swap
    · exact ih (Nat.pos_of_ne_zero hzero)
    rcases (after_taken h.sound turns n).enters (h.tracked turns n) hzero hpos with hknown | hnames |
      ⟨definition, hdefinition, hseeds⟩
    · exact .inl (.inl hknown)
    · exact .inl (.inr ⟨n, hnames⟩)
    · rw [after_producers h.sound turns n] at hdefinition
      exact .inr (Set.mem_biUnion hdefinition ⟨n, hseeds⟩)

/-! ### What a turn lowers -/

/-- The runs still allowed, the runs that wait, the code under way, and the layers of the next wave. -/
abbrev Rank := ℕ × ℕ × Multiset Code × ℕ

def Below : Rank → Rank → Prop :=
  Prod.Lex (· < ·) (Prod.Lex (· < ·) (Prod.Lex (Relation.CutExpand Code.Follows) (· < ·)))

theorem below_wf : WellFounded Below :=
  (Prod.lex Nat.lt_wfRel (Prod.lex Nat.lt_wfRel
    (Prod.lex ⟨_, Code.follows_wf.cutExpand⟩ Nat.lt_wfRel))).wf

variable {allowed : Finset Invocation}

/-- What the limit leaves of these invocations. -/
def allowance (allowed : Finset Invocation) (s : Settling) : ℕ :=
  if s.failed = none then ∑ invocation ∈ allowed, (cycleRerunLimit - s.runs invocation) + 1 else 0

def rank (allowed : Finset Invocation) (s : Settling) : Rank :=
  (s.allowance allowed, s.waiting.length, (s.running.map Running.code : List Code), s.wave.length)

theorem allowance_le (hfailed : s.failed = none) (h : ∀ invocation, s.runs invocation ≤ s'.runs invocation) :
    s'.allowance allowed ≤ s.allowance allowed := by
  unfold allowance
  rw [if_pos hfailed]
  split
  · have hle := Finset.sum_le_sum fun invocation (_ : invocation ∈ allowed) =>
      Nat.sub_le_sub_left (h invocation) cycleRerunLimit
    omega
  · exact Nat.zero_le _

/-- A run that is scheduled uses up what the limit leaves. -/
theorem allowance_lt (hfailed : s.failed = none) (h : ∀ invocation, s.runs invocation ≤ s'.runs invocation)
    {invocation : Invocation} (hin : invocation ∈ allowed) (hlt : s.runs invocation < s'.runs invocation)
    (hle : s'.runs invocation ≤ cycleRerunLimit) : s'.allowance allowed < s.allowance allowed := by
  unfold allowance
  rw [if_pos hfailed]
  split
  · have hsum := Finset.sum_lt_sum (s := allowed)
      (f := fun invocation => cycleRerunLimit - s'.runs invocation)
      (g := fun invocation => cycleRerunLimit - s.runs invocation)
      (fun other _ => Nat.sub_le_sub_left (h other) cycleRerunLimit)
      ⟨invocation, hin, Nat.sub_lt_sub_left (Nat.lt_of_lt_of_le hlt hle) hlt⟩
    omega
  · exact Nat.succ_pos _

theorem cut_set {index : Nat} {run next : Running} (found : s.running[index]? = some run)
    (follows : next.code.Follows run.code) :
    Relation.CutExpand Code.Follows ((s.running.set index next).map Running.code : List Code)
      (s.running.map Running.code : List Code) := by
  obtain ⟨hlt, rfl⟩ := List.getElem?_eq_some_iff.1 found
  refine ⟨{next.code}, s.running[index].code, fun code hin => ?_, ?_⟩
  · rw [Multiset.mem_singleton.1 hin]
    exact follows
  · have hset := (List.set_perm_cons_eraseIdx hlt next).map Running.code
    have hself := (List.getElem_cons_eraseIdx_perm hlt).map Running.code
    rw [Multiset.coe_eq_coe.2 hset, ← Multiset.coe_eq_coe.2 hself, List.map_cons, List.map_cons,
      ← Multiset.cons_coe, ← Multiset.cons_coe, ← Multiset.singleton_add, ← Multiset.singleton_add]
    ac_rfl

theorem cut_erase {index : Nat} {run : Running} (found : s.running[index]? = some run) :
    Relation.CutExpand Code.Follows ((s.running.eraseIdx index).map Running.code : List Code)
      (s.running.map Running.code : List Code) := by
  obtain ⟨hlt, rfl⟩ := List.getElem?_eq_some_iff.1 found
  refine ⟨0, s.running[index].code, fun code hin => absurd hin (Multiset.notMem_zero code), ?_⟩
  have hself := (List.getElem_cons_eraseIdx_perm hlt).map Running.code
  rw [← Multiset.coe_eq_coe.2 hself, List.map_cons, ← Multiset.cons_coe, ← Multiset.singleton_add, add_zero]
  ac_rfl

theorem Taken.below (h : Taken s turn s') (enabled : s.Enabled turn)
    (hallowed : ∀ invocation, 0 < s'.runs invocation → invocation ∈ allowed) :
    Below (s'.rank allowed) (s.rank allowed) := by
  have hfailed : s.failed = none := by cases turn <;> exact enabled.1
  -- only scheduling counts, so every other turn leaves the allowance
  have hstays {next : Settling} (hruns : next.runs = s.runs) (hnext : next.failed = none) :
      next.allowance allowed = s.allowance allowed := by
    unfold allowance
    rw [hruns, hnext, hfailed]
  have hwaits {next : Settling} {index : Nat} {entry : ProducerDef × Invocation}
      (hallowance : next.allowance allowed = s.allowance allowed) (found : s.waiting[index]? = some entry)
      (hwaiting : next.waiting = s.waiting.eraseIdx index) : Below (next.rank allowed) (s.rank allowed) := by
    obtain ⟨hlt, -⟩ := List.getElem?_eq_some_iff.1 found
    unfold rank
    rw [hallowance, hwaiting, List.length_eraseIdx_of_lt hlt]
    exact .right _ (.left _ _ (Nat.sub_lt (Nat.zero_lt_of_lt hlt) Nat.one_pos))
  have hcuts {next : Settling} (hallowance : next.allowance allowed = s.allowance allowed)
      (hwaiting : next.waiting = s.waiting)
      (hcut : Relation.CutExpand Code.Follows (next.running.map Running.code : List Code)
        (s.running.map Running.code : List Code)) : Below (next.rank allowed) (s.rank allowed) := by
    unfold rank
    rw [hallowance, hwaiting]
    exact .right _ (.right _ (.left _ _ hcut))
  cases h with
  | still stands => exact absurd enabled stands
  | @scheduled walk out _ ran =>
    have hout := Taken.schedules ran
    obtain ⟨new, hwork, -, hnew⟩ := hout.work
    have hwork : out.work = new := hwork
    cases hempty : out.work with
    | nil =>
      -- nothing was dirty: the wave is gone and nothing else has changed
      let next : Settling := { s with
        engine := out.engine, reruns := out.reruns, seeded := out.seeded, waiting := [], wave := [] }
      have hle : next.allowance allowed ≤ s.allowance allowed := allowance_le hfailed hout.runs_le
      rcases Nat.lt_or_eq_of_le hle with hlt | heq
      · exact .left _ _ hlt
      · show Below (next.rank allowed) _
        unfold rank
        rw [heq, enabled.2.2.1]
        exact .right _ (.right _ (.right _ (List.length_pos_iff.2 enabled.2.1)))
    | cons entry rest =>
      obtain ⟨-, hnot, hscheduled, hle⟩ := hnew entry.1 entry.2 (hwork ▸ hempty ▸ List.mem_cons_self ..)
      have hcounted : out.runs entry.2 = s.runs entry.2 + 1 := (hout.counted _ hscheduled hnot).1
      have hlt : s.runs entry.2 < out.runs entry.2 := by omega
      exact .left _ _ (allowance_lt hfailed hout.runs_le
        (hallowed entry.2 (Nat.lt_of_le_of_lt (Nat.zero_le _) hlt)) hlt hle)
  | started _ found => exact hwaits (hstays rfl hfailed) found rfl
  | refused _ found => exact hwaits (hstays rfl hfailed) found rfl
  | went _ found _ _ _ _ _ follows => exact hcuts (hstays rfl hfailed) rfl (cut_set found follows)
  | ended _ found => exact hcuts (hstays rfl hfailed) rfl (cut_erase found)
  | failed _ found => exact hcuts (hstays rfl hfailed) rfl (cut_erase found)
  | panicked =>
    refine .left _ _ ?_
    unfold allowance
    rw [if_pos hfailed]
    exact Nat.succ_pos _

/-! ### Rounds that end -/

/-- Only so many turns of a round do anything. -/
theorem Opening.rests (h : s.Opening) (turns : ℕ → Turn)
    (hfinite : {invocation | ∃ n, (s.after turns n).Names invocation}.Finite) :
    ∃ m, ∀ n, m ≤ n → ¬ (s.after turns n).Enabled (turns n) := by
  have hscheduled := h.finite_scheduled turns hfinite
  refine Machine.comes_to_rest below_wf (fun n => (s.after turns n).rank hscheduled.toFinset) _
    (fun n hmoves => ?_) fun n hstill => ?_
  · refine (after_taken h.sound turns n).below hmoves fun invocation hpos => ?_
    exact hscheduled.mem_toFinset.2 ⟨n + 1, hpos⟩
  · exact congrArg _ (next_of_disabled (after_sound h.sound turns n) hstill)

/-- Where nothing can happen, nothing is dirty or the round was given up. -/
theorem settled_of_stuck (hstuck : ∀ turn, ¬ s.Enabled turn) : s.Settled ∨ s.failed ≠ none := by
  by_cases hfailed : s.failed = none
  swap
  · exact .inr hfailed
  have hrunning : s.running = [] := by
    by_contra hne
    exact hstuck (.advance 0) ⟨hfailed, List.length_pos_iff.2 hne⟩
  have hwaiting : s.waiting = [] := by
    by_contra hne
    refine hstuck (.start 0) ⟨hfailed, List.length_pos_iff.2 hne, ?_⟩
    rw [hrunning]
    exact s.engine.parallelism_pos
  have hwave : s.wave = [] := by
    by_contra hne
    exact hstuck (.schedule fun _ _ => .plain) ⟨hfailed, hne, hwaiting, hrunning⟩
  exact .inl ⟨hfailed, hwave, hwaiting, hrunning⟩

/-- A round is given up for one reason only. -/
theorem Taken.failed_eq (h : Taken s turn s') (hne : s'.failed ≠ none) :
    s.failed ≠ none ∧ s'.failed = s.failed ∨
      s'.failed = some .unfinished ∧ ∃ run ∈ s.running, run.code = .panic := by
  cases h with
  | panicked enabled found panicked => exact .inr ⟨rfl, _, List.mem_of_getElem? found, panicked⟩
  | still => exact .inl ⟨hne, rfl⟩
  | scheduled => exact .inl ⟨hne, rfl⟩
  | started => exact .inl ⟨hne, rfl⟩
  | refused => exact .inl ⟨hne, rfl⟩
  | went => exact .inl ⟨hne, rfl⟩
  | ended => exact .inl ⟨hne, rfl⟩
  | failed => exact .inl ⟨hne, rfl⟩

theorem Opening.failed_eq (h : s.Opening) (turns : ℕ → Turn) {n : ℕ} (hne : (s.after turns n).failed ≠ none) :
    (s.after turns n).failed = some .unfinished ∧
      ∃ k < n, ∃ run ∈ (s.after turns k).running, run.code = .panic := by
  induction n with
  | zero => exact absurd h.failed hne
  | succ n ih =>
    rcases (after_taken h.sound turns n).failed_eq hne with ⟨hold, he⟩ | ⟨hfailed, run, hrun, hpanic⟩
    · obtain ⟨hfailed, k, hk, hpanic⟩ := ih hold
      exact ⟨he.trans hfailed, k, Nat.lt_succ_of_lt hk, hpanic⟩
    · exact ⟨hfailed, n, Nat.lt_succ_self n, run, hrun, hpanic⟩

/-- **A round ends**: whatever the order of its calls, only finitely many of its turns do anything; where
nothing can happen any more no wave is left, or a run that panicked has made the round give up; and no
invocation is run more often than the limit. -/
theorem round_terminates {engine : DerivationEngine} {branch : BranchId} {span : Span}
    (hlog : engine.log.Sound) (hbegin : begin engine branch span = .ok s) (turns : ℕ → Turn)
    (hfinite : {invocation | ∃ n, (s.after turns n).Names invocation}.Finite) :
    (∃ m, ∀ n, m ≤ n → ¬ (s.after turns n).Enabled (turns n)) ∧
    (∀ n, (∀ turn, ¬ (s.after turns n).Enabled turn) → (s.after turns n).Settled ∨
      (s.after turns n).failed = some .unfinished ∧
        ∃ k < n, ∃ run ∈ (s.after turns k).running, run.code = .panic) ∧
    ∀ invocation n, s.starts turns invocation n ≤ cycleRerunLimit := by
  have hopening := begin_opening hlog hbegin
  refine ⟨hopening.rests turns hfinite, fun n hstuck => ?_, starts_le hopening.sound hopening.waiting turns⟩
  exact (settled_of_stuck hstuck).imp_right fun hne => hopening.failed_eq turns hne

theorem begin_home {engine : DerivationEngine} {branch : BranchId} {span : Span}
    (h : begin engine branch span = .ok s) : s.scope.home = branch ∧ s.scope.reflects = span.reflects ∧
      s.engine.producers = engine.producers := by
  unfold begin at h
  split at h
  · cases h
  · split at h
    · cases h
    · split at h
      · cases h
      · cases h
        exact ⟨rfl, rfl, rfl⟩

theorem after_scope (hs : s.Sound) (turns : ℕ → Turn) (n : ℕ) : (s.after turns n).scope = s.scope := by
  induction n with
  | zero => rfl
  | succ n ih => exact (after_taken hs turns n).scope.trans ih

/-- **However far a round has come, its merge goes through**, and every registered producer's watermark is then no
lower than what the round reflects, whether its runs landed or not. -/
theorem finish_advances {engine : DerivationEngine} {branch : BranchId} {span : Span} (hlog : engine.log.Sound)
    (hb : (engine.log.branches.lookup branch).isSome) (hbegin : begin engine branch span = .ok s)
    (turns : ℕ → Turn) (n : ℕ) :
    ∃ outcome finished log, (s.after turns n).finish = .ok (outcome, finished) log ∧ finished.log = log ∧
      outcome.executed = (s.after turns n).executed ∧
      ∀ producer, (engine.producers.lookup producer).isSome →
        span.reflects ≤ log.frontier.watermark branch producer := by
  have hsound := begin_sound hlog hbegin
  have hmergeable : (s.after turns n).Mergeable := by
    induction n with
    | zero => exact begin_mergeable hlog hb hbegin
    | succ n ih => exact ih.taken (after_sound hsound turns n) (after_taken hsound turns n)
  obtain ⟨hhome, hreflects, hproducers⟩ := begin_home hbegin
  have hscope : (s.after turns n).scope = s.scope := after_scope hsound turns n
  obtain ⟨outcome, _, _, log, hmerge, -⟩ :=
    Log.mergeRound_run (after_sound hsound turns n).log hmergeable.parent hmergeable.layers
  unfold finish
  rw [hmerge]
  refine ⟨_, _, _, rfl, rfl, rfl, fun producer hproducer => ?_⟩
  rw [hscope, hhome, hreflects]
  refine FrontierTracker.le_watermark_foldl _ _ _ _ _ (Or.inl (AssocMap.mem_keys_iff.2 ?_))
  rw [after_producers hsound turns n, hproducers]
  exact Option.isSome_iff_exists.1 hproducer

/-! ### One run at a time -/

/-- The next turn where one run is taken to its end before the next is started. -/
def inTurn (s : Settling) : Turn :=
  if !s.running.isEmpty then .advance 0
  else if !s.waiting.isEmpty then .start 0
  else .schedule fun _ _ => .plain

def driven : ℕ → Settling → Settling
  | 0, s => s
  | n + 1, s => driven n (s.next s.inTurn)

theorem driven_succ (s : Settling) (n : ℕ) : driven (n + 1) s = (driven n s).next (driven n s).inTurn := by
  induction n generalizing s with
  | zero => rfl
  | succ n ih => exact ih (s.next s.inTurn)

/-- These turns, as a schedule of the round. -/
def drivenTurns (s : Settling) (n : ℕ) : Turn := (driven n s).inTurn

theorem after_driven (s : Settling) (n : ℕ) : s.after s.drivenTurns n = driven n s := by
  induction n with
  | zero => rfl
  | succ n ih =>
    rw [driven_succ]
    show (s.after s.drivenTurns n).next (s.drivenTurns n) = _
    rw [ih]
    rfl

theorem inTurn_enabled (h : ∃ turn, s.Enabled turn) : s.Enabled s.inTurn := by
  obtain ⟨turn, hturn⟩ := h
  have hfailed : s.failed = none := by cases turn <;> exact hturn.1
  unfold inTurn
  cases hrunning : s.running with
  | cons run rest => exact ⟨hfailed, by rw [hrunning]; exact Nat.succ_pos _⟩
  | nil =>
    cases hwaiting : s.waiting with
    | cons entry rest =>
      refine ⟨hfailed, by rw [hwaiting]; exact Nat.succ_pos _, ?_⟩
      rw [hrunning]
      exact s.engine.parallelism_pos
    | nil =>
      cases turn with
      | schedule walk => exact hturn
      | start index =>
        have hlt := hturn.2.1
        rw [hwaiting] at hlt
        exact absurd hlt (Nat.not_lt_zero index)
      | advance index =>
        have hlt := hturn.2
        rw [hrunning] at hlt
        exact absurd hlt (Nat.not_lt_zero index)

/-- The cells of one wave name finitely many invocations. -/
theorem finite_names (s : Settling) : {invocation | s.Names invocation}.Finite := by
  have hwave := Set.Finite.biUnion s.wave.finite_toSet fun layer (_ : layer ∈ {layer | layer ∈ s.wave}) =>
    show {invocation | ∃ cells, s.engine.cellsOf layer = .ok cells ∧ ∃ entry ∈ cells,
      ∃ definition ∈ s.engine.producers.values,
        invocation = Invocation.mk definition.id entry.1.cell.pid}.Finite from by
      cases hcells : s.engine.cellsOf layer with
      | error err => exact Set.finite_empty.subset fun _ ⟨_, h, _⟩ => nomatch h
      | ok cells =>
        refine (Set.Finite.biUnion cells.finite_toSet fun entry _ =>
          Set.Finite.biUnion s.engine.producers.values.finite_toSet fun definition _ =>
            Set.finite_singleton (Invocation.mk definition.id entry.1.cell.pid)).subset ?_
        rintro invocation ⟨found, hfound, entry, hentry, definition, hdefinition, rfl⟩
        cases hfound
        exact Set.mem_biUnion hentry (Set.mem_biUnion hdefinition rfl)
  refine hwave.subset ?_
  rintro invocation ⟨layer, hlayer, cells, hcells, entry, hentry, definition, hdefinition, -, rfl⟩
  exact Set.mem_biUnion hlayer ⟨cells, hcells, entry, hentry, definition, hdefinition, rfl⟩

theorem after_stuck (hs : s.Sound) {m : ℕ} (hstuck : ∀ turn, ¬ (s.after turns m).Enabled turn) {n : ℕ}
    (hle : m ≤ n) : s.after turns n = s.after turns m := by
  induction n, hle using Nat.le_induction with
  | base => rfl
  | succ n _ ih =>
    show (s.after turns n).next (turns n) = _
    rw [ih]
    exact next_of_disabled (after_sound hs turns m) (hstuck (turns n))

theorem finite_of_stuck (hs : s.Sound) {m : ℕ} (hstuck : ∀ turn, ¬ (s.after turns m).Enabled turn) :
    {invocation | ∃ n, (s.after turns n).Names invocation}.Finite := by
  refine (Set.Finite.biUnion (Set.finite_le_nat m) fun n _ => finite_names (s.after turns n)).subset ?_
  rintro invocation ⟨n, hnames⟩
  rcases Nat.le_total n m with hle | hle
  · exact Set.mem_biUnion hle hnames
  · rw [after_stuck hs hstuck hle] at hnames
    exact Set.mem_biUnion (show m ∈ {k | k ≤ m} from Nat.le_refl m) hnames

def isOver (s : Settling) : Bool :=
  s.failed.isSome || (s.wave.isEmpty && s.waiting.isEmpty && s.running.isEmpty)

theorem stuck_of_isOver (h : s.isOver = true) (turn : Turn) : ¬ s.Enabled turn := by
  intro henabled
  have hfailed : s.failed = none := by cases turn <;> exact henabled.1
  unfold isOver at h
  rw [hfailed] at h
  simp only [Option.isSome_none, Bool.false_or, Bool.and_eq_true, List.isEmpty_iff] at h
  obtain ⟨⟨hwave, hwaiting⟩, hrunning⟩ := h
  cases turn with
  | schedule walk => exact henabled.2.1 hwave
  | start index =>
    have hlt := henabled.2.1
    rw [hwaiting] at hlt
    exact absurd hlt (Nat.not_lt_zero index)
  | advance index =>
    have hlt := henabled.2
    rw [hrunning] at hlt
    exact absurd hlt (Nat.not_lt_zero index)

/-! ### Pipelines over one entity -/

namespace Pipelines

def acme : Pid := .allocated .object 1 0 0

def fieldNames : List FieldName := ["sales", "a", "b", "c", "d", "e", "f", "g", "h", "i"]

/-- The field a pipeline writes; the client writes the first. -/
def output (producer : ProducerId) : CellRef := .prop "Company" (fieldNames.getD producer "z") acme

/-- One field of the client's, and so many derived ones. -/
def fields (count : ℕ) : List DefEvent :=
  .declareField "Company" "sales" .int 1 .source ::
    (List.range' 1 count).map fun producer =>
      .declareField "Company" (fieldNames.getD producer "z") .int 1 (.derived producer)

def started : Log := BorgCore.after (Log.createRoot none .new)

def declared (count : ℕ) : Log := BorgCore.after (Log.push 1 (fields count) started)

def written (count : ℕ) : Log := BorgCore.after (clientWrite 1 1 [(output 0, .int 7)] (declared count))

/-- One pipeline for each of the derived fields. -/
def engine (count : ℕ) (code : ProducerId → Code) : DerivationEngine where
  log := written count
  index := .new
  poison := ∅
  producers := (List.range' 1 count).foldl
    (fun producers id => producers.insert id ⟨id, .pipeline, .object "Company", 1, 1, none⟩) ∅
  liveVersions := []
  executor producer _ _ _ := code producer
  parallelism := 1
  parallelism_pos := Nat.one_pos

def landed : Span := ⟨[2], 2, 2⟩

/-- A pipeline that reads what the one before it writes. -/
def relay (producer : ProducerId) : Code :=
  .get (output (producer - 1)) fun _ => .set (output producer) (.int 1) fun _ => .done

theorem engine_sound (count : ℕ) (code : ProducerId → Code) : (engine count code).log.Sound := by
  have hstarted : Log.Steps Log.new started := .single (Log.Step.createRoot none)
  have hsound := Log.Steps.sound Log.sound_new hstarted
  have hregistered : (started.branches.lookup 1).isSome := by decide +kernel
  have hdeclared := Log.push_steps hsound hregistered (fields count)
  have hsound' := Log.Steps.sound hsound hdeclared
  exact Log.Steps.sound hsound'
    (clientWrite_steps hsound' ((Log.Steps.grows hsound hdeclared).registered hregistered) 1 _)

theorem begin_tested (engine : DerivationEngine) (test : Settling → Bool)
    (h : (begin engine 1 landed).toOption.any test = true) :
    ∃ s, begin engine 1 landed = .ok s ∧ test s = true := by
  cases hbegin : begin engine 1 landed with
  | error err =>
    rw [hbegin] at h
    cases h
  | ok s =>
    rw [hbegin] at h
    exact ⟨s, rfl, h⟩

/-- A round that is over after so many turns names finitely many invocations. -/
theorem finite_of_driven {engine : DerivationEngine} {s : Settling} (hlog : engine.log.Sound)
    (hbegin : begin engine 1 landed = .ok s) {m : ℕ} (hover : (driven m s).isOver = true) :
    {invocation | ∃ n, (s.after s.drivenTurns n).Names invocation}.Finite := by
  refine finite_of_stuck (m := m) (begin_sound hlog hbegin) ?_
  rw [after_driven]
  exact stuck_of_isOver hover

/-- A round of a producer that panics goes on as long as it can, and never comes to an empty wave. -/
theorem panic_unsettled : ∃ s, begin (engine 1 fun _ => .panic) 1 landed = .ok s ∧
    (engine 1 fun _ => .panic).log.Sound ∧
    {invocation | ∃ n, (s.after s.drivenTurns n).Names invocation}.Finite ∧
    (∀ n, (∃ turn, (s.after s.drivenTurns n).Enabled turn) →
      (s.after s.drivenTurns n).Enabled (s.drivenTurns n)) ∧
    ∀ n, ¬ (s.after s.drivenTurns n).Settled := by
  have hlog := engine_sound 1 fun _ => .panic
  obtain ⟨s, hbegin, htest⟩ := begin_tested (engine 1 fun _ => .panic)
    (fun s => (List.range 3).all (fun n => !(driven n s).isOver) && (driven 3 s).failed.isSome)
    (by decide +kernel)
  obtain ⟨hearly, hfailed⟩ := Bool.and_eq_true_iff.1 htest
  have hover : (driven 3 s).isOver = true := by
    unfold isOver
    rw [hfailed]
    rfl
  refine ⟨s, hbegin, hlog, finite_of_driven hlog hbegin hover, fun n hturn => ?_, fun n hsettled => ?_⟩
  · rw [after_driven] at hturn ⊢
    exact inTurn_enabled hturn
  · rcases Nat.lt_or_ge n 3 with hlt | hge
    · have hnot := List.all_eq_true.1 hearly n (List.mem_range.2 hlt)
      rw [← after_driven] at hnot
      obtain ⟨hnone, hwave, hwaiting, hrunning⟩ := hsettled
      unfold isOver at hnot
      rw [hnone, hwave, hwaiting, hrunning] at hnot
      cases hnot
    · have hstuck : ∀ turn, ¬ (s.after s.drivenTurns 3).Enabled turn := by
        rw [after_driven]
        exact stuck_of_isOver hover
      have hstays := after_stuck (begin_sound hlog hbegin) hstuck hge
      have hnone := hsettled.1
      rw [hstays, after_driven] at hnone
      rw [hnone] at hfailed
      cases hfailed

/-- Two pipelines, one on the other: a round of theirs ends. -/
theorem relay_terminates : ∃ s, begin (engine 2 relay) 1 landed = .ok s ∧
    (∃ m, ∀ n, m ≤ n → ¬ (s.after s.drivenTurns n).Enabled (s.drivenTurns n)) ∧
    (driven 20 s).executed = 3 := by
  have hlog := engine_sound 2 relay
  obtain ⟨s, hbegin, htest⟩ := begin_tested (engine 2 relay)
    (fun s => (driven 20 s).isOver && (driven 20 s).executed == 3) (by decide +kernel)
  obtain ⟨hover, hexecuted⟩ := Bool.and_eq_true_iff.1 htest
  refine ⟨s, hbegin, ?_, beq_iff_eq.1 hexecuted⟩
  exact (round_terminates hlog hbegin s.drivenTurns (finite_of_driven hlog hbegin hover)).1

end Pipelines

end Settling

end BorgCore
