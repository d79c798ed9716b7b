import BorgCore.Ops.Runs

/-!
# Identities are issued once

PIDs and handles are numbered by counters in files beside the store.  A counter is saved before the
identity it numbers is handed out, and is never turned back but by a write of its file that is left
torn: what cannot be parsed reads as the default, and the default counts from one.
-/

namespace BorgCore

/-! ### The line of a store -/

def Happening.object (h : Happening) : Option Pid :=
  match h.answer with
  | .ok (.object pid) => some pid
  | _ => none

def Happening.handed (h : Happening) : Option String :=
  match h.answer with
  | .ok (.handle id) => some id
  | _ => none

/-- A client is told that its transaction is over. -/
def Happening.Frees (h : Happening) (id : String) : Prop :=
  (h.request = .txCommit id ∨ h.request = .txAbort id) ∧ ∃ answer, h.answer = .ok answer

/-- What befalls a store that is moved about: a request, or its import elsewhere. -/
inductive Chapter where
  | request (h : Happening)
  | imported (allocations transactions : Fate)

namespace Chapter

def object : Chapter → Option Pid
  | request h => h.object
  | imported _ _ => none

/-- The handles clients have been given and not been told are over.  None is held where a store has only
just been imported. -/
def Held : List Chapter → String → Prop
  | [], _ => False
  | request h :: past, id => h.handed = some id ∨ Held past id ∧ ¬ h.Frees id
  | imported _ _ :: _, _ => False

end Chapter

/-- What an import leaves of an exported site: the PID counter and the timeout are in the stream, and the
files are written last, the counter first.  Where a write fails there is no store. -/
def Site.imported (site : Site) (log : Log) (config : Sidecar DerivationConfig)
    (allocations transactions : Fate) : Site :=
  ⟨log,
    if allocations = .done then
      transactions.leaves none { (default : Transactions) with txIdleTimeout := site.table.txIdleTimeout }
    else none,
    allocations.leaves none ⟨site.allocations.load.next⟩, config⟩

/-- Everything a store has been through, the latest first, and what it was exported from before that.
Its log and its pause flags may be whatever they are. -/
inductive Line : List Chapter → Site → Prop
  | start : Line [] Site.new
  | request {past : List Chapter} {site : Site} (h : Happening) (hl : Line past site)
      (hb : h.before = site) (hh : Happens h) : Line (.request h :: past) h.after
  | other {past : List Chapter} {site : Site} (log : Log) (config : Sidecar DerivationConfig)
      (hl : Line past site) : Line past { site with log := log, derivation := config }
  | imported {past : List Chapter} {site : Site} (log : Log) (config : Sidecar DerivationConfig)
      (allocations transactions : Fate) (hl : Line past site) :
      Line (.imported allocations transactions :: past)
        (site.imported log config allocations transactions)

/-- What is asked of a line: no PID is returned twice, and no handle while it is held. -/
structure IssuedOnce (line : List Chapter) : Prop where
  objects : line.Pairwise fun later earlier => ∀ pid, later.object = some pid → earlier.object ≠ some pid
  handles : ∀ h past, .request h :: past <:+ line → ∀ id, h.handed = some id → ¬ Chapter.Held past id

/-- No write of the PID counter is left torn, and no import stops short of it, once a PID has been
returned; no write of the table is left torn while a handle is held. -/
def Chapter.Kept (past : List Chapter) : Chapter → Prop
  | request h =>
    ((∃ id structName, h.request = .txCreate id structName) → h.faults.allocations.left = .torn →
      ∀ chapter ∈ past, chapter.object = none) ∧
    (h.faults.transactions.left = .torn → ∀ id, ¬ Held past id)
  | imported allocations _ => allocations.left ≠ .new → ∀ chapter ∈ past, chapter.object = none

/-! ### What a request does to the counters -/

theorem handle_inj {n m : Nat} (h : s!"tx-{n}" = s!"tx-{m}") : n = m := by
  have hdigits : Nat.toDigits 10 n = Nat.toDigits 10 m := by
    simpa using congrArg String.toList h
  rw [← Nat.ofDigitChars_toDigits (b := 10) (n := n) (by decide) (by decide), hdigits,
    Nat.ofDigitChars_toDigits (by decide) (by decide)]

variable {past : List Chapter} {site : Site} {h : Happening}

/-- A counter goes back where its file is left torn, and not otherwise. -/
theorem Fate.le_leaves {α : Type} [Inhabited α] (count : α → Nat) {fate : Fate} {file : Sidecar α}
    {value : α} (hv : count file.load ≤ count value) :
    fate.left = .torn ∨ count file.load ≤ count (fate.leaves file value).load := by
  rcases fate.load_leaves file value with ⟨_, he⟩ | ⟨hl, _⟩ | ⟨_, he⟩
  · rw [he]
    exact Or.inr (le_refl _)
  · exact Or.inl hl
  · rw [he]
    exact Or.inr hv

/-- What a request does to the counters. -/
structure Counted (h : Happening) (site : Site) : Prop where
  allocations : (∃ id structName, h.request = .txCreate id structName) ∧
      h.faults.allocations.left = .torn ∨
    h.before.allocations.load.next ≤ site.allocations.load.next
  objects : ∀ pid, h.object = some pid → h.before.allocations.load.next < site.allocations.load.next ∧
    ∃ branch, pid = .allocated .object branch serverAllocator h.before.allocations.load.next
  table : h.faults.transactions.left = .torn ∨ h.before.table.next ≤ site.table.next
  handles : ∀ id, h.handed = some id →
    h.before.table.next < site.table.next ∧ id = s!"tx-{h.before.table.next}"

theorem Happening.object_eq_some {pid : Pid} (ho : h.object = some pid) : h.answer = .ok (.object pid) := by
  unfold Happening.object at ho
  split at ho
  · rename_i found hanswer
    cases ho
    exact hanswer
  · cases ho

theorem Happening.handed_eq_some {id : String} (hh : h.handed = some id) : h.answer = .ok (.handle id) := by
  unfold Happening.handed at hh
  split at hh
  · rename_i found hanswer
    cases hh
    exact hanswer
  · cases hh

/-- The next handle, where the table is left alone or written with no fewer handed out. -/
theorem next_le {fate : Fate} {file : Sidecar Transactions}
    (ht : file = site.transactions ∨ ∃ table, file = fate.leaves site.transactions table ∧
      site.table.next ≤ table.next) : fate.left = .torn ∨ site.table.next ≤ file.load.next := by
  rcases ht with rfl | ⟨table, rfl, hle⟩
  · exact Or.inr (le_refl _)
  · exact Fate.le_leaves Transactions.next hle

theorem counted_of {α : Type} {g : α → Answer} {answer : Except Halt α}
    (hanswer : h.answer = answer.map g) (hobject : ∀ a pid, g a ≠ .object pid)
    (hhandle : ∀ a id, g a ≠ .handle id)
    (ha : site.allocations = h.before.allocations)
    (ht : site.transactions = h.before.transactions ∨ ∃ table,
      site.transactions = h.faults.transactions.leaves h.before.transactions table ∧
        h.before.table.next ≤ table.next) : Counted h site := by
  have hnot {found : Answer} (hok : h.answer = .ok found) : ∃ a, g a = found := by
    rw [hok] at hanswer
    cases answer with
    | ok a => exact ⟨a, (Except.ok.inj hanswer).symm⟩
    | error halt => cases hanswer
  refine ⟨Or.inr (by rw [ha]), fun pid ho => ?_, next_le ht, fun id hh => ?_⟩
  · obtain ⟨a, hg⟩ := hnot (Happening.object_eq_some ho)
    exact absurd hg (hobject a pid)
  · obtain ⟨a, hg⟩ := hnot (Happening.handed_eq_some hh)
    exact absurd hg (hhandle a id)

/-- A handle is handed out once the table is saved with the next one in it. -/
theorem Happens.counted_begin (hh : Happens h) (hr : h.request = .txBegin) :
    ∃ site, h.From site ∧ Counted h site := by
  have hends := @Ops.txBegin_ends h.args h.now h.faults h.before
  obtain ⟨site, ⟨answer, ⟨ha, _, ht⟩, hanswer⟩, hfrom⟩ := hh.spec (by
    rw [hr]
    exact hends.returning Answer.handle)
  refine ⟨site, hfrom, Or.inr (by rw [ha]), fun pid ho => ?_, next_le ?_, fun id hhanded => ?_⟩
  · rw [Happening.object_eq_some ho] at hanswer
    cases answer <;> cases hanswer
  · rcases ht with ⟨heq, _⟩ | ⟨_, _, _, _, heq, _⟩
    · exact Or.inl heq
    · exact Or.inr ⟨_, heq, Nat.le_succ _⟩
  · rw [Happening.handed_eq_some hhanded] at hanswer
    cases answer with
    | error halt => cases hanswer
    | ok found =>
      cases hanswer
      rcases ht with ⟨_, hnone⟩ | ⟨_, _, _, _, heq, hdone⟩
      · exact absurd rfl (hnone id)
      · obtain ⟨hid, hfate⟩ := hdone id rfl
        refine ⟨?_, hid⟩
        rw [Site.table, Site.table, heq, hfate]
        exact Nat.lt_succ_self _

theorem Happens.counted_create (hh : Happens h) {id : String} {structName : ObjectTypeName}
    (hr : h.request = .txCreate id structName) : ∃ site, h.From site ∧ Counted h site := by
  have hends := @Ops.txCreate_ends h.args h.now h.faults h.before id structName
  obtain ⟨site, ⟨answer, hcreated, hanswer⟩, hfrom⟩ := hh.spec (by
    rw [hr]
    exact hends.returning Answer.object)
  refine ⟨site, hfrom, ?_, fun pid ho => ?_, next_le ?_, fun id hhanded => ?_⟩
  · rcases hcreated with ⟨rfl, _⟩ | ⟨_, _, _, _, heq, _⟩
    · exact Or.inr (le_refl _)
    · rw [heq]
      exact (Fate.le_leaves Allocations.next (Nat.le_succ _)).imp (fun ht => ⟨⟨id, structName, hr⟩, ht⟩)
        fun hle => hle
  · rw [Happening.object_eq_some ho] at hanswer
    cases answer with
    | error halt => cases hanswer
    | ok found =>
      cases hanswer
      rcases hcreated with ⟨_, hnone⟩ | ⟨_, branch, _, _, heq, ⟨_, _, hnone⟩ | ⟨hfate, _, hwrote⟩⟩
      · exact absurd rfl (hnone pid)
      · exact absurd rfl (hnone pid)
      · rcases hwrote with ⟨_, hnone, _⟩ | ⟨_, _, _, hdone⟩
        · exact absurd rfl (hnone pid)
        · refine ⟨?_, branch, (hdone pid rfl).1⟩
          rw [heq, hfate]
          exact Nat.lt_succ_self _
  · rcases hcreated with ⟨rfl, _⟩ | ⟨_, _, _, _, _, ⟨_, heq, _⟩ | ⟨_, _, ⟨heq, _⟩ | ⟨_, _, heq, _⟩⟩⟩
    · exact Or.inl rfl
    · exact Or.inl heq
    · exact Or.inl heq
    · exact Or.inr ⟨_, heq, le_refl _⟩
  · rw [Happening.handed_eq_some hhanded] at hanswer
    cases answer <;> cases hanswer

/-- Every request saves its counters before it hands anything out. -/
theorem Happens.counted (hh : Happens h) : ∃ site, h.From site ∧ Counted h site := by
  cases hr : h.request with
  | txBegin => exact hh.counted_begin hr
  | txCreate id structName => exact hh.counted_create hr
  | txGet id cell =>
    have hends := @Ops.txGet_ends h.args h.now h.faults h.before id h.engine.computeNow
      h.engine.recorded cell
    obtain ⟨site, ⟨answer, ⟨ha, _, ht⟩, hanswer⟩, hfrom⟩ := hh.spec (by
      rw [hr]
      exact hends.returning Answer.read)
    refine ⟨site, hfrom, counted_of hanswer (fun _ _ he => by cases he) (fun _ _ he => by cases he) ha ?_⟩
    rcases ht with ⟨heq, _⟩ | ⟨_, _, _, _, _, heq, _⟩
    · exact Or.inl heq
    · exact Or.inr ⟨_, heq, le_refl _⟩
  | txSet id cell value =>
    have hends := @Ops.txSet_ends h.args h.now h.faults h.before id cell value
    obtain ⟨site, ⟨answer, hwrote, hanswer⟩, hfrom⟩ := hh.spec (by
      rw [hr]
      exact hends.returning Answer.layer)
    refine ⟨site, hfrom, counted_of hanswer (fun _ _ he => by cases he) (fun _ _ he => by cases he) ?_ ?_⟩
    · rcases hwrote with ⟨rfl, _⟩ | ⟨_, _, ha, _⟩
      · rfl
      · exact ha
    · rcases hwrote with ⟨rfl, _⟩ | ⟨_, _, _, _, ⟨heq, _⟩ | ⟨_, _, heq, _⟩⟩
      · exact Or.inl rfl
      · exact Or.inl heq
      · exact Or.inr ⟨_, heq, le_refl _⟩
  | txCommit id =>
    have hends := @Ops.txCommit_ends h.now h.faults h.before id h.engine.derive
    obtain ⟨site, ⟨answer, hcommitted, hanswer⟩, hfrom⟩ := hh.spec (by
      rw [hr]
      exact hends.returning Answer.layer)
    refine ⟨site, hfrom, counted_of hanswer (fun _ _ he => by cases he) (fun _ _ he => by cases he) ?_ ?_⟩
    · cases hcommitted with
      | saved _ _ _ _ _ _ _ _ _ _ _ halloc _ => exact halloc
      | _ => rfl
    · cases hcommitted with
      | unknown => exact Or.inl rfl
      | rejected => exact Or.inr ⟨_, rfl, le_refl _⟩
      | cut => exact Or.inl rfl
      | unsaved => exact Or.inr ⟨_, rfl, le_refl _⟩
      | saved index _ _ _ _ _ _ _ hdone _ ht _ _ =>
        refine Or.inr ⟨(h.before.table.remove index).retire id "already committed", ?_, le_refl _⟩
        rw [ht, hdone]
        rfl
  | txAbort id =>
    have hends := @Ops.txAbort_ends h.faults h.before id
    obtain ⟨site, ⟨answer, ⟨_, ha, ht⟩, hanswer⟩, hfrom⟩ := hh.spec (by
      rw [hr]
      exact hends.returning fun _ => Answer.done)
    refine ⟨site, hfrom, counted_of hanswer (fun _ _ he => by cases he) (fun _ _ he => by cases he) ha ?_⟩
    rcases ht with ⟨heq, _⟩ | ⟨_, _, heq, _⟩
    · exact Or.inl heq
    · exact Or.inr ⟨_, heq, le_refl _⟩
  | reap =>
    have hends := @Ops.reap_ends h.now h.faults h.before
    obtain ⟨site, ⟨answer, ⟨_, ha, ht⟩, hanswer⟩, hfrom⟩ := hh.spec (by
      rw [hr]
      exact hends.returning fun _ => Answer.done)
    refine ⟨site, hfrom, counted_of hanswer (fun _ _ he => by cases he) (fun _ _ he => by cases he) ha ?_⟩
    rcases ht with ⟨heq, _⟩ | ⟨heq, _⟩
    · exact Or.inl heq
    · refine Or.inr ⟨_, heq, ?_⟩
      exact (Ops.reaped_next _ _).ge

/-! ### A line -/

/-- The counters are past everything that has been issued. -/
structure Numbered (line : List Chapter) (site : Site) : Prop where
  objects : ∀ chapter ∈ line, ∀ pid, chapter.object = some pid → ∃ branch counter,
    pid = .allocated .object branch serverAllocator counter ∧ counter < site.allocations.load.next
  handles : ∀ id, Chapter.Held line id → ∃ count, id = s!"tx-{count}" ∧ count < site.table.next
  once : IssuedOnce line

theorem suffix_cons {line : List Chapter} {chapter : Chapter} (hs : .request h :: past <:+ chapter :: line) :
    (.request h = chapter ∧ past = line) ∨ .request h :: past <:+ line := by
  rcases List.suffix_cons_iff.1 hs with heq | hs
  · exact Or.inl (List.cons.inj heq)
  · exact Or.inr hs

theorem numbered_new : Numbered [] Site.new where
  objects chapter hm := by cases hm
  handles id hh := by cases hh
  once := ⟨.nil, fun h past hs => by cases List.eq_nil_of_suffix_nil hs⟩

theorem Numbered.congr (hn : Numbered past site) {site' : Site}
    (ha : site'.allocations = site.allocations) (ht : site'.transactions = site.transactions) :
    Numbered past site' := by
  refine ⟨fun chapter hm pid hp => ?_, fun id hh => ?_, hn.once⟩
  · rw [ha]
    exact hn.objects chapter hm pid hp
  · rw [Site.table, ht]
    exact hn.handles id hh

/-- A stop between an operation and the next request touches neither file. -/
theorem Happening.From.files (hf : h.From site) :
    h.after.allocations = site.allocations ∧ h.after.transactions = site.transactions := by
  by_cases hstop : h.answer = .error .stopped
  · obtain ⟨log, _, ha⟩ := hf.1 hstop
    rw [ha]
    exact ⟨rfl, rfl⟩
  · rw [hf.2 hstop]
    exact ⟨rfl, rfl⟩

theorem Numbered.request (hn : Numbered past h.before) (hh : Happens h)
    (hkept : Chapter.Kept past (.request h)) : Numbered (.request h :: past) h.after := by
  obtain ⟨site, hf, hc⟩ := hh.counted
  obtain ⟨ha, ht⟩ := hf.files
  refine Numbered.congr ?_ ha ht
  -- What is handed out now is numbered by the counter, and what was before, below it.
  have hobject {chapter : Chapter} (hm : chapter ∈ past) {pid : Pid} (hp : chapter.object = some pid) :
      ∃ branch counter, pid = .allocated .object branch serverAllocator counter ∧
        counter < h.before.allocations.load.next ∧ counter < site.allocations.load.next := by
    obtain ⟨branch, counter, heq, hlt⟩ := hn.objects chapter hm pid hp
    refine ⟨branch, counter, heq, hlt, ?_⟩
    rcases hc.allocations with ⟨hcreate, htorn⟩ | hle
    · rw [hkept.1 hcreate htorn chapter hm] at hp
      cases hp
    · exact lt_of_lt_of_le hlt hle
  refine ⟨fun chapter hm pid hp => ?_, fun id hheld => ?_, ?_, fun h' past' hs id hh' => ?_⟩
  · rcases List.mem_cons.1 hm with rfl | hm
    · obtain ⟨hlt, branch, heq⟩ := hc.objects pid hp
      exact ⟨branch, _, heq, hlt⟩
    · obtain ⟨branch, counter, heq, _, hlt⟩ := hobject hm hp
      exact ⟨branch, counter, heq, hlt⟩
  · rcases hheld with hhanded | ⟨hheld, _⟩
    · obtain ⟨hlt, heq⟩ := hc.handles id hhanded
      exact ⟨_, heq, hlt⟩
    · obtain ⟨count, heq, hlt⟩ := hn.handles id hheld
      rcases hc.table with htorn | hle
      · exact absurd hheld (hkept.2 htorn id)
      · exact ⟨count, heq, lt_of_lt_of_le hlt hle⟩
  · refine List.pairwise_cons.2 ⟨fun earlier hm pid hp hearlier => ?_, hn.once.objects⟩
    obtain ⟨_, branch, heq⟩ := hc.objects pid hp
    obtain ⟨_, counter, heq', hlt, _⟩ := hobject hm hearlier
    rw [heq] at heq'
    cases heq'
    exact lt_irrefl _ hlt
  · rcases suffix_cons hs with ⟨heq, rfl⟩ | hs
    · cases heq
      intro hheld
      obtain ⟨_, hid⟩ := hc.handles id hh'
      obtain ⟨count, hid', hlt⟩ := hn.handles id hheld
      rw [handle_inj (hid.symm.trans hid')] at hlt
      exact lt_irrefl _ hlt
    · exact hn.once.handles h' past' hs id hh'

theorem Numbered.imported (hn : Numbered past site) (log : Log) (config : Sidecar DerivationConfig)
    {allocations transactions : Fate} (hkept : Chapter.Kept past (.imported allocations transactions)) :
    Numbered (.imported allocations transactions :: past)
      (site.imported log config allocations transactions) := by
  refine ⟨fun chapter hm pid hp => ?_, fun id hheld => hheld.elim, ?_, fun h' past' hs id hh' => ?_⟩
  · rcases List.mem_cons.1 hm with rfl | hm
    · cases hp
    · obtain ⟨branch, counter, heq, hlt⟩ := hn.objects chapter hm pid hp
      refine ⟨branch, counter, heq, ?_⟩
      show counter < (allocations.leaves none ⟨site.allocations.load.next⟩ : Sidecar Allocations).load.next
      by_cases hnew : allocations.left = .new
      · rw [Fate.leaves, hnew]
        exact hlt
      · rw [hkept hnew chapter hm] at hp
        cases hp
  · exact List.pairwise_cons.2 ⟨fun _ _ pid hp => (by cases hp), hn.once.objects⟩
  · rcases suffix_cons hs with ⟨heq, _⟩ | hs
    · cases heq
    · exact hn.once.handles h' past' hs id hh'

theorem Line.numbered (hl : Line past site)
    (hkept : ∀ chapter before, chapter :: before <:+ past → chapter.Kept before) : Numbered past site := by
  induction hl with
  | start => exact numbered_new
  | @request past site h _ hb hh ih =>
    have hn := ih fun chapter before hs => hkept chapter before (hs.trans (List.suffix_cons _ _))
    subst hb
    exact hn.request hh (hkept _ _ (List.suffix_refl _))
  | other log config _ ih => exact (ih hkept).congr rfl rfl
  | @imported past site log config allocations transactions _ ih =>
    have hn := ih fun chapter before hs => hkept chapter before (hs.trans (List.suffix_cons _ _))
    exact hn.imported log config (hkept _ _ (List.suffix_refl _))

/-- **Identities are issued once**, however often the process stops and wherever the store is taken, where
no write of a counter is left torn once it has counted. -/
theorem issued_once (hl : Line past site)
    (hkept : ∀ chapter before, chapter :: before <:+ past → chapter.Kept before) : IssuedOnce past :=
  (hl.numbered hkept).once

/-! ### A store that is moved, and one that forgets -/

theorem Line.served (hl : Line past site) (args : Ops) (now : Nat) (faults : Mishaps) (engine : Engine)
    (request : Request) (h : (Happening.served args now faults engine request site).stopped = false) :
    Line (.request (.served args now faults engine request site) :: past)
      (Happening.served args now faults engine request site).after :=
  .request _ hl rfl (happens_served h)

theorem Chapter.kept_of_nothing (hf : h.faults = .nothing) : Chapter.Kept past (.request h) := by
  refine ⟨fun _ htorn => ?_, fun htorn => ?_⟩
  · rw [hf] at htorn
    cases htorn
  · rw [hf] at htorn
    cases htorn

theorem created_line : Line [.request created, .request begun] created.after := by
  have hdeclared : Line [] declared := .other _ none .start
  have hbegun : Line [.request begun] begun.after := hdeclared.served _ _ _ _ _ (by decide +kernel)
  exact hbegun.served _ _ _ _ _ (by decide +kernel)

/-- The store is exported and imported elsewhere, and goes on there. -/
def moved : Site := created.after.imported created.after.log none .done .done
def begunThere : Happening := .served rootArgs 0 .nothing .idle .txBegin moved
def createdThere : Happening := .served rootArgs 0 .nothing .idle (.txCreate "tx-1" "Doc") begunThere.after

/-- The lines of the store that moved, and of the one that stays. -/
def movedLine : List Chapter :=
  [.request createdThere, .request begunThere, .imported .done .done, .request created, .request begun]

theorem moved_line : Line movedLine createdThere.after := by
  have hmoved : Line [.imported .done .done, .request created, .request begun] moved :=
    .imported _ none .done .done created_line
  have hbegun : Line [.request begunThere, .imported .done .done, .request created, .request begun]
      begunThere.after := hmoved.served _ _ _ _ _ (by decide +kernel)
  exact hbegun.served _ _ _ _ _ (by decide +kernel)

theorem issued_once_moved :
    Line movedLine createdThere.after ∧ created.object = some (.allocated .object 1 1 1) ∧
      createdThere.object = some (.allocated .object 1 1 2) ∧ IssuedOnce movedLine := by
  refine ⟨moved_line, by decide +kernel, by decide +kernel, issued_once moved_line fun chapter before hs => ?_⟩
  have hm : chapter ∈ movedLine := hs.subset List.mem_cons_self
  simp only [movedLine, List.mem_cons, List.not_mem_nil, or_false] at hm
  rcases hm with rfl | rfl | rfl | rfl | rfl
  · exact Chapter.kept_of_nothing rfl
  · exact Chapter.kept_of_nothing rfl
  · exact fun hold => absurd rfl hold
  · exact Chapter.kept_of_nothing rfl
  · exact Chapter.kept_of_nothing rfl

/-- The process stops while it writes the PID counter. -/
def Mishaps.torn : Mishaps := { Mishaps.nothing with allocations := .stopped .torn }

def forgotten : Happening := .cut rootArgs 0 .torn .idle (.txCreate "tx-1" "Doc") created.after
def reissued : Happening := .served rootArgs 0 .nothing .idle (.txCreate "tx-1" "Doc") forgotten.after

/-- **A PID is issued twice**: the process stops in the save of the counter, what is left of the file
reads as the default, and the next object is given the PID of the first. -/
theorem issued_twice :
    Line [.request reissued, .request forgotten, .request created, .request begun] reissued.after ∧
      created.object = some (.allocated .object 1 1 1) ∧
      reissued.object = some (.allocated .object 1 1 1) ∧
      ¬ IssuedOnce [.request reissued, .request forgotten, .request created, .request begun] := by
  have hcreated : created.object = some (.allocated .object 1 1 1) := by decide +kernel
  have hreissued : reissued.object = some (.allocated .object 1 1 1) := by decide +kernel
  have hforgotten : Line [.request forgotten, .request created, .request begun] forgotten.after :=
    .request forgotten created_line rfl (happens_cut (by decide +kernel) (by decide +kernel))
  refine ⟨hforgotten.served _ _ _ _ _ (by decide +kernel), hcreated, hreissued, fun ho => ?_⟩
  have hmem : Chapter.request created ∈ [.request forgotten, .request created, .request begun] := by simp
  exact (List.pairwise_cons.1 ho.objects).1 _ hmem _ hreissued hcreated

end BorgCore
