import BorgCore.Ops.Hosting

/-!
# One live gate for each registry

A name goes from nothing to being hosted by way of one request, if no other comes between its look for
the store file and its end.  `Exposed` is that stretch of a request, and the invariant says of each name
that it is clear, or one request's, or hosted.
-/

namespace BorgCore

/-- A request is exposed from the look that finds no store until it has hosted one, or has failed. -/
def Stage.exposed : Stage → Bool
  | .looked existed | .opened existed _ _ | .writing existed _ _ | .saving existed _ _
  | .undoing existed _ => !existed
  | .finished _ | .claimed _ => true
  | .arrived | .prepared | .hosted _ | .refused _ => false

def Asking.slot : Asking → Option SlotId
  | .routed slot | .entered slot | .holding slot _ => some slot
  | .arrived _ | .answered | .refused _ => none

/-- The slot whose gate a request is inside. -/
def Asking.inside : Asking → Option SlotId
  | .entered slot | .holding slot _ => some slot
  | .arrived _ | .routed _ | .answered | .refused _ => none

/-- The rows of a store that is exactly what was asked for. -/
def Maker.rows : Maker → List Row
  | .create => [rootRow 1]
  | .restore stream => stream.foldl putRow []

def Maker.beside : Maker → Nat
  | .create => 0
  | .restore _ => sidecarCount

namespace Server

/-- The request of a thread may be making the store of a name. -/
def Exposed (s : Server) (t : ThreadId) (name : String) : Prop :=
  ∃ maker stage, s.threads t = .making maker name stage ∧ stage.exposed = true

/-- What is asked of a server that was started on some names. -/
structure OneGate (started : String → Prop) (s : Server) : Prop where
  routed : ∀ t writes step slot, s.threads t = .asking writes step → step.slot = some slot →
    s.table.lookup (s.slots slot).name = some slot
  inside : ∀ t t' writes writes' step step' slot slot', s.threads t = .asking writes step →
    s.threads t' = .asking writes' step' → step.inside = some slot → step'.inside = some slot' →
    (s.slots slot).name = (s.slots slot').name → t = t'
  held : ∀ slot slot' file, (s.slots slot).held = some file → (s.slots slot').held = some file →
    slot = slot'
  acknowledged : ∀ t t' maker maker' name slot slot', s.threads t = .making maker name (.hosted slot) →
    s.threads t' = .making maker' name (.hosted slot') → t = t'
  exact : ∀ t maker name slot, s.threads t = .making maker name (.hosted slot) →
    s.table.lookup name = some slot ∧ ∃ file, s.dirs name = ⟨some file, maker.beside⟩ ∧
      (s.files file).made = maker.rows
  failed : ∀ t maker name err, s.threads t = .making maker name (.refused err) →
    s.table.lookup name ≠ none ∨ s.dirs name ≠ ⟨none, 0⟩ → started name ∨
      ∃ other, other ≠ t ∧ (s.Exposed other name ∨
        ∃ maker slot, s.threads other = .making maker name (.hosted slot))

/-! ### Where it holds -/

/-- A step of making a registry that does no harm.  A look that finds no store, or a restore's of a store
that holds nothing, does not fall where another request for the name is exposed.  A store that is made
and not hosted is removed again: nothing fails in a create once its store is there, nor in the claim of
a store; no file is left beside a store that is not finished; and a restore that fails can remove it. -/
def SafeStep (s : Server) (t : ThreadId) (maker : Maker) (name : String) (ending : Ending) :
    Stage → Prop
  | .prepared =>
    match maker with
    | .create => (s.dirs name).store = none → ∀ other, other ≠ t → ¬ s.Exposed other name
    | .restore _ => ending = .well → (∀ other, other ≠ t → ¬ s.Exposed other name) ∧
        ∀ file, s.table.lookup name ≠ none → (s.dirs name).store = some file →
          (s.files file).holdsRegistry = true
  | .looked _ => maker = .create → ∀ reason, ending ≠ .failed reason true
  | .opened _ _ _ => maker = .create → ending = .well
  | .saving _ _ saved => ∀ reason left, ending = .failed reason left → left = false ∧ saved = 0
  | .undoing existed _ => existed = false → (s.dirs name).store ≠ none → ending = .well
  | .finished _ => ending = .well
  | _ => True

def Safe (s : Server) : Action → Prop
  | .advance t ending =>
    match s.threads t with
    | .making maker name stage => s.SafeStep t maker name ending stage
    | _ => True
  | _ => True

/-- A server that has just been started hosts the stores that are there, and nothing else is. -/
structure Started (s : Server) : Prop where
  threads : ∀ t, s.threads t = .idle
  named : ∀ {name slot}, s.table.lookup name = some slot → slot < s.nextSlot ∧ (s.slots slot).name = name
  tabled : ∀ {slot}, slot < s.nextSlot → s.table.lookup (s.slots slot).name = some slot
  closed : ∀ slot, (s.slots slot).gate = none ∧ (s.slots slot).held = none
  stored : ∀ {name slot}, s.table.lookup name = some slot → (s.dirs name).store ≠ none
  clear : ∀ {name}, s.table.lookup name = none → s.dirs name = ⟨none, 0⟩
  apart : ∀ {name name' file}, (s.dirs name).store = some file → (s.dirs name').store = some file →
    name = name'
  bounded : ∀ {name file}, (s.dirs name).store = some file → file < s.nextFile

/-! ### The invariant -/

/-- A hosted registry that is there to be found. -/
def Kept (s : Server) (name : String) : Prop :=
  s.table.lookup name ≠ none ∧
    ∃ file, (s.dirs name).store = some file ∧ (s.files file).holdsRegistry = true

/-- What is true of the store of a name while it is being made. -/
def StageOk (s : Server) (maker : Maker) (name : String) : Stage → Prop
  | .arrived | .prepared | .refused _ => True
  | .looked existed => if existed then s.Kept name ∧ maker ≠ .create else s.dirs name = ⟨none, 0⟩
  | .opened existed file next =>
    if existed then s.Kept name ∧ maker ≠ .create ∧ (s.dirs name).store = some file
    else s.dirs name = ⟨some file, 0⟩ ∧ s.files file = .empty ∧ next = 1
  | .writing existed file rest => existed = false ∧ s.dirs name = ⟨some file, 0⟩ ∧
      ∃ done, maker = .restore (done ++ rest) ∧ s.files file = ⟨done.foldl putRow [], []⟩
  | .saving existed file saved => existed = false ∧ s.dirs name = ⟨some file, saved⟩ ∧
      saved < sidecarCount ∧ maker.beside = sidecarCount ∧ s.files file = ⟨maker.rows, []⟩
  | .undoing existed _ => existed = false → (s.dirs name).beside = 0
  | .finished file | .claimed file =>
      s.dirs name = ⟨some file, maker.beside⟩ ∧ s.files file = ⟨maker.rows, []⟩
  | .hosted slot => s.table.lookup name = some slot ∧
      ∃ file, s.dirs name = ⟨some file, maker.beside⟩ ∧ (s.files file).made = maker.rows

structure Inv (started : String → Prop) (s : Server) : Prop where
  named : ∀ {name slot}, s.table.lookup name = some slot → slot < s.nextSlot ∧ (s.slots slot).name = name
  tabled : ∀ {slot}, slot < s.nextSlot → s.table.lookup (s.slots slot).name = some slot
  unused : ∀ {slot}, s.nextSlot ≤ slot → (s.slots slot).gate = none ∧ (s.slots slot).held = none
  held : ∀ {slot file}, (s.slots slot).held = some file →
    (s.dirs (s.slots slot).name).store = some file
  stored : ∀ {name}, s.table.lookup name ≠ none → (s.dirs name).store ≠ none
  apart : ∀ {name name' file}, (s.dirs name).store = some file → (s.dirs name').store = some file →
    name = name'
  bounded : ∀ {name file}, (s.dirs name).store = some file → file < s.nextFile
  alone : ∀ {t t' name}, s.Exposed t name → s.Exposed t' name → t = t'
  unhosted : ∀ {t name}, s.Exposed t name → s.table.lookup name = none
  clear : ∀ {name}, s.table.lookup name = none → (∀ t, ¬ s.Exposed t name) → s.dirs name = ⟨none, 0⟩
  stages : ∀ {t maker name stage}, s.threads t = .making maker name stage → s.StageOk maker name stage
  once : ∀ {t t' maker maker' name slot slot'}, s.threads t = .making maker name (.hosted slot) →
    s.threads t' = .making maker' name (.hosted slot') → t = t'
  unstarted : ∀ {t maker name slot}, s.threads t = .making maker name (.hosted slot) → ¬ started name
  known : ∀ {name}, s.table.lookup name ≠ none → started name ∨
    ∃ t maker slot, s.threads t = .making maker name (.hosted slot)
  old : ∀ {name}, started name → s.table.lookup name ≠ none
  routed : ∀ {t writes step slot}, s.threads t = .asking writes step → step.slot = some slot →
    slot < s.nextSlot
  gated : ∀ {t writes step slot}, s.threads t = .asking writes step → step.inside = some slot →
    (s.slots slot).gate = some t
  holding : ∀ {t writes slot file}, s.threads t = .asking writes (.holding slot file) →
    (s.slots slot).held = some file

variable {started : String → Prop} {s s' : Server} {t t' : ThreadId} {maker maker' : Maker}
  {name name' : String} {stage stage' : Stage} {slot slot' : SlotId} {file : FileId}

theorem Started.inv (h : s.Started) : Inv (fun name => s.table.lookup name ≠ none) s := by
  have hnone {t : ThreadId} {thread : Thread} (ht : s.threads t = thread) (hne : thread ≠ .idle) : False :=
    hne (ht.symm.trans (h.threads t))
  have hexposed (t : ThreadId) (name : String) : ¬ s.Exposed t name := by
    rintro ⟨maker, stage, ht, _⟩
    exact hnone ht (by simp)
  exact
    { named := h.named
      tabled := h.tabled
      unused := fun _ => h.closed _
      held := fun {slot _} hh => by rw [(h.closed slot).2] at hh; cases hh
      stored := fun {name} hh => by
        obtain ⟨slot, hslot⟩ := Option.ne_none_iff_exists'.1 hh
        exact h.stored hslot
      apart := h.apart
      bounded := h.bounded
      alone := fun he _ => absurd he (hexposed _ _)
      unhosted := fun he => absurd he (hexposed _ _)
      clear := fun hc _ => h.clear hc
      stages := fun ht => (hnone ht (by simp)).elim
      once := fun ht _ => (hnone ht (by simp)).elim
      unstarted := fun ht => (hnone ht (by simp)).elim
      known := fun hh => Or.inl hh
      old := fun hh => hh
      routed := fun ht _ => (hnone ht (by simp)).elim
      gated := fun ht _ => (hnone ht (by simp)).elim
      holding := fun ht => (hnone ht (by simp)).elim }

theorem Inv.oneGate (h : Inv started s) : s.OneGate started where
  routed t writes step slot ht hs := h.tabled (h.routed ht hs)
  inside t t' writes writes' step step' slot slot' ht ht' hs hs' hn := by
    have hslot : step.slot = some slot := by
      cases step <;> first | exact hs | cases hs
    have hslot' : step'.slot = some slot' := by
      cases step' <;> first | exact hs' | cases hs'
    have heq : slot = slot' := by
      have hl := h.tabled (h.routed ht hslot)
      rw [hn, h.tabled (h.routed ht' hslot')] at hl
      exact (Option.some.inj hl).symm
    have hg := h.gated ht hs
    rw [heq, h.gated ht' hs'] at hg
    exact (Option.some.inj hg).symm
  held slot slot' file hh hh' := by
    have hused {slot : SlotId} (hh : (s.slots slot).held = some file) : slot < s.nextSlot := by
      by_contra hge
      rw [(h.unused (Nat.le_of_not_lt hge)).2] at hh
      cases hh
    have hl := h.tabled (hused hh)
    rw [h.apart (h.held hh) (h.held hh'), h.tabled (hused hh')] at hl
    exact (Option.some.inj hl).symm
  acknowledged t t' maker maker' name slot slot' ht ht' := h.once ht ht'
  exact t maker name slot ht := h.stages ht
  failed t maker name err ht hoccupied := by
    have hself (other : ThreadId) (ho : s.Exposed other name) : other ≠ t := by
      rintro rfl
      obtain ⟨maker', stage, ht', he⟩ := ho
      rw [ht] at ht'
      cases ht'
      cases he
    by_cases hl : s.table.lookup name = none
    · by_cases he : ∃ other, s.Exposed other name
      · obtain ⟨other, he⟩ := he
        exact Or.inr ⟨other, hself other he, Or.inl he⟩
      · have hclear := h.clear hl fun other ho => he ⟨other, ho⟩
        rcases hoccupied with hn | hn
        · exact absurd hl hn
        · exact absurd hclear hn
    · rcases h.known hl with hs | ⟨other, maker', slot, ho⟩
      · exact Or.inl hs
      · refine Or.inr ⟨other, ?_, Or.inr ⟨maker', slot, ho⟩⟩
        rintro rfl
        rw [ht] at ho
        cases ho

/-! ### One request at a time -/

/-- A stage depends on the name alone: on its directory, its store, and whether it is hosted. -/
theorem StageOk.frame (h : s.StageOk maker name stage)
    (ht : s'.table.lookup name = s.table.lookup name) (hd : s'.dirs name = s.dirs name)
    (hf : ∀ file, (s.dirs name).store = some file → (s'.files file).made = (s.files file).made ∧
      ((s.files file).holdsRegistry = true → (s'.files file).holdsRegistry = true) ∧
      (stage.exposed = true → s'.files file = s.files file)) : s'.StageOk maker name stage := by
  have hkept (hk : s.Kept name) : s'.Kept name := by
    obtain ⟨hl, file, hs, hr⟩ := hk
    refine ⟨by rwa [ht], file, by rwa [hd], (hf file hs).2.1 hr⟩
  cases stage with
  | arrived => trivial
  | prepared => trivial
  | refused err => trivial
  | looked existed =>
    cases existed with
    | true => exact ⟨hkept h.1, h.2⟩
    | false => exact hd.trans h
  | opened existed file next =>
    cases existed with
    | true =>
      obtain ⟨hk, hm, hs⟩ := h
      exact ⟨hkept hk, hm, by rwa [hd]⟩
    | false =>
      obtain ⟨hs, he, hn⟩ := h
      refine ⟨hd.trans hs, ?_, hn⟩
      rw [(hf file (by rw [hs])).2.2 rfl, he]
  | writing existed file rest =>
    obtain ⟨rfl, hs, done, hm, he⟩ := h
    refine ⟨rfl, hd.trans hs, done, hm, ?_⟩
    rw [(hf file (by rw [hs])).2.2 rfl, he]
  | saving existed file saved =>
    obtain ⟨rfl, hs, hlt, hb, he⟩ := h
    refine ⟨rfl, hd.trans hs, hlt, hb, ?_⟩
    rw [(hf file (by rw [hs])).2.2 rfl, he]
  | undoing existed err =>
    intro hex
    rw [hd]
    exact h hex
  | finished file =>
    obtain ⟨hs, he⟩ := h
    exact ⟨hd.trans hs, by rw [(hf file (by rw [hs])).2.2 rfl, he]⟩
  | claimed file =>
    obtain ⟨hs, he⟩ := h
    exact ⟨hd.trans hs, by rw [(hf file (by rw [hs])).2.2 rfl, he]⟩
  | hosted slot =>
    obtain ⟨hl, file, hs, hm⟩ := h
    exact ⟨ht.trans hl, file, hd.trans hs, by rw [(hf file (by rw [hs])).1, hm]⟩

/-- A request that is not exposed, for a name that is not hosted, relies on nothing. -/
theorem StageOk.idle (h : s.StageOk maker name stage) (hl : s.table.lookup name = none)
    (he : stage.exposed = false) : s'.StageOk maker name stage := by
  cases stage with
  | arrived => trivial
  | prepared => trivial
  | refused err => trivial
  | looked existed =>
    cases existed with
    | true => exact absurd hl h.1.1
    | false => cases he
  | opened existed file next =>
    cases existed with
    | true => exact absurd hl h.1.1
    | false => cases he
  | writing existed file rest =>
    obtain ⟨rfl, _⟩ := h
    cases he
  | saving existed file saved =>
    obtain ⟨rfl, _⟩ := h
    cases he
  | undoing existed err =>
    intro hex
    rw [hex] at he
    cases he
  | finished file => cases he
  | claimed file => cases he
  | hosted slot =>
    rw [h.1] at hl
    cases hl

/-- A name that is not hosted, and that no request but one not exposed is for, is clear. -/
theorem Inv.cleared (h : Inv started s) (ht : s.threads t = .making maker name stage)
    (he : stage.exposed = false) (hl : s.table.lookup name = none)
    (hlone : ∀ other, other ≠ t → ¬ s.Exposed other name) : s.dirs name = ⟨none, 0⟩ := by
  refine h.clear hl ?_
  intro other ho
  by_cases hne : other = t
  · subst hne
    obtain ⟨m, st, hth, hex⟩ := ho
    rw [ht] at hth
    cases hth
    rw [he] at hex
    cases hex
  · exact hlone other hne ho

/-- What a step of making a registry may touch. -/
structure Touches (s : Server) (t : ThreadId) (maker : Maker) (name : String) (stage stage' : Stage)
    (s' : Server) : Prop where
  threads : s'.threads = Function.update s.threads t (.making maker name stage')
  table : s'.table = s.table
  slots : s'.slots = s.slots
  nextSlot : s'.nextSlot = s.nextSlot
  dirs : ∀ other, other ≠ name → s'.dirs other = s.dirs other
  files : ∀ other file, other ≠ name → (s.dirs other).store = some file → s'.files file = s.files file
  fresh : ∀ file, (s'.dirs name).store = some file → (s.dirs name).store = some file ∨ file = s.nextFile
  nextFile : s.nextFile ≤ s'.nextFile
  bounded : ∀ file, (s'.dirs name).store = some file → file < s'.nextFile
  own : stage.exposed = true ∨ s'.dirs name = s.dirs name ∧
    ∀ file, (s.dirs name).store = some file → s'.files file = s.files file

theorem threads_update {thread : Thread} (hthreads : s'.threads = Function.update s.threads t thread)
    (t' : ThreadId) : s'.threads t' = if t' = t then thread else s.threads t' := by
  rw [hthreads, Function.update_apply]

namespace Touches

theorem other (hs : s.Touches t maker name stage stage' s') (hne : t' ≠ t) : s'.threads t' = s.threads t' := by
  rw [threads_update hs.threads, if_neg hne]

theorem self (hs : s.Touches t maker name stage stage' s') : s'.threads t = .making maker name stage' := by
  rw [threads_update hs.threads, if_pos rfl]

theorem exposed_iff (hs : s.Touches t maker name stage stage' s') : s'.Exposed t' name' ↔
    t' ≠ t ∧ s.Exposed t' name' ∨ t' = t ∧ name' = name ∧ stage'.exposed = true := by
  by_cases hne : t' = t
  · subst hne
    constructor
    · rintro ⟨maker', stage'', hth, he⟩
      rw [hs.self] at hth
      cases hth
      exact Or.inr ⟨rfl, rfl, he⟩
    · rintro (⟨hne, _⟩ | ⟨_, rfl, he⟩)
      · exact absurd rfl hne
      · exact ⟨maker, stage', hs.self, he⟩
  · rw [Exposed, hs.other hne]
    constructor
    · intro he
      exact Or.inl ⟨hne, he⟩
    · rintro (⟨_, he⟩ | ⟨heq, _⟩)
      · exact he
      · exact absurd heq hne

theorem asking (hs : s.Touches t maker name stage stage' s') {writes : List Row} {step : Asking}
    (ha : s'.threads t' = .asking writes step) : s.threads t' = .asking writes step := by
  by_cases hne : t' = t
  · rw [hne, hs.self] at ha
    cases ha
  · rwa [hs.other hne] at ha

theorem hosted (hs : s.Touches t maker name stage stage' s') (hhosted' : ∀ slot, stage' ≠ .hosted slot)
    (ha : s'.threads t' = .making maker' name' (.hosted slot)) :
    s.threads t' = .making maker' name' (.hosted slot) := by
  by_cases hne : t' = t
  · rw [hne, hs.self] at ha
    cases ha
    exact absurd rfl (hhosted' slot)
  · rwa [hs.other hne] at ha

end Touches

/-- Where a request is exposed, its name is not hosted and no other request for it is exposed. -/
theorem Inv.lone (h : Inv started s) (ht : s.threads t = .making maker name stage) (he : stage.exposed = true) :
    s.table.lookup name = none ∧ ∀ other, other ≠ t → ¬ s.Exposed other name :=
  ⟨h.unhosted ⟨maker, stage, ht, he⟩, fun _ hne ho => hne (h.alone ho ⟨maker, stage, ht, he⟩)⟩

/-- A name that is hosted keeps its directory. -/
theorem Inv.dirs_touched (h : Inv started s) (ht : s.threads t = .making maker name stage)
    (hs : s.Touches t maker name stage stage' s') (hl : s.table.lookup name' ≠ none) :
    s'.dirs name' = s.dirs name' := by
  by_cases hn : name' = name
  · subst hn
    rcases hs.own with he | ⟨hd, _⟩
    · exact absurd (h.lone ht he).1 hl
    · exact hd
  · exact hs.dirs name' hn

theorem Inv.held_touched (h : Inv started s) (ht : s.threads t = .making maker name stage)
    (hs : s.Touches t maker name stage stage' s') (hh : (s'.slots slot).held = some file) :
    (s'.dirs (s'.slots slot).name).store = some file := by
  rw [hs.slots] at hh ⊢
  have hused : slot < s.nextSlot := by
    by_contra hge
    rw [(h.unused (Nat.le_of_not_lt hge)).2] at hh
    cases hh
  rw [h.dirs_touched ht hs (by rw [h.tabled hused]; simp)]
  exact h.held hh

/-- What the name has now it had before, or nobody had. -/
theorem Inv.own_touched (h : Inv started s) (hs : s.Touches t maker name stage stage' s')
    (ho : (s'.dirs name').store = some file) (hn : (s'.dirs name).store = some file) : name' = name := by
  by_contra hne
  rw [hs.dirs name' hne] at ho
  rcases hs.fresh file hn with hold | hfresh
  · exact hne (h.apart ho hold)
  · have hlt := h.bounded ho
    rw [hfresh] at hlt
    exact Nat.lt_irrefl _ hlt

theorem Inv.apart_touched (h : Inv started s) (hs : s.Touches t maker name stage stage' s') {other : String}
    (ha : (s'.dirs name').store = some file) (hb : (s'.dirs other).store = some file) : name' = other := by
  by_cases hna : name' = name
  · rw [hna] at ha ⊢
    exact (h.own_touched hs hb ha).symm
  · by_cases hnb : other = name
    · rw [hnb] at hb ⊢
      exact h.own_touched hs ha hb
    · rw [hs.dirs name' hna] at ha
      rw [hs.dirs other hnb] at hb
      exact h.apart ha hb

theorem Inv.bounded_touched (h : Inv started s) (hs : s.Touches t maker name stage stage' s')
    (hf : (s'.dirs name').store = some file) : file < s'.nextFile := by
  by_cases hn : name' = name
  · rw [hn] at hf
    exact hs.bounded file hf
  · rw [hs.dirs name' hn] at hf
    exact lt_of_lt_of_le (h.bounded hf) hs.nextFile

theorem Inv.alone_touched (h : Inv started s) (hs : s.Touches t maker name stage stage' s')
    (hlone : stage'.exposed = true → ∀ other, other ≠ t → ¬ s.Exposed other name) {a b : ThreadId}
    (ha : s'.Exposed a name') (hb : s'.Exposed b name') : a = b := by
  rcases hs.exposed_iff.1 ha with ⟨hne, hea⟩ | ⟨rfl, rfl, he⟩
  · rcases hs.exposed_iff.1 hb with ⟨_, heb⟩ | ⟨rfl, rfl, he⟩
    · exact h.alone hea heb
    · exact absurd hea (hlone he a hne)
  · rcases hs.exposed_iff.1 hb with ⟨hne, heb⟩ | ⟨rfl, _⟩
    · exact absurd heb (hlone he b hne)
    · rfl

theorem Inv.clear_touched (h : Inv started s) (ht : s.threads t = .making maker name stage)
    (hs : s.Touches t maker name stage stage' s')
    (hclear : stage.exposed = true → stage'.exposed = false → s'.dirs name = ⟨none, 0⟩)
    (hl : s.table.lookup name' = none) (hnone : ∀ t, ¬ s'.Exposed t name') : s'.dirs name' = ⟨none, 0⟩ := by
  by_cases hn : name' = name
  · subst hn
    have hdone : stage'.exposed = false := by
      by_contra he
      exact hnone t (hs.exposed_iff.2 (Or.inr ⟨rfl, rfl, by simpa using he⟩))
    cases he : stage.exposed with
    | true => exact hclear he hdone
    | false =>
      rcases hs.own with he' | ⟨hd, _⟩
      · rw [he] at he'
        cases he'
      · rw [hd]
        exact h.cleared ht he hl fun other hne ho => hnone other (hs.exposed_iff.2 (Or.inl ⟨hne, ho⟩))
  · rw [hs.dirs name' hn]
    refine h.clear hl fun other ho => ?_
    by_cases hne : other = t
    · subst hne
      obtain ⟨m, st, hth, _⟩ := ho
      rw [ht] at hth
      cases hth
      exact hn rfl
    · exact hnone other (hs.exposed_iff.2 (Or.inl ⟨hne, ho⟩))

/-- What the other requests rely on stays. -/
theorem Inv.stages_touched (h : Inv started s) (ht : s.threads t = .making maker name stage)
    (hs : s.Touches t maker name stage stage' s') {other : Stage} (hne : t' ≠ t)
    (ha : s.threads t' = .making maker' name' other) : s'.StageOk maker' name' other := by
  have hok := h.stages ha
  by_cases hn : name' = name
  · subst hn
    rcases hs.own with he | ⟨hd, hf⟩
    · -- Another request for the name is not exposed while this one is.
      refine hok.idle (h.lone ht he).1 ?_
      by_contra hex
      exact (h.lone ht he).2 t' hne ⟨maker', other, ha, by simpa using hex⟩
    · refine hok.frame (by rw [hs.table]) hd fun file hfile => ?_
      rw [hf file hfile]
      exact ⟨rfl, fun hr => hr, fun _ => rfl⟩
  · refine hok.frame (by rw [hs.table]) (hs.dirs name' hn) fun file hfile => ?_
    rw [hs.files name' file hn hfile]
    exact ⟨rfl, fun hr => hr, fun _ => rfl⟩

theorem Inv.known_touched (h : Inv started s) (ht : s.threads t = .making maker name stage)
    (hs : s.Touches t maker name stage stage' s') (hhosted : ∀ slot, stage ≠ .hosted slot)
    (hl : s.table.lookup name' ≠ none) :
    started name' ∨ ∃ t maker slot, s'.threads t = .making maker name' (.hosted slot) := by
  rcases h.known hl with hst | ⟨a, m, i, ha⟩
  · exact Or.inl hst
  · refine Or.inr ⟨a, m, i, ?_⟩
    rw [hs.other, ha]
    rintro rfl
    rw [ht] at ha
    cases ha
    exact hhosted i rfl

theorem Inv.touched (h : Inv started s) (ht : s.threads t = .making maker name stage)
    (hs : s.Touches t maker name stage stage' s') (hhosted : ∀ slot, stage ≠ .hosted slot)
    (hhosted' : ∀ slot, stage' ≠ .hosted slot)
    (hexposed : stage'.exposed = true → stage.exposed = true ∨
      s.table.lookup name = none ∧ ∀ other, other ≠ t → ¬ s.Exposed other name)
    (hstage : s'.StageOk maker name stage')
    (hclear : stage.exposed = true → stage'.exposed = false → s'.dirs name = ⟨none, 0⟩) :
    Inv started s' := by
  have hlone (he : stage'.exposed = true) :
      s.table.lookup name = none ∧ ∀ other, other ≠ t → ¬ s.Exposed other name :=
    (hexposed he).elim (h.lone ht) id
  exact
    { named := fun hl => by
        rw [hs.table] at hl
        rw [hs.nextSlot, hs.slots]
        exact h.named hl
      tabled := fun hlt => by
        rw [hs.nextSlot] at hlt
        rw [hs.table, hs.slots]
        exact h.tabled hlt
      unused := fun hge => by
        rw [hs.nextSlot] at hge
        rw [hs.slots]
        exact h.unused hge
      held := h.held_touched ht hs
      stored := fun {name'} hl => by
        rw [hs.table] at hl
        rw [h.dirs_touched ht hs hl]
        exact h.stored hl
      apart := h.apart_touched hs
      bounded := h.bounded_touched hs
      alone := h.alone_touched hs fun he => (hlone he).2
      unhosted := fun he => by
        rw [hs.table]
        rcases hs.exposed_iff.1 he with ⟨_, he⟩ | ⟨_, rfl, he⟩
        · exact h.unhosted he
        · exact (hlone he).1
      clear := fun hl => h.clear_touched ht hs hclear (by rwa [hs.table] at hl)
      stages := fun {t' maker' name' other} ha => by
        by_cases hne : t' = t
        · rw [hne, hs.self] at ha
          cases ha
          exact hstage
        · rw [hs.other hne] at ha
          exact h.stages_touched ht hs hne ha
      once := fun ha hb => h.once (hs.hosted hhosted' ha) (hs.hosted hhosted' hb)
      unstarted := fun ha => h.unstarted (hs.hosted hhosted' ha)
      known := fun hl => h.known_touched ht hs hhosted (by rwa [hs.table] at hl)
      old := fun hn => by
        rw [hs.table]
        exact h.old hn
      routed := fun ha hi => by
        rw [hs.nextSlot]
        exact h.routed (hs.asking ha) hi
      gated := fun ha hi => by
        rw [hs.slots]
        exact h.gated (hs.asking ha) hi
      holding := fun ha => by
        rw [hs.slots]
        exact h.holding (hs.asking ha) }

theorem Inv.moves (h : Inv started s) (ht : s.threads t = .making maker name stage)
    (hhosted : ∀ slot, stage ≠ .hosted slot) (hhosted' : ∀ slot, stage' ≠ .hosted slot)
    (hexposed : stage'.exposed = true → stage.exposed = true ∨
      s.table.lookup name = none ∧ ∀ other, other ≠ t → ¬ s.Exposed other name)
    (hstage : s.StageOk maker name stage')
    (hclear : stage.exposed = true → stage'.exposed = false → s.dirs name = ⟨none, 0⟩) :
    Inv started (s.setStage t maker name stage') := by
  refine h.touched ht ?_ hhosted hhosted' hexposed ?_ hclear
  · exact
      { threads := rfl
        table := rfl
        slots := rfl
        nextSlot := rfl
        dirs := fun _ _ => rfl
        files := fun _ _ _ _ => rfl
        fresh := fun _ hf => Or.inl hf
        nextFile := le_refl _
        bounded := fun _ hf => h.bounded hf
        own := Or.inr ⟨rfl, fun _ _ => rfl⟩ }
  · exact hstage.frame rfl rfl fun _ _ => ⟨rfl, fun hr => hr, fun _ => rfl⟩

theorem Inv.arrived (h : Inv started s) (ht : s.threads t = .making maker name .arrived)
    (ending : Ending) : Inv started (s.makerStep t maker name ending .arrived) := by
  have hmove {stage' : Stage} (hh : ∀ slot, stage' ≠ .hosted slot) (he : stage'.exposed = false)
      (hok : s.StageOk maker name stage') : Inv started (s.setStage t maker name stage') :=
    h.moves ht (fun _ he => by cases he) hh (fun hex => by rw [he] at hex; cases hex) hok
      fun hex => by cases hex
  rw [Server.makerStep]
  split
  · exact hmove (fun _ he => by cases he) rfl trivial
  · split
    · exact hmove (fun _ he => by cases he) rfl trivial
    · exact hmove (fun _ he => by cases he) rfl trivial

theorem Inv.prepared (h : Inv started s) (ht : s.threads t = .making maker name .prepared)
    (ending : Ending) (hsafe : s.SafeStep t maker name ending .prepared) :
    Inv started (s.makerStep t maker name ending .prepared) := by
  have hmove {stage' : Stage} (hh : ∀ slot, stage' ≠ .hosted slot)
      (he : stage'.exposed = true → s.table.lookup name = none ∧
        ∀ other, other ≠ t → ¬ s.Exposed other name)
      (hok : s.StageOk maker name stage') : Inv started (s.setStage t maker name stage') :=
    h.moves ht (fun _ he => by cases he) hh (fun hex => Or.inr (he hex)) hok fun hex => by cases hex
  -- A name with no store and no other request about is clear.
  have hclear (hnone : (s.dirs name).store = none)
      (hlone : ∀ other, other ≠ t → ¬ s.Exposed other name) :
      s.table.lookup name = none ∧ s.dirs name = ⟨none, 0⟩ := by
    have hl : s.table.lookup name = none := by
      by_contra hl
      exact h.stored hl hnone
    exact ⟨hl, h.cleared ht rfl hl hlone⟩
  cases maker with
  | create =>
    rw [Server.makerStep]
    split
    · exact hmove (fun _ he => by cases he) (fun he => by cases he) trivial
    · rename_i hsome
      have hnone : (s.dirs name).store = none := by simpa using hsome
      have hlone := hsafe hnone
      obtain ⟨hl, hd⟩ := hclear hnone hlone
      exact hmove (fun _ he => by cases he) (fun _ => ⟨hl, hlone⟩) hd
  | restore stream =>
    cases ending with
    | failed reason left => exact hmove (fun _ he => by cases he) (fun he => by cases he) trivial
    | well =>
      obtain ⟨hlone, hfull⟩ := hsafe rfl
      show Inv started (s.setStage t (.restore stream) name (.looked (s.dirs name).store.isSome))
      cases hstore : (s.dirs name).store with
      | none =>
        obtain ⟨hl, hd⟩ := hclear hstore hlone
        exact hmove (fun _ he => by cases he) (fun _ => ⟨hl, hlone⟩) hd
      | some file =>
        refine hmove (fun _ he => by cases he) (fun he => by cases he) ?_
        have hl : s.table.lookup name ≠ none := by
          intro hl
          rw [h.cleared ht rfl hl hlone] at hstore
          cases hstore
        exact ⟨⟨hl, file, hstore, hfull file hl hstore⟩, fun he => by cases he⟩

theorem openStore_some (hs : (s.dirs name).store = some file) :
    s.openStore name = s ∧ s.storeOf name = file := by
  refine ⟨?_, ?_⟩
  · rw [openStore, hs]
  · rw [storeOf, hs]
    rfl

theorem openStore_none (hs : (s.dirs name).store = none) :
    s.openStore name =
        { (s.setDir name { s.dirs name with store := some s.nextFile }).setFile s.nextFile .empty with
          nextFile := s.nextFile + 1 } ∧
      s.storeOf name = s.nextFile := by
  refine ⟨?_, ?_⟩
  · rw [openStore, hs]
  · rw [storeOf, hs]
    rfl

/-- Opening a store that is not there makes it, out of nothing any other name has. -/
theorem Inv.touches_open (h : Inv started s) (he : stage.exposed = true)
    (hs : (s.dirs name).store = none) :
    s.Touches t maker name stage stage' ((s.openStore name).setStage t maker name stage') := by
  rw [(openStore_none hs).1]
  exact
    { threads := rfl
      table := rfl
      slots := rfl
      nextSlot := rfl
      dirs := fun other hne => Function.update_of_ne hne _ _
      files := fun other file _ hf => by
        refine Function.update_of_ne ?_ _ _
        have hlt := h.bounded hf
        intro heq
        rw [heq] at hlt
        exact Nat.lt_irrefl _ hlt
      fresh := fun file hf => by
        replace hf : (Function.update s.dirs name { s.dirs name with store := some s.nextFile }
          name).store = some file := hf
        rw [Function.update_self] at hf
        exact Or.inr (Option.some.inj hf).symm
      nextFile := Nat.le_succ _
      bounded := fun file hf => by
        replace hf : (Function.update s.dirs name { s.dirs name with store := some s.nextFile }
          name).store = some file := hf
        rw [Function.update_self] at hf
        rw [← Option.some.inj hf]
        exact Nat.lt_succ_self _
      own := Or.inl he }

theorem Inv.looked (h : Inv started s) {existed : Bool}
    (ht : s.threads t = .making maker name (.looked existed)) (ending : Ending)
    (hsafe : s.SafeStep t maker name ending (.looked existed)) :
    Inv started (s.makerStep t maker name ending (.looked existed)) := by
  have hok := h.stages ht
  cases existed with
  | true =>
    -- The store is a hosted registry's, and stays as it is.
    obtain ⟨⟨_, file, hstore, _⟩, hmaker⟩ := hok
    obtain ⟨hopen, hfile⟩ := openStore_some hstore
    have hmove {stage' : Stage} (hh : ∀ slot, stage' ≠ .hosted slot) (he : stage'.exposed = false)
        (hok : s.StageOk maker name stage') : Inv started (s.setStage t maker name stage') :=
      h.moves ht (fun _ he => by cases he) hh (fun hex => by rw [he] at hex; cases hex) hok
        fun hex => by cases hex
    cases ending with
    | well =>
      rw [Server.makerStep]
      simp only [hopen, hfile]
      exact hmove (fun _ he => by cases he) rfl ⟨(h.stages ht).1, hmaker, hstore⟩
    | failed reason left =>
      have hbadly : s.openBadly name left = s := by
        unfold openBadly
        split
        · exact hopen
        · rfl
      rw [Server.makerStep, hbadly]
      cases maker with
      | create => exact hmove (fun _ he => by cases he) rfl trivial
      | restore stream => exact hmove (fun _ he => by cases he) rfl fun he => by cases he
  | false =>
    have hd : s.dirs name = ⟨none, 0⟩ := hok
    have hstore : (s.dirs name).store = none := by rw [hd]
    have hmade : (s.openStore name).dirs name = ⟨some s.nextFile, 0⟩ := by
      rw [(openStore_none hstore).1]
      show Function.update s.dirs name _ name = _
      rw [Function.update_self, hd]
    have htouched {stage' : Stage} (hh : ∀ slot, stage' ≠ .hosted slot) (he : stage'.exposed = true)
        (hok : ((s.openStore name).setStage t maker name stage').StageOk maker name stage') :
        Inv started ((s.openStore name).setStage t maker name stage') :=
      h.touched ht (h.touches_open rfl hstore) (fun _ he => by cases he) hh (fun _ => Or.inl rfl) hok
        fun _ hno => by rw [he] at hno; cases hno
    have hmove {stage' : Stage} (hh : ∀ slot, stage' ≠ .hosted slot)
        (hok : s.StageOk maker name stage') : Inv started (s.setStage t maker name stage') :=
      h.moves ht (fun _ he => by cases he) hh (fun _ => Or.inl rfl) hok fun _ _ => hd
    cases ending with
    | well =>
      have hfile : (s.openStore name).files s.nextFile = .empty := by
        rw [(openStore_none hstore).1]
        exact Function.update_self _ _ _
      rw [Server.makerStep]
      simp only [(openStore_none hstore).2, hfile]
      exact htouched (fun _ he => by cases he) rfl ⟨hmade, hfile, rfl⟩
    | failed reason left =>
      rw [Server.makerStep]
      cases maker with
      | create =>
        have hleft : left = false := by
          cases left with
          | true => exact absurd rfl (hsafe rfl reason)
          | false => rfl
        subst hleft
        exact hmove (fun _ he => by cases he) trivial
      | restore stream =>
        cases left with
        | true =>
          refine htouched (fun _ he => by cases he) rfl fun _ => ?_
          show ((s.openStore name).dirs name).beside = 0
          rw [hmade]
        | false =>
          refine hmove (fun _ he => by cases he) fun _ => ?_
          rw [hd]

theorem Inv.touches_fill (h : Inv started s) (he : stage.exposed = true)
    (hs : (s.dirs name).store = some file) (row : Row) :
    s.Touches t maker name stage stage' ((s.fill file row).setStage t maker name stage') where
  threads := rfl
  table := rfl
  slots := rfl
  nextSlot := rfl
  dirs _ _ := rfl
  files other file' hne hf := by
    refine Function.update_of_ne ?_ _ _
    rintro rfl
    exact hne (h.apart hf hs)
  fresh _ hf := Or.inl hf
  nextFile := le_refl _
  bounded _ hf := h.bounded hf
  own := Or.inl he

theorem fill_file (row : Row) (contents : StoreFile) (hf : s.files file = contents) :
    (s.fill file row).files file = ⟨putRow contents.made row, contents.later⟩ := by
  show Function.update s.files file _ file = _
  rw [Function.update_self, hf]

theorem Inv.touches_dir (h : Inv started s) (he : stage.exposed = true) {dir : Directory}
    (hs : dir.store = (s.dirs name).store ∨ dir.store = none) :
    s.Touches t maker name stage stage' ((s.setDir name dir).setStage t maker name stage') := by
  have hstore {file : FileId} (hf : (Function.update s.dirs name dir name).store = some file) :
      (s.dirs name).store = some file := by
    rw [Function.update_self] at hf
    rcases hs with hs | hs
    · rwa [← hs]
    · rw [hs] at hf
      cases hf
  exact
    { threads := rfl
      table := rfl
      slots := rfl
      nextSlot := rfl
      dirs := fun other hne => Function.update_of_ne hne _ _
      files := fun _ _ _ _ => rfl
      fresh := fun _ hf => Or.inl (hstore hf)
      nextFile := le_refl _
      bounded := fun _ hf => h.bounded (hstore hf)
      own := Or.inl he }

theorem Inv.opened (h : Inv started s) {existed : Bool} {next : Nat}
    (ht : s.threads t = .making maker name (.opened existed file next)) (ending : Ending)
    (hsafe : s.SafeStep t maker name ending (.opened existed file next)) :
    Inv started (s.makerStep t maker name ending (.opened existed file next)) := by
  have hok := h.stages ht
  cases existed with
  | true =>
    obtain ⟨⟨_, file', hstore', hfull⟩, hmaker, hstore⟩ := hok
    rw [hstore] at hstore'
    cases hstore'
    have hmove {stage' : Stage} (hh : ∀ slot, stage' ≠ .hosted slot) (he : stage'.exposed = false)
        (hok : s.StageOk maker name stage') : Inv started (s.setStage t maker name stage') :=
      h.moves ht (fun _ he => by cases he) hh (fun hex => by rw [he] at hex; cases hex) hok
        fun hex => by cases hex
    cases maker with
    | create => exact absurd rfl hmaker
    | restore stream =>
      cases ending with
      | well =>
        rw [Server.makerStep, if_pos hfull]
        exact hmove (fun _ he => by cases he) rfl fun he => by cases he
      | failed reason left =>
        rw [Server.makerStep]
        exact hmove (fun _ he => by cases he) rfl fun he => by cases he
  | false =>
    obtain ⟨hd, hempty, hnext⟩ := hok
    have hstore : (s.dirs name).store = some file := by rw [hd]
    cases maker with
    | create =>
      rw [hsafe rfl, Server.makerStep]
      refine h.touched ht (h.touches_fill rfl hstore _) (fun _ he => by cases he)
        (fun _ he => by cases he) (fun _ => Or.inl rfl) ⟨hd, ?_⟩ fun _ hno => by cases hno
      refine (fill_file (rootRow next) .empty hempty).trans ?_
      rw [hnext]
      rfl
    | restore stream =>
      have hmove {stage' : Stage} (hh : ∀ slot, stage' ≠ .hosted slot) (he : stage'.exposed = true)
          (hok : s.StageOk (.restore stream) name stage') :
          Inv started (s.setStage t (.restore stream) name stage') :=
        h.moves ht (fun _ he => by cases he) hh (fun _ => Or.inl rfl) hok
          fun _ hno => by rw [he] at hno; cases hno
      cases ending with
      | well =>
        have hnothing : ¬ (s.files file).holdsRegistry = true := by
          rw [hempty]
          decide
        rw [Server.makerStep, if_neg hnothing]
        exact hmove (fun _ he => by cases he) rfl ⟨rfl, hd, [], rfl, hempty⟩
      | failed reason left =>
        rw [Server.makerStep]
        refine hmove (fun _ he => by cases he) rfl fun _ => ?_
        rw [hd]

theorem Inv.writing (h : Inv started s) {existed : Bool} {rest : List Row}
    (ht : s.threads t = .making maker name (.writing existed file rest)) (ending : Ending) :
    Inv started (s.makerStep t maker name ending (.writing existed file rest)) := by
  obtain ⟨rfl, hd, done, rfl, hfile⟩ := h.stages ht
  have hstore : (s.dirs name).store = some file := by rw [hd]
  have hmove {stage' : Stage} (hh : ∀ slot, stage' ≠ .hosted slot) (he : stage'.exposed = true)
      (hok : s.StageOk (.restore (done ++ rest)) name stage') :
      Inv started (s.setStage t (.restore (done ++ rest)) name stage') :=
    h.moves ht (fun _ he => by cases he) hh (fun _ => Or.inl rfl) hok
      fun _ hno => by rw [he] at hno; cases hno
  have hundone (err : BorgError) : s.StageOk (.restore (done ++ rest)) name (.undoing false err) := by
    intro _
    rw [hd]
  cases rest with
  | nil =>
    cases ending with
    | well =>
      rw [Server.makerStep]
      refine hmove (fun _ he => by cases he) rfl ⟨rfl, hd, by decide, rfl, ?_⟩
      rw [hfile, Maker.rows, List.append_nil]
    | failed reason left =>
      rw [Server.makerStep]
      · exact hmove (fun _ he => by cases he) rfl (hundone (.storage reason))
      · intro _ _ hnil
        cases hnil
  | cons row rest =>
    cases ending with
    | well =>
      rw [Server.makerStep]
      refine h.touched ht (h.touches_fill rfl hstore row) (fun _ he => by cases he)
        (fun _ he => by cases he) (fun _ => Or.inl rfl) ⟨rfl, hd, done ++ [row], by simp, ?_⟩
        fun _ hno => by cases hno
      refine (fill_file row _ hfile).trans ?_
      rw [List.foldl_append]
      rfl
    | failed reason left =>
      cases left with
      | true =>
        rw [Server.makerStep]
        exact h.touched ht (h.touches_fill rfl hstore row) (fun _ he => by cases he)
          (fun _ he => by cases he) (fun _ => Or.inl rfl) (hundone (.storage reason)) fun _ hno => by cases hno
      | false =>
        rw [Server.makerStep]
        · exact hmove (fun _ he => by cases he) rfl (hundone (.storage reason))
        · intro _ _ _ hleft
          cases hleft

theorem Inv.saving (h : Inv started s) {existed : Bool} {saved : Nat}
    (ht : s.threads t = .making maker name (.saving existed file saved)) (ending : Ending)
    (hsafe : s.SafeStep t maker name ending (.saving existed file saved)) :
    Inv started (s.makerStep t maker name ending (.saving existed file saved)) := by
  obtain ⟨rfl, hd, hlt, hbeside, hfile⟩ := h.stages ht
  have htouched {stage' : Stage} (hh : ∀ slot, stage' ≠ .hosted slot) (he : stage'.exposed = true)
      (hok : ((s.setDir name { s.dirs name with
        beside := max (s.dirs name).beside (saved + 1) }).setStage t maker name stage').StageOk
          maker name stage') :
      Inv started ((s.setDir name { s.dirs name with
        beside := max (s.dirs name).beside (saved + 1) }).setStage t maker name stage') :=
    h.touched ht (h.touches_dir rfl (Or.inl rfl)) (fun _ he => by cases he) hh (fun _ => Or.inl rfl) hok
      fun _ hno => by rw [he] at hno; cases hno
  have hwritten : Function.update s.dirs name { s.dirs name with
      beside := max (s.dirs name).beside (saved + 1) } name = ⟨some file, saved + 1⟩ := by
    rw [Function.update_self, hd]
    show Directory.mk (some file) (max saved (saved + 1)) = _
    rw [Nat.max_eq_right (Nat.le_succ _)]
  cases ending with
  | well =>
    rw [Server.makerStep]
    by_cases hlast : saved + 1 = sidecarCount
    · rw [if_pos hlast]
      refine htouched (fun _ he => by cases he) rfl ⟨hwritten.trans ?_, hfile⟩
      rw [hlast, hbeside]
    · rw [if_neg hlast]
      refine htouched (fun _ he => by cases he) rfl ⟨rfl, hwritten, ?_, hbeside, hfile⟩
      omega
  | failed reason left =>
    obtain ⟨rfl, rfl⟩ := hsafe reason left rfl
    rw [Server.makerStep]
    refine h.moves ht (fun _ he => by cases he) (fun _ he => by cases he) (fun _ => Or.inl rfl)
      (fun _ => ?_) fun _ hno => by cases hno
    rw [hd]

theorem Inv.undoing (h : Inv started s) {existed : Bool} {err : BorgError}
    (ht : s.threads t = .making maker name (.undoing existed err)) (ending : Ending)
    (hsafe : s.SafeStep t maker name ending (.undoing existed err)) :
    Inv started (s.makerStep t maker name ending (.undoing existed err)) := by
  have hok := h.stages ht
  cases existed with
  | true =>
    have hrun : s.makerStep t maker name ending (.undoing true err) =
        s.setStage t maker name (.refused err) := by
      cases ending <;> rfl
    rw [hrun]
    exact h.moves ht (fun _ he => by cases he) (fun _ he => by cases he) (fun he => by cases he) trivial
      fun he => by cases he
  | false =>
    have hbeside : (s.dirs name).beside = 0 := hok rfl
    cases ending with
    | well =>
      have hrun : s.makerStep t maker name .well (.undoing false err) =
          (s.setDir name { s.dirs name with store := none }).setStage t maker name (.refused err) := rfl
      rw [hrun]
      refine h.touched ht (h.touches_dir rfl (Or.inr rfl)) (fun _ he => by cases he)
        (fun _ he => by cases he) (fun he => by cases he) trivial fun _ _ => ?_
      show Function.update s.dirs name _ name = _
      rw [Function.update_self, hbeside]
    | failed reason left =>
      have hrun : s.makerStep t maker name (.failed reason left) (.undoing false err) =
          s.setStage t maker name (.refused err) := rfl
      have hnone : (s.dirs name).store = none := by
        by_contra hsome
        have hcontra := hsafe rfl hsome
        cases hcontra
      rw [hrun]
      refine h.moves ht (fun _ he => by cases he) (fun _ he => by cases he) (fun he => by cases he) trivial
        fun _ _ => ?_
      show Directory.mk (s.dirs name).store (s.dirs name).beside = _
      rw [hnone, hbeside]

theorem Inv.finished (h : Inv started s) (ht : s.threads t = .making maker name (.finished file))
    (ending : Ending) (hsafe : s.SafeStep t maker name ending (.finished file)) :
    Inv started (s.makerStep t maker name ending (.finished file)) := by
  obtain rfl : ending = .well := hsafe
  have hok : s.StageOk maker name (.finished file) := h.stages ht
  rw [Server.makerStep]
  exact h.moves ht (fun _ he => by cases he) (fun _ he => by cases he) (fun _ => Or.inl rfl) hok
    fun _ hno => by cases hno

theorem slot_of_inside {step : Asking} (hs : step.inside = some slot) : step.slot = some slot := by
  cases step with
  | arrived named => cases hs
  | routed slot => cases hs
  | entered slot => exact hs
  | holding slot file => exact hs
  | answered => cases hs
  | refused err => cases hs

/-- The server once a claimed name has a slot of its own. -/
def hosting (s : Server) (t : ThreadId) (maker : Maker) (name : String) : Server :=
  { (s.setSlot s.nextSlot ⟨name, none, none⟩).setStage t maker name (.hosted s.nextSlot) with
    nextSlot := s.nextSlot + 1
    table := s.table.insert name s.nextSlot }

theorem hosting_lookup (name' : String) : (s.hosting t maker name).table.lookup name' =
    if name' = name then some s.nextSlot else s.table.lookup name' :=
  AssocMap.lookup_insert_eq s.table name name' s.nextSlot

theorem hosting_slots (slot : SlotId) : (s.hosting t maker name).slots slot =
    if slot = s.nextSlot then ⟨name, none, none⟩ else s.slots slot :=
  Function.update_apply s.slots s.nextSlot _ slot

theorem hosting_used (hlt : slot < s.nextSlot) : (s.hosting t maker name).slots slot = s.slots slot := by
  rw [hosting_slots, if_neg (Nat.ne_of_lt hlt)]

@[simp] theorem hosting_nextSlot : (s.hosting t maker name).nextSlot = s.nextSlot + 1 := rfl

@[simp] theorem hosting_dirs : (s.hosting t maker name).dirs = s.dirs := rfl

@[simp] theorem hosting_files : (s.hosting t maker name).files = s.files := rfl

theorem hosting_self : (s.hosting t maker name).threads t = .making maker name (.hosted s.nextSlot) :=
  Function.update_self t _ s.threads

theorem hosting_other (hne : t' ≠ t) : (s.hosting t maker name).threads t' = s.threads t' :=
  Function.update_of_ne hne _ s.threads

theorem hosting_exposed (hex : (s.hosting t maker name).Exposed t' name') : t' ≠ t ∧ s.Exposed t' name' := by
  obtain ⟨m, st, hth, hx⟩ := hex
  by_cases hne : t' = t
  · rw [hne, hosting_self] at hth
    cases hth
    cases hx
  · rw [hosting_other hne] at hth
    exact ⟨hne, m, st, hth, hx⟩

theorem hosting_asking {writes : List Row} {step : Asking}
    (ha : (s.hosting t maker name).threads t' = .asking writes step) : s.threads t' = .asking writes step := by
  by_cases hne : t' = t
  · rw [hne, hosting_self] at ha
    cases ha
  · rwa [hosting_other hne] at ha

theorem Inv.named_hosting (h : Inv started s) (hn : (s.hosting t maker name).table.lookup name' = some slot) :
    slot < s.nextSlot + 1 ∧ ((s.hosting t maker name).slots slot).name = name' := by
  rw [hosting_lookup] at hn
  split at hn
  · rename_i heq
    cases hn
    exact ⟨Nat.lt_succ_self _, by rw [hosting_slots, if_pos rfl, heq]⟩
  · obtain ⟨hlt, hname⟩ := h.named hn
    exact ⟨Nat.lt_succ_of_lt hlt, by rw [hosting_used hlt, hname]⟩

theorem Inv.tabled_hosting (h : Inv started s) (hl : s.table.lookup name = none) (hlt : slot < s.nextSlot + 1) :
    (s.hosting t maker name).table.lookup ((s.hosting t maker name).slots slot).name = some slot := by
  by_cases heq : slot = s.nextSlot
  · rw [hosting_slots, if_pos heq, hosting_lookup, if_pos rfl, heq]
  · have hused : slot < s.nextSlot := Nat.lt_of_le_of_ne (Nat.le_of_lt_succ hlt) heq
    have hn := h.tabled hused
    rw [hosting_used hused, hosting_lookup, if_neg, hn]
    intro hname
    rw [hname, hl] at hn
    cases hn

theorem Inv.unused_hosting (h : Inv started s) (hge : s.nextSlot + 1 ≤ slot) :
    ((s.hosting t maker name).slots slot).gate = none ∧ ((s.hosting t maker name).slots slot).held = none := by
  rw [hosting_slots, if_neg (Nat.ne_of_gt hge)]
  exact h.unused (Nat.le_of_succ_le hge)

theorem Inv.held_hosting (h : Inv started s) (hh : ((s.hosting t maker name).slots slot).held = some file) :
    (s.dirs ((s.hosting t maker name).slots slot).name).store = some file := by
  rw [hosting_slots] at hh ⊢
  split at hh
  · cases hh
  · rename_i hne
    rw [if_neg hne]
    exact h.held hh

theorem Inv.clear_hosting (h : Inv started s) (ht : s.threads t = .making maker name stage)
    (hn : (s.hosting t maker name).table.lookup name' = none)
    (hnone : ∀ t', ¬ (s.hosting t maker name).Exposed t' name') : s.dirs name' = ⟨none, 0⟩ := by
  rw [hosting_lookup] at hn
  split at hn
  · cases hn
  · rename_i hne
    refine h.clear hn fun other ho => ?_
    obtain ⟨m, st, hth, hx⟩ := ho
    by_cases heq : other = t
    · rw [heq, ht] at hth
      cases hth
      exact hne rfl
    · exact hnone other ⟨m, st, by rwa [hosting_other heq], hx⟩

/-- What the other requests rely on stays: none for the name is exposed, or has hosted it. -/
theorem Inv.stages_hosting (h : Inv started s) (he : s.Exposed t name) {other : Stage} (hne : t' ≠ t)
    (ha : s.threads t' = .making maker' name' other) :
    (s.hosting t maker name).StageOk maker' name' other := by
  have hok := h.stages ha
  by_cases heq : name' = name
  · subst heq
    refine hok.idle (h.unhosted he) ?_
    by_contra hx
    exact hne (h.alone ⟨maker', other, ha, by simpa using hx⟩ he)
  · exact hok.frame (by rw [hosting_lookup, if_neg heq]) rfl fun f _ => ⟨rfl, fun hr => hr, fun _ => rfl⟩

/-- Nothing else has hosted the name. -/
theorem Inv.hosted_hosting (h : Inv started s) (hl : s.table.lookup name = none) (hne : t' ≠ t)
    (ha : (s.hosting t maker name).threads t' = .making maker' name' (.hosted slot)) :
    s.threads t' = .making maker' name' (.hosted slot) ∧ name' ≠ name := by
  rw [hosting_other hne] at ha
  refine ⟨ha, ?_⟩
  rintro rfl
  have hlook := (h.stages ha).1
  rw [hl] at hlook
  cases hlook

theorem Inv.once_hosting (h : Inv started s) (hl : s.table.lookup name = none) {a b : ThreadId} {maker'' : Maker}
    (ha : (s.hosting t maker name).threads a = .making maker' name' (.hosted slot))
    (hb : (s.hosting t maker name).threads b = .making maker'' name' (.hosted slot')) : a = b := by
  by_cases hat : a = t
  · by_cases hbt : b = t
    · rw [hat, hbt]
    · rw [hat, hosting_self] at ha
      cases ha
      exact absurd rfl (h.hosted_hosting hl hbt hb).2
  · by_cases hbt : b = t
    · rw [hbt, hosting_self] at hb
      cases hb
      exact absurd rfl (h.hosted_hosting hl hat ha).2
    · exact h.once (h.hosted_hosting hl hat ha).1 (h.hosted_hosting hl hbt hb).1

theorem Inv.known_hosting (h : Inv started s) (ht : s.threads t = .making maker name (.claimed file))
    (hn : (s.hosting t maker name).table.lookup name' ≠ none) : started name' ∨
      ∃ t' maker' slot, (s.hosting t maker name).threads t' = .making maker' name' (.hosted slot) := by
  by_cases heq : name' = name
  · subst heq
    exact Or.inr ⟨t, maker, s.nextSlot, hosting_self⟩
  · rw [hosting_lookup, if_neg heq] at hn
    rcases h.known hn with hst | ⟨a, m, i, ha⟩
    · exact Or.inl hst
    · refine Or.inr ⟨a, m, i, ?_⟩
      rw [hosting_other, ha]
      rintro rfl
      rw [ht] at ha
      cases ha

theorem Inv.claimed (h : Inv started s) (ht : s.threads t = .making maker name (.claimed file))
    (ending : Ending) : Inv started (s.makerStep t maker name ending (.claimed file)) := by
  obtain ⟨hd, hfile⟩ := h.stages ht
  have he : s.Exposed t name := ⟨maker, _, ht, rfl⟩
  have hl := h.unhosted he
  show Inv started (s.hosting t maker name)
  exact
    { named := h.named_hosting
      tabled := h.tabled_hosting hl
      unused := h.unused_hosting
      held := h.held_hosting
      stored := fun {name'} hn => by
        rw [hosting_dirs]
        by_cases heq : name' = name
        · rw [heq, hd]
          intro hnone
          cases hnone
        · rw [hosting_lookup, if_neg heq] at hn
          exact h.stored hn
      apart := h.apart
      bounded := h.bounded
      alone := fun ha hb => h.alone (hosting_exposed ha).2 (hosting_exposed hb).2
      unhosted := fun {t' name'} ha => by
        obtain ⟨hne, hexposed⟩ := hosting_exposed ha
        rw [hosting_lookup, if_neg]
        · exact h.unhosted hexposed
        · rintro rfl
          exact hne (h.alone hexposed he)
      clear := h.clear_hosting ht
      stages := fun {t' maker' name' other} ha => by
        by_cases hne : t' = t
        · rw [hne, hosting_self] at ha
          cases ha
          exact ⟨by rw [hosting_lookup, if_pos rfl], file, hd, by rw [hosting_files, hfile]⟩
        · rw [hosting_other hne] at ha
          exact h.stages_hosting he hne ha
      once := h.once_hosting hl
      unstarted := fun {t' maker' name' slot} ha => by
        by_cases hne : t' = t
        · rw [hne, hosting_self] at ha
          cases ha
          exact fun hst => h.old hst hl
        · rw [hosting_other hne] at ha
          exact h.unstarted ha
      known := h.known_hosting ht
      old := fun {name'} hn => by
        rw [hosting_lookup]
        split
        · exact Option.some_ne_none _
        · exact h.old hn
      routed := fun ha hi => Nat.lt_succ_of_lt (h.routed (hosting_asking ha) hi)
      gated := fun ha hi => by
        rw [hosting_used (h.routed (hosting_asking ha) (slot_of_inside hi))]
        exact h.gated (hosting_asking ha) hi
      holding := fun ha => by
        rw [hosting_used (h.routed (hosting_asking ha) rfl)]
        exact h.holding (hosting_asking ha) }

theorem Inv.makerStep (h : Inv started s) (ht : s.threads t = .making maker name stage)
    (ending : Ending) (hsafe : s.SafeStep t maker name ending stage) :
    Inv started (s.makerStep t maker name ending stage) := by
  cases stage with
  | arrived => exact h.arrived ht ending
  | prepared => exact h.prepared ht ending hsafe
  | looked existed => exact h.looked ht ending hsafe
  | opened existed file next => exact h.opened ht ending hsafe
  | writing existed file rest => exact h.writing ht ending
  | saving existed file saved => exact h.saving ht ending hsafe
  | undoing existed err => exact h.undoing ht ending hsafe
  | finished file => exact h.finished ht ending hsafe
  | claimed file => exact h.claimed ht ending
  | hosted slot => exact h
  | refused err => exact h

/-! ### Ordinary requests -/

/-- What a step of an ordinary request, or the arrival of any, may touch. -/
structure Serves (s : Server) (t : ThreadId) (thread : Thread) (s' : Server) : Prop where
  threads : s'.threads = Function.update s.threads t thread
  table : s'.table = s.table
  nextSlot : s'.nextSlot = s.nextSlot
  dirs : s'.dirs = s.dirs
  nextFile : s'.nextFile = s.nextFile
  files : ∀ name file, (s.dirs name).store = some file → (s'.files file).made = (s.files file).made ∧
    ((s.files file).holdsRegistry = true → (s'.files file).holdsRegistry = true) ∧
    (s.table.lookup name = none → s'.files file = s.files file)
  names : ∀ slot, (s'.slots slot).name = (s.slots slot).name
  unused : ∀ slot, s.nextSlot ≤ slot → s'.slots slot = s.slots slot
  kept : ∀ slot file, (s.slots slot).held = some file → (s'.slots slot).held = some file
  held : ∀ slot file, (s'.slots slot).held = some file → (s.slots slot).held = some file ∨
    (s.dirs (s.slots slot).name).store = some file
  gates : ∀ slot other, other ≠ t → (s.slots slot).gate = some other → (s'.slots slot).gate = some other

/-- What a thread must have that comes of it. -/
def Fits (s : Server) (t : ThreadId) : Thread → Prop
  | .idle => False
  | .making _ _ stage => stage = .arrived
  | .asking _ step => (∀ slot, step.slot = some slot → slot < s.nextSlot) ∧
      (∀ slot, step.inside = some slot → (s.slots slot).gate = some t) ∧
      ∀ slot file, step = .holding slot file → (s.slots slot).held = some file

section Serves

variable {thread : Thread} {writes : List Row} {step : Asking}

namespace Serves

theorem other (hs : s.Serves t thread s') (hne : t' ≠ t) : s'.threads t' = s.threads t' := by
  rw [threads_update hs.threads, if_neg hne]

theorem self (hs : s.Serves t thread s') : s'.threads t = thread := by
  rw [threads_update hs.threads, if_pos rfl]

/-- A request that is making a registry, and has got anywhere, is as it was. -/
theorem making (hs : s.Serves t thread s') (hfits : s'.Fits t thread)
    (ha : s'.threads t' = .making maker name stage) :
    stage = .arrived ∨ s.threads t' = .making maker name stage := by
  by_cases hne : t' = t
  · subst hne
    rw [hs.self] at ha
    rw [ha] at hfits
    exact Or.inl hfits
  · rw [hs.other hne] at ha
    exact Or.inr ha

theorem goes_on (hs : s.Serves t thread s') (ht : ∀ maker name stage, s.threads t ≠ .making maker name stage)
    (ha : s.threads t' = .making maker name stage) : s'.threads t' = .making maker name stage := by
  rw [hs.other, ha]
  rintro rfl
  exact ht maker name stage ha

theorem exposed_iff (hs : s.Serves t thread s') (ht : ∀ maker name stage, s.threads t ≠ .making maker name stage)
    (hfits : s'.Fits t thread) : s'.Exposed t' name ↔ s.Exposed t' name := by
  constructor
  · rintro ⟨maker, stage, ha, he⟩
    rcases hs.making hfits ha with rfl | ha
    · cases he
    · exact ⟨maker, stage, ha, he⟩
  · rintro ⟨maker, stage, ha, he⟩
    exact ⟨maker, stage, hs.goes_on ht ha, he⟩

theorem hosted (hs : s.Serves t thread s') (hfits : s'.Fits t thread)
    (ha : s'.threads t' = .making maker name (.hosted slot)) : s.threads t' = .making maker name (.hosted slot) := by
  rcases hs.making hfits ha with hno | ha
  · cases hno
  · exact ha

end Serves

theorem Inv.stages_served (h : Inv started s) (hs : s.Serves t thread s') (hfits : s'.Fits t thread)
    (ha : s'.threads t' = .making maker name stage) : s'.StageOk maker name stage := by
  rcases hs.making hfits ha with rfl | ha
  · trivial
  · refine (h.stages ha).frame (by rw [hs.table]) (by rw [hs.dirs]) fun file hf => ?_
    obtain ⟨hmade, hmono, hsame⟩ := hs.files name file hf
    exact ⟨hmade, hmono, fun hx => hsame (h.unhosted ⟨maker, stage, ha, hx⟩)⟩

theorem Inv.routed_served (h : Inv started s) (hs : s.Serves t thread s') (hfits : s'.Fits t thread)
    (ha : s'.threads t' = .asking writes step) (hslot : step.slot = some slot) : slot < s'.nextSlot := by
  by_cases hne : t' = t
  · subst hne
    rw [hs.self] at ha
    rw [ha] at hfits
    exact hfits.1 slot hslot
  · rw [hs.other hne] at ha
    rw [hs.nextSlot]
    exact h.routed ha hslot

theorem Inv.gated_served (h : Inv started s) (hs : s.Serves t thread s') (hfits : s'.Fits t thread)
    (ha : s'.threads t' = .asking writes step) (hinside : step.inside = some slot) :
    (s'.slots slot).gate = some t' := by
  by_cases hne : t' = t
  · subst hne
    rw [hs.self] at ha
    rw [ha] at hfits
    exact hfits.2.1 slot hinside
  · rw [hs.other hne] at ha
    exact hs.gates slot t' hne (h.gated ha hinside)

theorem Inv.holding_served (h : Inv started s) (hs : s.Serves t thread s') (hfits : s'.Fits t thread)
    (ha : s'.threads t' = .asking writes (.holding slot file)) : (s'.slots slot).held = some file := by
  by_cases hne : t' = t
  · subst hne
    rw [hs.self] at ha
    rw [ha] at hfits
    exact hfits.2.2 slot file rfl
  · rw [hs.other hne] at ha
    exact hs.kept slot file (h.holding ha)

end Serves

theorem Inv.served (h : Inv started s) (ht : ∀ maker name stage, s.threads t ≠ .making maker name stage)
    {thread : Thread} (hs : s.Serves t thread s') (hfits : s'.Fits t thread) : Inv started s' where
  named hn := by
    rw [hs.table] at hn
    rw [hs.nextSlot, hs.names]
    exact h.named hn
  tabled hlt := by
    rw [hs.nextSlot] at hlt
    rw [hs.table, hs.names]
    exact h.tabled hlt
  unused {slot} hge := by
    rw [hs.nextSlot] at hge
    rw [hs.unused slot hge]
    exact h.unused hge
  held {slot file} hh := by
    rw [hs.dirs, hs.names]
    exact (hs.held slot file hh).elim h.held fun hd => hd
  stored hn := by
    rw [hs.table] at hn
    rw [hs.dirs]
    exact h.stored hn
  apart ha hb := by
    rw [hs.dirs] at ha hb
    exact h.apart ha hb
  bounded hf := by
    rw [hs.dirs] at hf
    rw [hs.nextFile]
    exact h.bounded hf
  alone ha hb := h.alone ((hs.exposed_iff ht hfits).1 ha) ((hs.exposed_iff ht hfits).1 hb)
  unhosted ha := by
    rw [hs.table]
    exact h.unhosted ((hs.exposed_iff ht hfits).1 ha)
  clear hn hnone := by
    rw [hs.table] at hn
    rw [hs.dirs]
    exact h.clear hn fun other ho => hnone other ((hs.exposed_iff ht hfits).2 ho)
  stages ha := h.stages_served hs hfits ha
  once ha hb := h.once (hs.hosted hfits ha) (hs.hosted hfits hb)
  unstarted ha := h.unstarted (hs.hosted hfits ha)
  known hn := by
    rw [hs.table] at hn
    rcases h.known hn with hst | ⟨a, m, i, ha⟩
    · exact Or.inl hst
    · exact Or.inr ⟨a, m, i, hs.goes_on ht ha⟩
  old hn := by
    rw [hs.table]
    exact h.old hn
  routed ha hi := h.routed_served hs hfits ha hi
  gated ha hi := h.gated_served hs hfits ha hi
  holding ha := h.holding_served hs hfits ha

theorem serves_thread (thread : Thread) : s.Serves t thread (s.setThread t thread) where
  threads := rfl
  table := rfl
  nextSlot := rfl
  dirs := rfl
  nextFile := rfl
  files _ _ _ := ⟨rfl, fun hr => hr, fun _ => rfl⟩
  names _ := rfl
  unused _ _ := rfl
  kept _ _ hh := hh
  held _ _ hh := Or.inl hh
  gates _ _ _ hg := hg

theorem serves_slot {thread : Thread} {contents : Slot} {files : FileId → StoreFile}
    (hlt : slot < s.nextSlot)
    (hfiles : ∀ name file, (s.dirs name).store = some file →
      (files file).made = (s.files file).made ∧
      ((s.files file).holdsRegistry = true → (files file).holdsRegistry = true) ∧
      (s.table.lookup name = none → files file = s.files file))
    (hname : contents.name = (s.slots slot).name)
    (hkept : ∀ file, (s.slots slot).held = some file → contents.held = some file)
    (hheld : ∀ file, contents.held = some file → (s.slots slot).held = some file ∨
      (s.dirs (s.slots slot).name).store = some file)
    (hgate : ∀ other, other ≠ t → (s.slots slot).gate = some other → contents.gate = some other) :
    s.Serves t thread (({ s with files := files }.setSlot slot contents).setThread t thread) := by
  have hslots (i : SlotId) :
      (({ s with files := files }.setSlot slot contents).setThread t thread).slots i =
        if i = slot then contents else s.slots i := Function.update_apply s.slots slot contents i
  refine
    { threads := rfl
      table := rfl
      nextSlot := rfl
      dirs := rfl
      nextFile := rfl
      files := hfiles
      names := fun i => ?_
      unused := fun i hge => ?_
      kept := fun i file hh => ?_
      held := fun i file hh => ?_
      gates := fun i other hne hg => ?_ }
  · rw [hslots]
    split
    · rename_i hi
      rw [hname, hi]
    · rfl
  · rw [hslots, if_neg]
    rintro rfl
    exact absurd hlt (Nat.not_lt.2 hge)
  · rw [hslots]
    split
    · rename_i hi
      rw [hi] at hh
      exact hkept file hh
    · exact hh
  · rw [hslots] at hh
    split at hh
    · rename_i hi
      rw [hi]
      exact hheld file hh
    · exact Or.inl hh
  · rw [hslots]
    split
    · rename_i hi
      rw [hi] at hg
      exact hgate other hne hg
    · exact hg

theorem files_kept (name : String) (file : FileId) (_ : (s.dirs name).store = some file) :
    (s.files file).made = (s.files file).made ∧
      ((s.files file).holdsRegistry = true → (s.files file).holdsRegistry = true) ∧
      (s.table.lookup name = none → s.files file = s.files file) := ⟨rfl, fun hr => hr, fun _ => rfl⟩

theorem Inv.left (h : Inv started s) {writes : List Row} {step step' : Asking}
    {files : FileId → StoreFile} (ht : s.threads t = .asking writes step)
    (hin : step.inside = some slot)
    (hfiles : ∀ name file, (s.dirs name).store = some file →
      (files file).made = (s.files file).made ∧
      ((s.files file).holdsRegistry = true → (files file).holdsRegistry = true) ∧
      (s.table.lookup name = none → files file = s.files file))
    (hdone : step'.slot = none) :
    Inv started (({ s with files := files }.leave slot).setThread t (.asking writes step')) := by
  have hgate := h.gated ht hin
  refine h.served (by rw [ht]; simp) (serves_slot (h.routed ht (slot_of_inside hin)) hfiles rfl
    (fun _ hh => hh) (fun _ hh => Or.inl hh) fun other hne hg => ?_) ⟨?_, ?_, ?_⟩
  · rw [hgate] at hg
    cases hg
    exact absurd rfl hne
  · intro i hi
    rw [hdone] at hi
    cases hi
  · intro i hi
    rw [slot_of_inside hi] at hdone
    cases hdone
  · rintro i file rfl
    cases hdone

/-- The store of a hosted registry is there: opening it makes none. -/
theorem Inv.opens (h : Inv started s) (hlt : slot < s.nextSlot) :
    ∃ file, (s.dirs (s.slots slot).name).store = some file ∧ s.storeOf (s.slots slot).name = file ∧
      s.openStore (s.slots slot).name = s := by
  have hl : s.table.lookup (s.slots slot).name ≠ none := by
    rw [h.tabled hlt]
    simp
  obtain ⟨file, hf⟩ := Option.ne_none_iff_exists'.1 (h.stored hl)
  refine ⟨file, hf, ?_, ?_⟩
  · rw [storeOf, hf, Option.getD_some]
  · rw [openStore, hf]

theorem Inv.entered (h : Inv started s) {writes : List Row}
    (ht : s.threads t = .asking writes (.entered slot)) (ending : Ending) :
    Inv started (s.askerStep t writes ending (.entered slot)) := by
  have hlt := h.routed ht rfl
  have hgate := h.gated ht rfl
  have hmake : ∀ maker name stage, s.threads t ≠ .making maker name stage := by
    rw [ht]
    simp
  have hfits {s' : Server} {file : FileId} (hnext : s'.nextSlot = s.nextSlot)
      (hg : (s'.slots slot).gate = some t) (hheld : (s'.slots slot).held = some file) :
      s'.Fits t (.asking writes (.holding slot file)) := by
    refine ⟨?_, ?_, ?_⟩
    · rintro _ ⟨⟩
      rw [hnext]
      exact hlt
    · rintro _ ⟨⟩
      exact hg
    · rintro _ _ ⟨⟩
      exact hheld
  rw [askerStep]
  cases hheld : (s.slots slot).held with
  | some file => exact h.served hmake (serves_thread _) (hfits rfl hgate hheld)
  | none =>
    obtain ⟨file, hf, hof, hopen⟩ := h.opens hlt
    cases ending with
    | failed reason left =>
      have hsame : s.openBadly (s.slots slot).name left = s := by
        rw [openBadly, hopen, ite_self]
      show Inv started (((s.openBadly (s.slots slot).name left).leave slot).setThread t _)
      rw [hsame]
      exact h.left ht rfl files_kept rfl
    | well =>
      simp only [hof, hopen]
      split
      · exact h.left ht rfl files_kept rfl
      · have hslot : (Function.update s.slots slot { s.slots slot with held := some file } slot) =
            { s.slots slot with held := some file } := Function.update_self ..
        refine h.served hmake (serves_slot hlt files_kept rfl ?_ ?_ fun _ _ hg => hg) (hfits rfl ?_ ?_)
        · intro f hh
          rw [hheld] at hh
          cases hh
        · rintro f ⟨⟩
          exact Or.inr hf
        · exact (congrArg Slot.gate hslot).trans hgate
        · exact congrArg Slot.held hslot

theorem holdsRegistry_append {file : StoreFile} (writes : List Row)
    (h : file.holdsRegistry = true) :
    StoreFile.holdsRegistry { file with later := file.later ++ writes } = true := by
  rw [StoreFile.holdsRegistry, List.any_eq_true] at h ⊢
  obtain ⟨row, hr, hk⟩ := h
  refine ⟨row, ?_, hk⟩
  rw [StoreFile.rows, ← List.append_assoc]
  exact List.mem_append_left _ hr

theorem Inv.holds (h : Inv started s) {writes : List Row}
    (ht : s.threads t = .asking writes (.holding slot file)) (ending : Ending) :
    Inv started (s.askerStep t writes ending (.holding slot file)) := by
  have hlt := h.routed ht rfl
  cases ending with
  | failed reason left => exact h.left ht rfl files_kept rfl
  | well =>
    refine h.left ht rfl (fun name f hf => ?_) rfl
    have hstore := h.held (h.holding ht)
    by_cases heq : f = file
    · subst heq
      rw [Function.update_self]
      refine ⟨rfl, holdsRegistry_append writes, ?_⟩
      intro hl
      rw [h.apart hf hstore, h.tabled hlt] at hl
      cases hl
    · rw [Function.update_of_ne heq]
      exact ⟨rfl, fun hr => hr, fun _ => rfl⟩

theorem lookup_of_route {named : Option String} (h : s.route named = .ok slot) :
    ∃ name, s.table.lookup name = some slot := by
  cases named with
  | some name =>
    rw [route] at h
    cases hl : s.table.lookup name with
    | none =>
      rw [hl] at h
      cases h
    | some found =>
      rw [hl] at h
      cases h
      exact ⟨name, hl⟩
  | none =>
    rw [route] at h
    split at h
    · rename_i only hv
      cases h
      exact AssocMap.mem_values.1 (by rw [hv]; exact List.mem_singleton_self _)
    · cases h
    · cases h

theorem Inv.askerStep (h : Inv started s) {writes : List Row} {step : Asking}
    (ht : s.threads t = .asking writes step) (ending : Ending) :
    Inv started (s.askerStep t writes ending step) := by
  have hmake : ∀ maker name stage, s.threads t ≠ .making maker name stage := by
    rw [ht]
    simp
  cases step with
  | arrived named =>
    rw [Server.askerStep]
    cases hr : s.route named with
    | error err => exact h.served hmake (serves_thread _) ⟨nofun, nofun, nofun⟩
    | ok slot =>
      refine h.served hmake (serves_thread _) ⟨?_, nofun, nofun⟩
      rintro _ ⟨⟩
      obtain ⟨name, hl⟩ := lookup_of_route hr
      exact (h.named hl).1
  | routed slot =>
    have hlt := h.routed ht rfl
    rw [Server.askerStep]
    split
    · rename_i hfree
      have hslot : (Function.update s.slots slot { s.slots slot with gate := some t } slot) =
          { s.slots slot with gate := some t } := Function.update_self ..
      refine h.served hmake (serves_slot hlt files_kept rfl (fun _ hh => hh) (fun _ hh => Or.inl hh)
        fun other hne hg => ?_) ⟨?_, ?_, nofun⟩
      · rw [hfree] at hg
        cases hg
      · rintro _ ⟨⟩
        exact hlt
      · rintro _ ⟨⟩
        exact congrArg Slot.gate hslot
    · exact h
  | entered slot => exact h.entered ht ending
  | holding slot file => exact h.holds ht ending
  | answered => exact h
  | refused err => exact h

theorem Inv.next (h : Inv started s) {action : Action} (hsafe : s.Safe action) :
    Inv started (s.next action) := by
  cases action with
  | make t maker name =>
    rw [Server.next]
    split
    · rename_i ht
      exact h.served (by rw [ht]; simp) (serves_thread _) rfl
    · exact h
  | ask t named writes =>
    rw [Server.next]
    split
    · rename_i ht
      exact h.served (by rw [ht]; simp) (serves_thread _) ⟨nofun, nofun, nofun⟩
    · exact h
  | advance t ending =>
    rw [Server.next]
    rw [Safe] at hsafe
    cases ht : s.threads t with
    | idle => exact h
    | making maker name stage =>
      rw [ht] at hsafe
      exact h.makerStep ht ending hsafe
    | asking writes step => exact h.askerStep ht ending

/-! ### Whole runs -/

/-- A run in which every step is safe. -/
def SafeRun (s : Server) : List Action → Prop
  | [] => True
  | action :: actions => s.Safe action ∧ SafeRun (s.next action) actions

theorem Inv.run (h : Inv started s) {actions : List Action} (hsafe : s.SafeRun actions) :
    Inv started (actions.foldl Server.next s) := by
  induction actions generalizing s with
  | nil => exact h
  | cons action actions ih =>
    obtain ⟨haction, hrest⟩ := hsafe
    exact ih (h.next haction) hrest

/-- **One gate for each registry**: in a run of safe steps, whatever their order. -/
theorem one_gate (h : s.Started) {actions : List Action} (hsafe : s.SafeRun actions) :
    (actions.foldl Server.next s).OneGate fun name => s.table.lookup name ≠ none :=
  (h.inv.run hsafe).oneGate

/-- A server over a directory with nothing in it. -/
def bare : Server where
  dataDir := "data"
  table := ∅
  slots _ := ⟨"", none, none⟩
  nextSlot := 0
  dirs _ := ⟨none, 0⟩
  files _ := .empty
  nextFile := 0
  threads _ := .idle

theorem bare_started : bare.Started where
  threads _ := rfl
  named hl := by cases hl
  tabled hlt := absurd hlt (Nat.not_lt_zero _)
  closed _ := ⟨rfl, rfl⟩
  stored hl := by cases hl
  clear _ := rfl
  apart hs := by cases hs
  bounded hs := by cases hs

/-- Two connections make a registry each, step by step between one another, and two more use the first one, of which
one comes while it is being made and one while the other is inside its gate. -/
def overlapping : List Action :=
  [.make 0 .create "a", .make 1 .create "b", .advance 0 .well, .advance 1 .well, .advance 0 .well, .advance 1 .well,
    .ask 2 (some "a") [⟨.layer, 1, ""⟩], .advance 1 .well, .advance 0 .well, .advance 0 .well, .advance 0 .well,
    .advance 1 .well, .advance 0 .well, .ask 3 (some "a") [], .advance 2 .well, .advance 3 .well, .advance 2 .well,
    .advance 3 .well, .advance 1 .well, .advance 2 .well, .advance 1 .well, .advance 2 .well, .advance 3 .well,
    .advance 3 .well]

theorem safe_advance {ending : Ending} (ht : s.threads t = .making maker name stage)
    (h : s.SafeStep t maker name ending stage) : s.Safe (.advance t ending) := by
  rw [Safe, ht]
  exact h

theorem safe_asking {ending : Ending} {writes : List Row} {step : Asking}
    (ht : s.threads t = .asking writes step) : s.Safe (.advance t ending) := by
  rw [Safe, ht]
  trivial

/-- Nobody is exposed for a name where one request is on its way for another and the rest are idle. -/
theorem not_exposed {name name' : String} {stage : Stage} {t t' other : ThreadId} (hne : name' ≠ name)
    (ht : s.threads t' = .making maker name' stage)
    (hidle : ∀ other, other ≠ t → other ≠ t' → s.threads other = .idle) (hother : other ≠ t) :
    ¬ s.Exposed other name := by
  rintro ⟨maker', stage', hthread, -⟩
  by_cases heq : other = t'
  · rw [heq, ht, Thread.making.injEq] at hthread
    exact hne hthread.2.1
  · rw [hidle other hother heq] at hthread
    cases hthread

theorem one_gate_overlapping :
    (overlapping.foldl next bare).OneGate fun name => bare.table.lookup name ≠ none := by
  refine one_gate bare_started ⟨trivial, trivial, ?_, ?_, ?_, ?_, trivial, ?_, ?_, ?_, ?_, ?_, ?_, trivial, ?_, ?_, ?_,
    ?_, ?_, ?_, ?_, ?_, ?_, ?_, trivial⟩
  · exact safe_advance (rfl : threads _ 0 = .making .create "a" .arrived) trivial
  · exact safe_advance (rfl : threads _ 1 = .making .create "b" .arrived) trivial
  · refine safe_advance (rfl : threads _ 0 = .making .create "a" .prepared) fun _ other hother => ?_
    refine not_exposed (by decide) (rfl : threads _ 1 = .making .create "b" .prepared) (fun other h h' => ?_) hother
    match other with
    | 0 | 1 => contradiction
    | _ + 2 => rfl
  · refine safe_advance (rfl : threads _ 1 = .making .create "b" .prepared) fun _ other hother => ?_
    refine not_exposed (by decide) (rfl : threads _ 0 = .making .create "a" (.looked false))
      (fun other h h' => ?_) hother
    match other with
    | 0 | 1 => contradiction
    | _ + 2 => rfl
  · exact safe_advance (rfl : threads _ 1 = .making .create "b" (.looked false)) fun _ _ he => by cases he
  · exact safe_advance (rfl : threads _ 0 = .making .create "a" (.looked false)) fun _ _ he => by cases he
  · exact safe_advance (rfl : threads _ 0 = .making .create "a" (.opened false 1 1)) fun _ => rfl
  · exact safe_advance (rfl : threads _ 0 = .making .create "a" (.finished 1)) rfl
  · exact safe_advance (rfl : threads _ 1 = .making .create "b" (.opened false 0 1)) fun _ => rfl
  · exact safe_advance (rfl : threads _ 0 = .making .create "a" (.claimed 1)) trivial
  · exact safe_asking (rfl : threads _ 2 = .asking [⟨.layer, 1, ""⟩] (.arrived (some "a")))
  · exact safe_asking (rfl : threads _ 3 = .asking [] (.arrived (some "a")))
  · exact safe_asking (rfl : threads _ 2 = .asking [⟨.layer, 1, ""⟩] (.routed 0))
  · exact safe_asking (rfl : threads _ 3 = .asking [] (.routed 0))
  · exact safe_advance (rfl : threads _ 1 = .making .create "b" (.finished 0)) rfl
  · exact safe_asking (rfl : threads _ 2 = .asking [⟨.layer, 1, ""⟩] (.entered 0))
  · exact safe_advance (rfl : threads _ 1 = .making .create "b" (.claimed 0)) trivial
  · exact safe_asking (rfl : threads _ 2 = .asking [⟨.layer, 1, ""⟩] (.holding 0 1))
  · exact safe_asking (rfl : threads _ 3 = .asking [] (.routed 0))
  · exact safe_asking (rfl : threads _ 3 = .asking [] (.entered 0))

/-- Two requests for one name: both look before either opens a store, and each is hosted in its turn. -/
def atOnce : List Action :=
  [.make 0 .create "a", .make 1 .create "a", .advance 0 .well, .advance 1 .well, .advance 0 .well,
    .advance 1 .well, .advance 0 .well, .advance 0 .well, .advance 0 .well, .advance 0 .well,
    .ask 2 (some "a") [], .advance 2 .well, .advance 2 .well, .advance 2 .well,
    .advance 1 .well, .advance 1 .well, .advance 1 .well, .advance 1 .well,
    .ask 3 (some "a") [], .advance 3 .well, .advance 3 .well, .advance 3 .well]

/-- Both are acknowledged, with one store between two gates. -/
theorem one_gate_at_once : bare.Started ∧
    (atOnce.foldl Server.next bare).threads 0 = .making .create "a" (.hosted 0) ∧
    (atOnce.foldl Server.next bare).threads 1 = .making .create "a" (.hosted 1) ∧
    ¬ (atOnce.foldl Server.next bare).OneGate fun name => bare.table.lookup name ≠ none := by
  refine ⟨bare_started, by decide +kernel, by decide +kernel, fun h => ?_⟩
  have hslots : ((atOnce.foldl Server.next bare).slots 0).held = some 0 ∧
      ((atOnce.foldl Server.next bare).slots 1).held = some 0 := by decide +kernel
  have heq := h.held 0 1 0 hslots.1 hslots.2
  cases heq

end Server

end BorgCore
