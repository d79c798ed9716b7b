import BorgCore.Engine.Derive
import BorgCore.Engine.Restart

/-!
# What a status query answers

How far a producer is behind is the gap between its watermark and where the branch stands in the source
stream.  A status query takes the branch to stand where its head stands; a round goes through every layer
above the watermark.  The two come apart where the head is a derived layer that landed above a newer source
layer, or where a source layer commits under a head that stands lower.
-/

namespace BorgCore

/-- A half-open range of source layers a producer has yet to incorporate. -/
structure WorkGap where
  producer : ProducerId
  /-- Exclusive: the producer's watermark. -/
  since : LayerId
  /-- Inclusive: where the branch head stands in the source stream. -/
  upTo : LayerId
deriving DecidableEq

def WorkGap.isEmpty (gap : WorkGap) : Bool := gap.upTo ≤ gap.since

namespace DerivationEngine

/-- The gap a producer must close; `none` where there is nothing outstanding. -/
def pending (engine : DerivationEngine) (branch : BranchId) (producer : ProducerId) : Option WorkGap :=
  match engine.log.head branch with
  | none => none
  | some head =>
    let gap : WorkGap := ⟨producer, engine.log.frontier.watermark branch producer, engine.position head⟩
    if gap.isEmpty then none else some gap

end DerivationEngine

/-- Where a committed layer stands in the source stream. -/
def Commit.position (commit : Commit) (id : LayerId) : LayerId :=
  match commit.author with
  | .source => id
  | .derived _ reflects => reflects

namespace Log

variable {log log' : Log} {branch : BranchId} {since id head : LayerId} {commit : Commit}

/-- A committed layer of a branch stands above a source position: a source layer is above it, or a derived
layer reflects one that is. -/
def Outstanding (log : Log) (branch : BranchId) (since : LayerId) : Prop :=
  ∃ id commit, log.commitAt id = some commit ∧ commit.branch = branch ∧ since < commit.position id

/-- No committed layer of a branch stands higher than its head. -/
def Upright (log : Log) (branch : BranchId) : Prop :=
  ∀ head top, log.head branch = some head → log.commitAt head = some top →
    ∀ id commit, log.commitAt id = some commit → commit.branch = branch → commit.position id ≤ top.position head

theorem Sound.commitAt_head (h : log.Sound) (hh : log.head branch = some head) :
    ∃ top, log.commitAt head = some top ∧ top.branch = branch :=
  ((h.projected.heads_iff branch head).1 hh).1

theorem Sound.exists_head (h : log.Sound) (hc : log.commitAt id = some commit) (hb : commit.branch = branch) :
    ∃ head, log.head branch = some head := by
  have hlt : ∀ other, log.CommittedOn branch other → other < log.nextLayer := by
    rintro other ⟨found, hfound, _⟩
    exact (h.commitAt_lt hfound).2
  obtain ⟨head, htop⟩ := exists_isTop hlt ⟨commit, hc, hb⟩
  exact ⟨head, (h.projected.heads_iff branch head).2 htop⟩

theorem Sound.withFrontier (h : log.Sound) (frontier : FrontierTracker) :
    ({ log with frontier := frontier } : Log).Sound :=
  ⟨h.storage, h.projected.congr (fun _ => rfl) rfl rfl rfl rfl, h.next_pos, h.layer_id, h.layer_branch,
    h.branch_id, h.staged_iff, h.staged_branch, h.open_guards, h.meta_iff⟩

theorem position_of_commitAt {engine : DerivationEngine} (hc : engine.log.commitAt id = some commit) :
    engine.position id = commit.position id := by
  obtain ⟨layer, hl, -, -, -, ha, -⟩ := commitAt_eq_some hc
  unfold DerivationEngine.position Log.authorOf Log.layer Commit.position
  rw [hl, ha, Option.map_some]
  cases layer.author <;> rfl

/-! ### What a range of layers holds -/

/-- A range that holds work holds a layer that stands above where the range starts. -/
theorem Sound.gather_work (h : log.Sound) {ids : List LayerId} (hids : ∀ id ∈ ids, since < id)
    {found : Gathered} (hfound : found.hasWork = true → log.Outstanding branch since) :
    (log.gather branch since ids found).hasWork = true → log.Outstanding branch since := by
  induction ids generalizing found with
  | nil => exact hfound
  | cons id rest ih =>
    have hrest : ∀ id ∈ rest, since < id := fun other ho => hids other (List.mem_cons_of_mem _ ho)
    rw [gather]
    cases hl : log.layer id with
    | none => exact ih hrest hfound
    | some layer =>
      dsimp only
      split
      · exact ih hrest hfound
      · rename_i hb
        rw [not_not] at hb
        cases hg : gatherLayer since layer found with
        | none => exact hfound
        | some next =>
          refine ih hrest fun hwork => ?_
          have hid : layer.id = id := (h.layer_id hl).1
          unfold gatherLayer at hg
          cases ha : layer.author with
          | source =>
            rw [ha] at hg
            cases hs : layer.state with
            | committed => exact ⟨id, _, commitAt_of_committed hl hs, hb, by
                simpa [Commit.position, ha] using hids id (List.mem_cons_self ..)⟩
            | aborted =>
              rw [hs] at hg
              cases hg
              exact hfound hwork
            | sealed =>
              rw [hs] at hg
              cases hg
            | _ =>
              rw [hs] at hg
              cases hg
          | derived producer reflects =>
            rw [ha] at hg
            dsimp only at hg
            split at hg
            · cases hg
              exact hfound hwork
            · rename_i hs
              rw [not_not] at hs
              cases hg
              rcases Bool.or_eq_true_iff.1 hwork with hwork | hwork
              · exact hfound hwork
              · exact ⟨id, _, commitAt_of_committed hl hs, hb, by
                  simpa [Commit.position, ha] using hwork⟩

/-- A round finds work only where something is outstanding. -/
theorem Sound.outstanding_of_span (h : log.Sound) {span : Span} (hspan : log.span branch since = some span) :
    log.Outstanding branch since := by
  unfold Log.span at hspan
  cases hh : log.head branch with
  | none =>
    rw [hh] at hspan
    cases hspan
  | some head =>
    rw [hh] at hspan
    simp only [Option.bind_eq_bind, Option.bind_some] at hspan
    have hids : ∀ id ∈ List.range' (since + 1) (head - since), since < id := fun id hid =>
      (List.mem_range'_1.1 hid).1
    have hstart : (Gathered.mk [] none none false).hasWork = true → log.Outstanding branch since :=
      fun hwork => by cases hwork
    refine h.gather_work hids hstart ?_
    by_contra hidle
    rw [if_neg hidle] at hspan
    cases hspan

/-! ### Runs whose heads keep up -/

/-- A layer that becomes the head of its branch stands no lower in the source stream than the head did, and
one that lands under the head no higher. -/
def InOrder (log log' : Log) : Prop :=
  ∀ id commit, log.commitAt id = none → log'.commitAt id = some commit →
    ∀ head top, log.head commit.branch = some head → log.commitAt head = some top →
      (head < id → top.position head ≤ commit.position id) ∧
        (id < head → commit.position id ≤ top.position head)

/-- A log that a run leads to, every layer of which landed in order. -/
def Orderly (log : Log) : Prop := Relation.ReflTransGen (fun log log' => Step log log' ∧ InOrder log log') new log

/-- What a call adds to the timeline: nothing, or one layer. -/
theorem Move.adds (h : log.Sound) (hm : Move log log') : (∀ id, log'.commitAt id = log.commitAt id) ∨
    ∃ landed commit, log.commitAt landed = none ∧
      ∀ id, log'.commitAt id = if id = landed then some commit else log.commitAt id := by
  cases hm with
  | stay => exact Or.inl fun _ => rfl
  | branched => exact Or.inl fun _ => rfl
  | opened branch kind author => exact Or.inl fun id => commitAt_opened branch kind author h id
  | restaged => exact Or.inl fun _ => rfl
  | discarded ho => exact Or.inl fun id => commitAt_discarded h ho id
  | @landing handle staged ho hs =>
    obtain ⟨hl, hst⟩ := h.stored_of_owns ho
    exact Or.inr ⟨handle.id, _, commitAt_of_open hl hst, fun id => commitAt_landing h.storage hs id⟩

theorem Upright.step (hu : log.Upright branch) (h : log.Sound) (hs : Step log log') (hin : InOrder log log') :
    log'.Upright branch := by
  have hm := hs.move h
  have h' := hm.sound h
  intro head top hhead htop id commit hc hb
  have hcovers := (h'.projected.heads_iff branch head).1 hhead
  -- Where the branch holds what it held, its head is the one it had.
  have hkept (hsame : ∀ other, log'.CommittedOn branch other ↔ log.CommittedOn branch other) :
      log.head branch = some head :=
    (h.projected.heads_iff branch head).2 (by simpa only [IsTop, hsame] using hcovers)
  rcases hm.adds h with hsame | ⟨landed, added, hnew, hadds⟩
  · have hhead' := hkept fun other => by simp only [CommittedOn, hsame]
    exact hu head top hhead' (hsame head ▸ htop) id commit (hsame id ▸ hc) hb
  have hadded : log'.commitAt landed = some added := by rw [hadds, if_pos rfl]
  have hold {other : LayerId} {found : Commit} (hne : other ≠ landed) (hf : log'.commitAt other = some found) :
      log.commitAt other = some found := by rwa [hadds, if_neg hne] at hf
  have holder {other : LayerId} (hf : (log.commitAt other).isSome) : other ≠ landed := by
    rintro rfl
    rw [hnew] at hf
    cases hf
  by_cases hbranch : added.branch = branch
  · subst hbranch
    cases hbefore : log.head added.branch with
    | none =>
      -- The first layer of its branch.
      have hfirst {other : LayerId} {found : Commit} (hf : log'.commitAt other = some found)
          (hfb : found.branch = added.branch) : other = landed := by
        by_contra hne
        obtain ⟨old, hsome⟩ := h.exists_head (hold hne hf) hfb
        rw [hbefore] at hsome
        cases hsome
      obtain ⟨found, hf, hfb⟩ := hcovers.1
      obtain rfl := hfirst hf hfb
      obtain rfl := hfirst hc hb
      rw [hc] at htop
      cases htop
      exact le_refl _
    | some old =>
      obtain ⟨oldTop, holdTop, holdBranch⟩ := h.commitAt_head hbefore
      obtain ⟨habove, hunder⟩ := hin landed added hnew hadded old oldTop hbefore holdTop
      have hne : old ≠ landed := holder (by rw [holdTop]; rfl)
      have hle : old ≤ head := hcovers.2 old ⟨oldTop, by rw [hadds, if_neg hne, holdTop], holdBranch⟩
      have holdest {other : LayerId} {found : Commit} (hne : other ≠ landed)
          (hf : log'.commitAt other = some found) (hfb : found.branch = added.branch) :
          found.position other ≤ oldTop.position old :=
        hu old oldTop hbefore holdTop other found (hold hne hf) hfb
      by_cases hlanded : head = landed
      · subst hlanded
        rw [hadded] at htop
        cases htop
        by_cases hid : id = head
        · subst hid
          rw [hadded] at hc
          cases hc
          exact le_refl _
        · exact (holdest hid hc hb).trans (habove (lt_of_le_of_ne hle hne))
      · obtain ⟨found, hf, hfb⟩ := hcovers.1
        have htopmost := ((h.projected.heads_iff _ old).1 hbefore).2 head ⟨found, hold hlanded hf, hfb⟩
        obtain rfl : head = old := Nat.le_antisymm htopmost hle
        rw [hold hlanded htop] at holdTop
        cases holdTop
        by_cases hid : id = landed
        · subst hid
          rw [hadded] at hc
          cases hc
          exact hunder (lt_of_le_of_ne (hcovers.2 id ⟨commit, hadded, rfl⟩) (Ne.symm hlanded))
        · exact holdest hid hc hb
  · have helse {other : LayerId} {found : Commit} (hf : log'.commitAt other = some found)
        (hfb : found.branch = branch) : log.commitAt other = some found := by
      refine hold (fun he => hbranch ?_) hf
      subst he
      rw [hadded] at hf
      cases hf
      exact hfb
    have hhead' := hkept fun other => by
      refine exists_congr fun found => ⟨fun hhead => ⟨helse hhead.1 hhead.2, hhead.2⟩, fun hhead => ⟨?_, hhead.2⟩⟩
      rw [hadds, if_neg (holder (by rw [hhead.1]; rfl)), hhead.1]
    obtain ⟨found, hf, hfb⟩ := hcovers.1
    rw [htop] at hf
    cases hf
    exact hu head top hhead' (helse htop hfb) id commit (helse hc hb) hb

theorem Orderly.reachable (h : log.Orderly) : log.Reachable :=
  Relation.ReflTransGen.mono (fun _ _ hs => hs.1) _ _ h

theorem Orderly.upright (h : log.Orderly) (branch : BranchId) : log.Upright branch := by
  induction h with
  | refl =>
    intro head top hhead
    cases (show (none : Option LayerId) = some head from hhead)
  | tail hrun hstep ih =>
    exact ih.step (Orderly.reachable hrun).sound hstep.1 hstep.2

theorem InOrder.of_same (hsame : ∀ id, log'.commitAt id = log.commitAt id) : InOrder log log' := by
  intro id commit hnone hsome
  rw [hsame, hnone] at hsome
  cases hsome

theorem InOrder.of_lands (h : log.Sound) (hs : Step log log') (hnone : log.commitAt id = none)
    (hsome : log'.commitAt id = some commit)
    (hin : ∀ head top, log.head commit.branch = some head → log.commitAt head = some top →
      (head < id → top.position head ≤ commit.position id) ∧
        (id < head → commit.position id ≤ top.position head)) : InOrder log log' := by
  intro other found hother hfound
  rcases (hs.move h).adds h with hsame | ⟨landed, added, hnew, hadds⟩
  · rw [hsame, hother] at hfound
    cases hfound
  · have hone {at' : LayerId} {it : Commit} (hat : log.commitAt at' = none) (hit : log'.commitAt at' = some it) :
        at' = landed := by
      by_contra hne
      rw [hadds, if_neg hne, hat] at hit
      cases hit
    obtain rfl := hone hother hfound
    obtain rfl := hone hnone hsome
    rw [hsome] at hfound
    cases hfound
    exact hin

end Log

namespace DerivationEngine

variable {engine : DerivationEngine} {branch : BranchId} {producer : ProducerId}

/-! ### The query and the round -/

/-- A status query reports a gap exactly where something is outstanding. -/
def Reports (engine : DerivationEngine) (branch : BranchId) (producer : ProducerId) : Prop :=
  engine.pending branch producer = none ↔
    ¬ engine.log.Outstanding branch (engine.log.frontier.watermark branch producer)

theorem pending_eq_none_iff (h : engine.log.Sound) : engine.pending branch producer = none ↔
    ∀ head top, engine.log.head branch = some head → engine.log.commitAt head = some top →
      top.position head ≤ engine.log.frontier.watermark branch producer := by
  unfold pending
  cases hh : engine.log.head branch with
  | none => simp
  | some head =>
    obtain ⟨top, htop, -⟩ := h.commitAt_head hh
    simp only [WorkGap.isEmpty, decide_eq_true_eq, ite_eq_left_iff, reduceCtorEq, imp_false, not_not,
      Log.position_of_commitAt htop]
    constructor
    · rintro hle _ _ ⟨⟩ htop'
      rw [htop] at htop'
      cases htop'
      exact hle
    · exact fun hall => hall head top rfl htop

/-- A query over a branch whose head stands highest misses nothing. -/
theorem reports_of_upright (h : engine.log.Sound) (hu : engine.log.Upright branch) :
    engine.Reports branch producer := by
  unfold Reports
  rw [pending_eq_none_iff h]
  constructor
  · rintro hall ⟨id, commit, hc, hb, habove⟩
    obtain ⟨head, hh⟩ := h.exists_head hc hb
    obtain ⟨top, htop, -⟩ := h.commitAt_head hh
    have hbelow := hu head top hh htop id commit hc hb
    exact Nat.not_lt.2 (hbelow.trans (hall head top hh htop)) habove
  · intro hnone head top hh htop
    obtain ⟨found, hfound, hb⟩ := h.commitAt_head hh
    rw [htop] at hfound
    cases hfound
    exact Nat.le_of_not_lt fun hlt => hnone ⟨head, top, htop, hb, hlt⟩

/-- An engine that stands over a log with one producer registered. -/
def standing (log : Log) : DerivationEngine where
  log := log
  index := .new
  poison := ∅
  producers := AList.singleton 9 ⟨9, .pipeline, .object "Doc", 1, 1, none⟩
  liveVersions := []
  executor := fun _ _ _ _ => .done
  parallelism := 1
  parallelism_pos := Nat.one_pos

/-- Asked for a producer that has come as far as the head stands, the query answers that nothing is
outstanding; so nothing stands higher. -/
theorem upright_of_reports {log : Log} (h : log.Sound)
    (hreports : ∀ frontier : FrontierTracker, (standing { log with frontier := frontier }).Reports branch 9) :
    log.Upright branch := by
  intro head top hh htop id commit hc hb
  let frontier := FrontierTracker.new.advance branch 9 (top.position head)
  have hwatermark : frontier.watermark branch 9 = top.position head := by
    rw [FrontierTracker.watermark_advance, if_pos rfl, FrontierTracker.watermark_new, Nat.zero_max]
  have hpending : (standing { log with frontier := frontier }).pending branch 9 = none := by
    refine (pending_eq_none_iff (h.withFrontier frontier)).2 fun other found hother hfound => ?_
    obtain rfl : head = other := Option.some.inj (hh.symm.trans hother)
    obtain rfl : top = found := Option.some.inj (htop.symm.trans hfound)
    exact hwatermark.ge
  refine Nat.le_of_not_lt fun hlt => (hreports frontier).1 hpending ⟨id, commit, hc, hb, ?_⟩
  exact hwatermark.symm ▸ hlt

/-- **When a status query agrees with the scheduler.**  It reports a gap exactly where a committed source
layer, or the source layer a committed derived layer reflects, is above the watermark: for every engine,
producer and frontier over a log, exactly where no layer of the branch stands higher than its head, as it
is after every run whose layers land in order.  Where it agrees, a round that would find work is a gap. -/
theorem pending_agrees_iff {log : Log} (h : log.Reachable) (branch : BranchId) :
    ((∀ (engine : DerivationEngine) (frontier : FrontierTracker), engine.log = { log with frontier := frontier } →
        ∀ producer, (engine.producers.lookup producer).isSome → engine.Reports branch producer) ↔
          log.Upright branch) ∧
      (log.Orderly → log.Upright branch) ∧
      ∀ (engine : DerivationEngine) (frontier : FrontierTracker), engine.log = { log with frontier := frontier } →
        ∀ producer span, engine.Reports branch producer →
          log.span branch (frontier.watermark branch producer) = some span →
            ∃ gap, engine.pending branch producer = some gap := by
  refine ⟨⟨fun hall => ?_, fun hu engine frontier hlog producer _ => ?_⟩, fun horderly => horderly.upright branch, ?_⟩
  · exact upright_of_reports h.sound fun frontier => hall (standing _) frontier rfl 9 rfl
  · refine reports_of_upright (hlog ▸ h.sound.withFrontier frontier) ?_
    rw [hlog]
    exact hu
  · intro engine frontier hlog producer span hreports hspan
    have hout := h.sound.outstanding_of_span hspan
    cases hp : engine.pending branch producer with
    | some gap => exact ⟨gap, rfl⟩
    | none =>
      refine absurd ?_ (hreports.1 hp)
      rw [hlog]
      exact hout

end DerivationEngine

/-! ### A client that commits during a round -/

namespace Behind

open Log

/-- A client writes once, -/
def settled : Log := (after (createRoot none new)).filled 1 .source []

/-- writes again while a round settles the first layer, and then the round lands. -/
def landed : Log := (settled.filled 1 .source []).filled 1 (.derived 9 1) []

theorem settled_reachable : settled.Reachable := by
  have hroot : (after (createRoot none new)).Reachable := .single (.createRoot none)
  exact hroot.filled (by decide +kernel) .source _

theorem landed_reachable : landed.Reachable := by
  have hagain : (settled.filled 1 .source []).Reachable := settled_reachable.filled (by decide +kernel) .source _
  exact hagain.filled (by decide +kernel) (.derived 9 1) _

def first : Layer := ⟨1, 1, .value, .source, .open, none, []⟩

def round : Layer := ⟨2, 1, .value, .derived 9 1, .open, some 1, []⟩

def second : Layer := ⟨3, 1, .value, .source, .open, some 1, []⟩

/-- A client writes, a round opens its layer, the client opens and commits another, and then the round
lands under it. -/
def opened : Log := after (openLayer 1 .value .source (after (createRoot none new)))

def written : Log := after (commit ⟨first⟩ opened)

def rounding : Log := after (openLayer 1 .value (.derived 9 1) written)

def reopened : Log := after (openLayer 1 .value .source rounding)

def rewritten : Log := after (commit ⟨second⟩ reopened)

def under : Log := after (commit ⟨round⟩ rewritten)

theorem opens {log : Log} {branch : BranchId} (h : log.Orderly) (hb : (log.branches.lookup branch).isSome)
    (author : LayerAuthor) :
    (after (openLayer branch .value author log)).Orderly := by
  refine .tail h ⟨.openLayer branch .value author hb, .of_same fun id => ?_⟩
  rw [openLayer_run branch .value author h.reachable.sound]
  exact commitAt_opened branch .value author h.reachable.sound id

theorem lands {log : Log} {handle : LayerHandle} (branch : BranchId) (position : LayerId)
    (h : log.Orderly) (ho : log.Owns handle)
    (hnone : log.commitAt handle.id = none)
    (hsome : ((after (commit handle log)).commitAt handle.id).map
      (fun commit => (commit.branch, commit.position handle.id)) = some (branch, position))
    (hin : ∀ head standing, log.head branch = some head →
      (log.commitAt head).map (fun top => top.position head) = some standing →
        (head < handle.id → standing ≤ position) ∧ (handle.id < head → position ≤ standing)) :
    (after (commit handle log)).Orderly := by
  obtain ⟨commit, hc, he⟩ := Option.map_eq_some_iff.1 hsome
  obtain ⟨rfl, rfl⟩ := Prod.mk.inj he
  refine .tail h ⟨.commit handle ho, .of_lands h.reachable.sound (.commit handle ho) hnone hc ?_⟩
  intro head top hhead htop
  exact hin head _ hhead (by rw [htop]; rfl)

theorem under_orderly : under.Orderly := by
  have hopened : opened.Orderly :=
    opens (.single ⟨.createRoot none, .of_same fun _ => rfl⟩) (by decide +kernel) _
  have hwritten : written.Orderly := by
    refine lands 1 1 hopened ⟨first, by decide +kernel, rfl, rfl⟩
      (by decide +kernel) (by decide +kernel) fun head _ hhead => ?_
    cases (show (none : Option LayerId) = some head from hhead)
  have hreopened : reopened.Orderly :=
    opens (opens hwritten (by decide +kernel) _) (by decide +kernel) _
  have hrewritten : rewritten.Orderly := by
    have hhead : reopened.head 1 = some 1 := by decide +kernel
    have hstands : (reopened.commitAt 1).map (fun top => top.position 1) = some 1 := by decide +kernel
    refine lands 1 3 hreopened ⟨second, by decide +kernel, rfl, rfl⟩
      (by decide +kernel) (by decide +kernel) fun head standing hat hat' => ?_
    obtain rfl : 1 = head := Option.some.inj (hhead.symm.trans hat)
    obtain rfl : 1 = standing := Option.some.inj (hstands.symm.trans hat')
    decide
  have hhead : rewritten.head 1 = some 3 := by decide +kernel
  have hstands : (rewritten.commitAt 3).map (fun top => top.position 3) = some 3 := by decide +kernel
  refine lands 1 1 hrewritten ⟨round, by decide +kernel, rfl, rfl⟩
    (by decide +kernel) (by decide +kernel) fun head standing hat hat' => ?_
  obtain rfl : 3 = head := Option.some.inj (hhead.symm.trans hat)
  obtain rfl : 3 = standing := Option.some.inj (hstands.symm.trans hat')
  decide

end Behind

/-- The head reflects layer 1, as far as the producer has come; layer 2 is nobody's gap. -/
theorem pending_misses_source_layer :
    ¬ ∀ (log : Log), log.Reachable → ∀ (engine : DerivationEngine), engine.log = log →
      ∀ branch producer, (engine.producers.lookup producer).isSome → engine.Reports branch producer := by
  intro h
  have hreports := h _ Behind.landed_reachable (DerivationEngine.standing Behind.landed) rfl 1 9 rfl
  have hpending : (DerivationEngine.standing Behind.landed).pending 1 9 = none := by decide +kernel
  have hwatermark : (DerivationEngine.standing Behind.landed).log.frontier.watermark 1 9 = 1 := by decide +kernel
  have hsource : (Behind.landed.commitAt 2).map (fun commit => (commit.branch, commit.position 2)) = some (1, 2) := by
    decide +kernel
  obtain ⟨commit, hc, he⟩ := Option.map_eq_some_iff.1 hsource
  obtain ⟨hb, hposition⟩ := Prod.mk.inj he
  refine hreports.1 hpending ⟨2, commit, hc, hb, ?_⟩
  rw [hwatermark, hposition]
  decide

theorem pending_agrees_under : (DerivationEngine.standing Behind.under).Reports 1 9 := by
  have hagrees := DerivationEngine.pending_agrees_iff Behind.under_orderly.reachable 1
  exact hagrees.1.2 (hagrees.2.1 Behind.under_orderly) _ Behind.under.frontier rfl 9 rfl

end BorgCore
