import BorgCore.Engine.Resolve
import BorgCore.Engine.Rounds
import BorgCore.Lib.Provenance

/-!
# What validation answers

A read validates a derived value before it says how far the value is good.  The records a path sees are
a graph of derivations, and validation is the walk over it; what it answers is at most the composed
watermark of each input, except where an input that lags and an input that has moved come together.
-/

namespace BorgCore

open Provenance Provenance.Graph

namespace Log

/-- A stored record, as validation looks at it. -/
def recordOf (found : Landed) : Record CellAt :=
  match found.event.derivation with
  | none => .source found.landedAt
  | some derivation => .derived derivation.readSet derivation.freshAsOf

theorem reflects_recordOf (found : Landed) : (recordOf found).reflects = found.reflects := by
  unfold recordOf Landed.reflects
  cases found.event.derivation <;> rfl

/-- The records a path sees. -/
def provenance (log : Log) (path : ReadPath) : Graph CellAt := fun record =>
  match log.storage.getCell path record.cell record.version with
  | .ok (some found) => some (recordOf found)
  | _ => none

variable {log : Log} {path : ReadPath} {target label : LayerId} {record : CellAt} {inputs readSet : List CellAt}

theorem provenance_of_getCell {record : CellAt} {found : Option Landed}
    (hg : log.storage.getCell path record.cell record.version = .ok found) :
    log.provenance path record = found.map recordOf := by
  unfold provenance
  rw [hg]
  cases found <;> rfl

theorem validateSet_eq_look (h : log.storage.Sound) (label : LayerId)
    {recurse : List CellAt → LayerId → Composed → Except BorgError (LayerId × Composed)}
    {recurse' : List CellAt → LayerId → Memo CellAt → LayerId × Memo CellAt}
    (hrec : ∀ inputs inner memo, recurse inputs inner memo = .ok (recurse' inputs inner memo))
    (readSet : List CellAt) (watermark : LayerId) (composed : Composed) :
    log.validateSet path label recurse readSet watermark composed =
      .ok ((log.provenance path).look label recurse' readSet watermark composed) := by
  induction readSet generalizing watermark composed with
  | nil => rfl
  | cons dependency rest ih =>
    obtain ⟨found, hget⟩ : ∃ found, log.storage.getCell path dependency.cell dependency.version =
        .ok found := ⟨_, h.getCell path dependency.cell dependency.version⟩
    rw [validateSet, look, hget, provenance_of_getCell hget]
    cases found with
    | none => exact ih watermark composed
    | some found =>
      simp only [bind, Except.bind, Option.map_some, reflects_recordOf]
      by_cases hlt : label < found.reflects
      · rw [if_pos hlt, if_pos hlt]
        rfl
      · rw [if_neg hlt, if_neg hlt]
        unfold recordOf
        cases hd : found.event.derivation with
        | none => exact ih watermark composed
        | some upstream =>
          cases hl : composed.lookup dependency with
          | none =>
            simp only [hrec]
            exact ih _ _
          | some mark => cases mark <;> exact ih _ _

theorem validate_eq_walk (h : log.storage.Sound) (fuel : Nat) (readSet : List CellAt)
    (label : LayerId) (composed : Composed) :
    log.validate path target fuel readSet label composed =
      .ok ((log.provenance path).walk target fuel readSet label composed) := by
  induction fuel generalizing readSet label composed with
  | zero => rfl
  | succ fuel ih =>
    rw [validate, walk]
    exact validateSet_eq_look h label ih readSet target composed

def storedRecords (log : Log) : List CellAt := log.storage.reads.keys.map fun key => ⟨key.2.1, key.2.2⟩

theorem newestOn_stored {branch : BranchId} {bound : LayerId} {cell : CellRef} {version : DefVersion}
    (hn : log.storage.newestOn branch bound cell version ≠ none) :
    (branch, cell, version) ∈ log.storage.reads.keys := by
  by_contra hkey
  refine hn ?_
  have hnone : log.storage.reads.lookup (branch, cell, version) = none :=
    AList.lookup_eq_none.2 fun hm => hkey (AList.mem_keys.1 hm)
  rw [MemoryStorage.newestOn, AssocMap.getD, hnone]
  rfl

theorem provenance_stored {record : CellAt} (hr : log.provenance path record ≠ none) :
    record ∈ log.storedRecords := by
  have hfrom (segments : List (BranchId × LayerId)) {found : Landed}
      (hg : log.storage.getCellFrom record.cell record.version segments = .ok (some found)) :
      record ∈ log.storedRecords := by
    induction segments with
    | nil => cases hg
    | cons segment outer ih =>
      rw [MemoryStorage.getCellFrom] at hg
      cases hn : log.storage.newestOn segment.1 segment.2 record.cell record.version with
      | none =>
        rw [hn] at hg
        exact ih hg
      | some entry =>
        exact List.mem_map.2 ⟨_, newestOn_stored (by rw [hn]; simp), rfl⟩
  unfold provenance at hr
  split at hr
  · rename_i found hg
    exact hfrom path.segments hg
  · exact absurd rfl hr

/-! ### What is asked -/

/-- No record on a path is among the records it was computed from. -/
def Rooted (log : Log) (path : ReadPath) : Prop :=
  ∀ record, ¬ Relation.TransGen (log.provenance path).Uses record record

theorem Rooted.acyclic (h : log.Rooted path) :
    (log.provenance path).Acyclic log.storedRecords :=
  ⟨provenance_stored, h⟩

/-- A store that holds the same records on a path, with their read-sets in any order. -/
structure Reordered (path : ReadPath) (log log' : Log) : Prop where
  sound : log'.storage.Sound
  like : (log.provenance path).Like (log'.provenance path)

/-- What is asked of validation, of a derived record of a path. -/
def Composes (log : Log) (path : ReadPath) (target : LayerId) (record : CellAt) (readSet : List CellAt)
    (label : LayerId) : Prop :=
  ∃ answer,
    (∀ log' readSet', Reordered path log log' → readSet.Perm readSet' →
      log'.watermarkOf path readSet' label target = .ok answer) ∧
    (∀ input ∈ readSet, (∃ inputs label', log.provenance path input = some (.derived inputs label')) →
      answer ≤ (log.provenance path).composed target input) ∧
    ((log.provenance path).Moved readSet label → answer ≤ label) ∧
    (answer = target → ∀ upstream label', (log.provenance path).Chain record upstream →
      ¬ (log.provenance path).Overtaken upstream label')

theorem watermarkOf_eq (h : log.storage.Sound) (hw : log.Rooted path)
    (hr : log.provenance path record = some (.derived inputs label)) (hp : inputs.Perm readSet) :
    log.watermarkOf path readSet label target = .ok (bound hw.acyclic target record) := by
  have hcard : (unmarked log.storedRecords (∅ : Composed)).card <
      log.storage.reads.keys.length + 1 := by
    refine Nat.lt_succ_of_le ((Finset.card_filter_le _ _).trans ((List.toFinset_card_le _).trans ?_))
    rw [storedRecords, List.length_map]
  have hhonest : Honest hw.acyclic target record (∅ : Composed) :=
    ⟨fun hn => by simp at hn, fun hn => by simp at hn⟩
  obtain ⟨hv, _⟩ := walk_good hw.acyclic hr (fun a ha => hp.mem_iff.2 ha) hhonest hcard
  rw [watermarkOf, validate_eq_walk h]
  refine congrArg Except.ok (hv.trans ?_)
  rw [bound_derived hw.acyclic hr]
  exact (Like.refl _).good hp (fun _ _ => rfl) target

/-- What validation answers does not depend on the order of any read-set. -/
theorem watermarkOf_reordered (hw : log.Rooted path)
    (hr : log.provenance path record = some (.derived inputs label)) {log' : Log}
    (hlog : Reordered path log log') (hp : inputs.Perm readSet) :
    log'.watermarkOf path readSet label target = .ok (bound hw.acyclic target record) := by
  obtain ⟨inputs', hr', hp'⟩ := hlog.like.derived hr
  have hw' : log'.Rooted path := (hlog.like.acyclic hw.acyclic).apart
  rw [watermarkOf_eq hlog.sound hw' hr' (hp'.symm.trans hp), hlog.like.bound hw.acyclic]

/-- **When validation composes.**  What it answers for a derived record does not depend on the order of
any read-set, is at most the composed watermark of each derived input, at most the label where an input
has moved, and the target only where nothing of the chain has been overtaken, exactly when nothing has
been, or something with the least label of what has is met on the way down and labelled below the target;
a record computed from source data alone may also be labelled above it. -/
theorem validate_composes_iff (h : log.storage.Sound) (hw : log.Rooted path)
    (hr : log.provenance path record = some (.derived readSet label)) :
    log.Composes path target record readSet label ↔ (log.provenance path).Sees target record := by
  rw [← sees_iff hw.acyclic hr]
  constructor
  · rintro ⟨answer, horder, hle, _, hne⟩
    have heq := horder log readSet ⟨h, Like.refl _⟩ (List.Perm.refl _)
    rw [watermarkOf_eq h hw hr (List.Perm.refl _)] at heq
    cases heq
    exact ⟨hle, fun ht upstream label' hc => hne ht upstream label' hc⟩
  · rintro ⟨hle, hne⟩
    exact ⟨_, fun log' readSet' hlog hp => watermarkOf_reordered hw hr hlog hp, hle,
      fun hm => (bound_moved hw.acyclic hr hm).le, hne⟩

/-! ### A lagging input and a moved one -/

/-- Four cells, all of one object. -/
def chainCell (field : FieldName) : CellRef := .prop "Doc" field (.allocated .object 1 0 0)

/-- A client writes two of them. -/
def priced : Log := (after (createRoot none new)).filled 1 .source
  [(chainCell "price", ⟨.int 1, 1, .source, none⟩), (chainCell "title", ⟨.int 1, 1, .source, none⟩)]

/-- `total` is computed from `price`, -/
def totalled : Log := priced.filled 1 (.derived 10 1)
  [(chainCell "total", ⟨.int 2, 1, .derived, some ⟨10, 1, [⟨chainCell "price", 1⟩]⟩⟩)]

/-- which moves, -/
def repriced : Log := totalled.filled 1 .source [(chainCell "price", ⟨.int 3, 1, .source, none⟩)]

/-- and `page` is computed from the old `total` and from `title`, -/
def lagging : Log := repriced.filled 1 (.derived 11 3)
  [(chainCell "page", ⟨.int 4, 1, .derived,
    some ⟨11, 3, [⟨chainCell "total", 1⟩, ⟨chainCell "title", 1⟩]⟩⟩)]

/-- which moves in its turn. -/
def overlooked : Log := lagging.filled 1 .source [(chainCell "title", ⟨.int 5, 1, .source, none⟩)]

theorem overlooked_reachable : overlooked.Reachable := by
  have hroot : (after (createRoot none new)).Reachable := .single (.createRoot none)
  have hpriced : priced.Reachable := hroot.filled (by decide +kernel) .source _
  have htotalled : totalled.Reachable := hpriced.filled (by decide +kernel) _ _
  have hrepriced : repriced.Reachable := htotalled.filled (by decide +kernel) .source _
  have hlagging : lagging.Reachable := hrepriced.filled (by decide +kernel) _ _
  exact hlagging.filled (by decide +kernel) .source _

def overlookedPath : ReadPath := overlooked.readPath 1 none

theorem overlooked_rooted : overlooked.Rooted overlookedPath := by
  let rank (record : CellAt) : Nat :=
    if record.cell = chainCell "page" then 2 else if record.cell = chainCell "total" then 1 else 0
  have hall : overlooked.storedRecords.all (fun record =>
      (overlooked.provenance overlookedPath record).all fun found =>
        found.inputs.all fun input => decide (rank input < rank record)) := by decide +kernel
  refine not_transGen_of_rank rank fun record input hu => ?_
  obtain ⟨inputs, label, hr, hin⟩ := hu
  have hrecord := List.all_eq_true.1 hall record (provenance_stored (by rw [hr]; simp))
  rw [hr] at hrecord
  exact of_decide_eq_true (List.all_eq_true.1 hrecord input hin)

theorem overlooked_page : overlooked.provenance overlookedPath ⟨chainCell "page", 1⟩ =
    some (.derived [⟨chainCell "total", 1⟩, ⟨chainCell "title", 1⟩] 3) := by decide +kernel

theorem overlooked_total : overlooked.provenance overlookedPath ⟨chainCell "total", 1⟩ =
    some (.derived [⟨chainCell "price", 1⟩] 1) := by decide +kernel

theorem overlooked_price : overlooked.provenance overlookedPath ⟨chainCell "price", 1⟩ = some (.source 3) := by
  decide +kernel

/-- `price` landed above the label of `total`. -/
theorem total_overtaken :
    (overlooked.provenance overlookedPath).Overtaken ⟨chainCell "total", 1⟩ 1 :=
  ⟨_, overlooked_total, _, List.mem_cons_self, _, overlooked_price, by decide⟩

theorem total_seen : (overlooked.provenance overlookedPath).Sees 5 ⟨chainCell "total", 1⟩ := by
  refine Or.inr (Or.inl ⟨_, 1, .here total_overtaken, by decide, fun c x hc ho => ?_⟩)
  rcases (chain_derived overlooked_total).1 hc with rfl | ⟨a, ha, hc⟩
  · exact ((overtaken_iff overlooked_total).1 ho).1.ge
  · obtain rfl := List.mem_singleton.1 ha
    obtain ⟨_, _, hprice⟩ := hc.derived ho
    rw [overlooked_price] at hprice
    cases hprice

/-- In one store: validation of `total` is right, and that of `page` over it is not. -/
theorem validate_composes_iff_overlooked :
    overlooked.Composes overlookedPath 5 ⟨chainCell "total", 1⟩ [⟨chainCell "price", 1⟩] 1 ∧
      (overlooked.Composes overlookedPath 5 ⟨chainCell "page", 1⟩
          [⟨chainCell "total", 1⟩, ⟨chainCell "title", 1⟩] 3 ↔
        (overlooked.provenance overlookedPath).Sees 5 ⟨chainCell "page", 1⟩) :=
  ⟨(validate_composes_iff overlooked_reachable.sound.storage overlooked_rooted overlooked_total).2 total_seen,
    validate_composes_iff overlooked_reachable.sound.storage overlooked_rooted overlooked_page⟩

/-- **Validation answers more than an input is good for**: `page` is said to be good as of layer 3, and
`total` under it is good as of layer 1. -/
theorem validate_overlooks : overlooked.Reachable ∧ overlooked.Rooted overlookedPath ∧
    ¬ ∀ record readSet label,
      overlooked.provenance overlookedPath record = some (.derived readSet label) →
        overlooked.Composes overlookedPath 5 record readSet label := by
  refine ⟨overlooked_reachable, overlooked_rooted, fun hall => ?_⟩
  have hanswer : (overlooked.watermarkOf overlookedPath
      [⟨chainCell "total", 1⟩, ⟨chainCell "title", 1⟩] 3 5).toOption = some 3 := by decide +kernel
  obtain ⟨answer, horder, hle, _⟩ := hall _ _ _ overlooked_page
  rw [horder overlooked _ ⟨overlooked_reachable.sound.storage, Like.refl _⟩ (List.Perm.refl _)] at hanswer
  cases hanswer
  have hcomposed := hle ⟨chainCell "total", 1⟩ List.mem_cons_self ⟨_, _, overlooked_total⟩
  have hlabel := (le_composed.1 hcomposed).2 _ 1 Relation.ReflTransGen.refl total_overtaken
  exact absurd hlabel (by decide)

end Log

end BorgCore
