import Mathlib.Order.Lattice.Nat
import BorgCore.Lib.AssocMap
import BorgCore.Lib.Worklist

/-!
# How far a computed value is good for

Records are ground truth, which says where it landed, or were computed from others, and carry a label
for how far they are good.  An input that reflects more than the label has moved, and then nothing above
the label can be claimed; where nothing has moved a record is as good as the worst of what it was
computed from.  `walk` finds that out input by input, with a memo that also keeps it from going round.
-/

namespace BorgCore

namespace Provenance

/-- A record: ground truth, or what was computed from what, and how far it was good. -/
inductive Record (N : Type) where
  | source (landed : Nat)
  | derived (inputs : List N) (label : Nat)
deriving DecidableEq

def Record.inputs {N : Type} : Record N → List N
  | .source _ => []
  | .derived inputs _ => inputs

/-- What a record reflects: where ground truth landed, the label of what was computed. -/
def Record.reflects {N : Type} : Record N → Nat
  | .source landed => landed
  | .derived _ label => label

abbrev Graph (N : Type) := N → Option (Record N)

/-- What is known of each record so far; `none` while it is being found out. -/
abbrev Memo (N : Type) [DecidableEq N] := AssocMap N (Option Nat)

namespace Graph

variable {N : Type} [DecidableEq N]

/-- One input after another: stop where one has moved, else take the least bound. -/
def look (g : Graph N) (label : Nat) (recurse : List N → Nat → Memo N → Nat × Memo N) :
    List N → Nat → Memo N → Nat × Memo N
  | [], bound, memo => (bound, memo)
  | a :: rest, bound, memo =>
    match g a with
    | none => look g label recurse rest bound memo
    | some found =>
      if label < found.reflects then (label, memo)
      else
        match found with
        | .source _ => look g label recurse rest bound memo
        | .derived inputs inner =>
          let (known, memo) :=
            match memo.lookup a with
            | some (some known) => (known, memo)
            | some none => (inner, memo)
            | none =>
              let (known, memo) := recurse inputs inner (memo.insert a none)
              (known, memo.insert a (some known))
          look g label recurse rest (min bound known) memo

/-- How far a record with these inputs is good. -/
def walk (g : Graph N) (target : Nat) : Nat → List N → Nat → Memo N → Nat × Memo N
  | 0, _, label, memo => (label, memo)
  | fuel + 1, inputs, label, memo => g.look label (g.walk target fuel) inputs target memo

variable (g : Graph N)

/-- `b` was computed from `a`. -/
def Uses (b a : N) : Prop := ∃ inputs label, g b = some (.derived inputs label) ∧ a ∈ inputs

/-- Everything a record was computed from, itself included. -/
def Chain : N → N → Prop := Relation.ReflTransGen g.Uses

/-- Some input reflects more than the label. -/
def Moved (inputs : List N) (label : Nat) : Prop :=
  ∃ a ∈ inputs, ∃ found, g a = some found ∧ label < found.reflects

/-- A record whose label is `label`, and an input of which reflects more than that. -/
def Overtaken (a : N) (label : Nat) : Prop :=
  ∃ inputs, g a = some (.derived inputs label) ∧ g.Moved inputs label

/-- The records are finitely many, and none was computed from itself. -/
structure Acyclic (nodes : List N) : Prop where
  listed : ∀ {a}, g a ≠ none → a ∈ nodes
  apart : ∀ a, ¬ Relation.TransGen g.Uses a a

variable {g} {nodes : List N}

omit [DecidableEq N] in
/-- A rank that falls from a record to its inputs keeps a record from being one of its own. -/
theorem not_transGen_of_rank (rank : N → Nat) (hr : ∀ b a, g.Uses b a → rank a < rank b) (a : N) :
    ¬ Relation.TransGen g.Uses a a := by
  have hlt {b c : N} (hc : Relation.TransGen g.Uses b c) : rank c < rank b := by
    induction hc with
    | single hu => exact hr _ _ hu
    | tail _ hu ih => exact (hr _ _ hu).trans ih
  intro hc
  exact lt_irrefl _ (hlt hc)

omit [DecidableEq N] in
theorem Acyclic.wellFounded (h : g.Acyclic nodes) : WellFounded fun a b => g.Uses b a := by
  refine Worklist.wellFounded_of_acyclic nodes (fun a b hu => ?_) fun a hc => h.apart a ?_
  · obtain ⟨inputs, label, hb, _⟩ := hu
    exact h.listed (by rw [hb]; nofun)
  · exact Relation.transGen_swap.1 hc

/-! ### The bound of a record -/

section Bound

open Classical in
/-- How far a record with some of these inputs is good, given how far the inputs are. -/
noncomputable def good (g : Graph N) (label : Nat) (bound : N → Nat) (inputs : List N) (target : Nat) :
    Nat :=
  if g.Moved inputs label then label else (inputs.map bound).foldr min target

open Classical in
/-- How far a record is good, found out without a memo.  Ground truth bounds nothing. -/
noncomputable def bound (h : g.Acyclic nodes) (target : Nat) : N → Nat :=
  h.wellFounded.fix fun b known =>
    match g b with
    | some (.derived inputs label) =>
      g.good label (fun a => if ha : g.Uses b a then known a ha else target) inputs target
    | _ => target

variable {target label : Nat} {inputs : List N} {a b : N} (h : g.Acyclic nodes)

omit [DecidableEq N] in
theorem bound_derived (hb : g b = some (.derived inputs label)) :
    bound h target b = g.good label (bound h target) inputs target := by
  unfold bound
  rw [WellFounded.fix_eq, hb]
  have hinputs : ∀ a ∈ inputs, g.Uses b a := fun a ha => ⟨inputs, label, hb, ha⟩
  simp only [good]
  congr 2
  refine List.map_congr_left fun a ha => ?_
  rw [dif_pos (hinputs a ha)]

omit [DecidableEq N] in
theorem bound_ground (hb : ∀ inputs label, g b ≠ some (.derived inputs label)) :
    bound h target b = target := by
  unfold bound
  rw [WellFounded.fix_eq]
  split
  · rename_i inputs label hg
    exact absurd hg (hb inputs label)
  · rfl

theorem foldr_min_comm (bounds : List Nat) (m n : Nat) :
    bounds.foldr min (min m n) = min m (bounds.foldr min n) := by
  induction bounds with
  | nil => rfl
  | cons x bounds ih => rw [List.foldr_cons, List.foldr_cons, ih, min_left_comm]

theorem le_foldr_min {bounds : List Nat} {m n : Nat} :
    m ≤ bounds.foldr min n ↔ m ≤ n ∧ ∀ x ∈ bounds, m ≤ x := by
  induction bounds with
  | nil => simp
  | cons x bounds ih =>
    rw [List.foldr_cons, le_min_iff, ih, List.forall_mem_cons]
    exact and_left_comm

/-- A memo that only says what is so, and in which nothing is being found out but what leads to `b`. -/
structure Honest (target : Nat) (b : N) (memo : Memo N) : Prop where
  known : ∀ {a x}, memo.lookup a = some (some x) → x = bound h target a
  busy : ∀ {a}, memo.lookup a = some none → g.Chain a b

/-- What a walk makes of a memo: more is known, and nothing more is being found out. -/
structure Learns (target : Nat) (memo memo' : Memo N) : Prop where
  known : ∀ {a x}, memo'.lookup a = some (some x) → x = bound h target a
  busy : ∀ {a}, memo'.lookup a = some none → memo.lookup a = some none
  marked : ∀ {a}, memo.lookup a ≠ none → memo'.lookup a ≠ none

def unmarked (nodes : List N) (memo : Memo N) : Finset N :=
  nodes.toFinset.filter fun a => memo.lookup a = none

theorem mem_unmarked {memo : Memo N} : a ∈ unmarked nodes memo ↔ a ∈ nodes ∧ memo.lookup a = none := by
  rw [unmarked, Finset.mem_filter, List.mem_toFinset]

theorem unmarked_mono {memo memo' : Memo N} (hm : ∀ {a}, memo.lookup a ≠ none → memo'.lookup a ≠ none) :
    (unmarked nodes memo').card ≤ (unmarked nodes memo).card := by
  refine Finset.card_le_card fun a ha => ?_
  obtain ⟨hin, hn⟩ := mem_unmarked.1 ha
  exact mem_unmarked.2 ⟨hin, by_contra fun hs => hm hs hn⟩

theorem unmarked_insert {memo : Memo N} (ha : a ∈ nodes) (hn : memo.lookup a = none) (x : Option Nat) :
    (unmarked nodes (memo.insert a x)).card < (unmarked nodes memo).card := by
  have hself : AList.lookup a (memo.insert a x) ≠ none := by
    rw [AssocMap.lookup_insert_eq, if_pos rfl]
    simp
  refine Finset.card_lt_card (Finset.ssubset_iff_of_subset ?_ |>.2 ⟨a, mem_unmarked.2 ⟨ha, hn⟩, ?_⟩)
  · intro b hb
    obtain ⟨hin, hb⟩ := mem_unmarked.1 hb
    rw [AssocMap.lookup_insert_eq] at hb
    split at hb
    · cases hb
    · exact mem_unmarked.2 ⟨hin, hb⟩
  · intro hin
    exact hself (mem_unmarked.1 hin).2

/-! ### The walk -/

omit [DecidableEq N] in
theorem moved_cons : g.Moved (a :: inputs) label ↔
    (∃ found, g a = some found ∧ label < found.reflects) ∨ g.Moved inputs label := by
  simp only [Moved, List.exists_mem_cons_iff]

omit [DecidableEq N] in
/-- An input that has not moved counts with how far it is good. -/
theorem good_cons (hn : ¬ ∃ found, g a = some found ∧ label < found.reflects) (f : N → Nat) (n : Nat) :
    g.good label f (a :: inputs) n = g.good label f inputs (min n (f a)) := by
  unfold good
  by_cases hm : g.Moved inputs label
  · rw [if_pos (moved_cons.2 (Or.inr hm)), if_pos hm]
  · rw [if_neg hm, if_neg fun hc => (moved_cons.1 hc).elim hn hm, List.map_cons, List.foldr_cons,
      min_comm n, foldr_min_comm]

omit [DecidableEq N] in
theorem good_moved (hm : g.Moved inputs label) (f : N → Nat) (n : Nat) :
    g.good label f inputs n = label := if_pos hm

theorem Learns.refl {memo : Memo N} (hm : Honest h target b memo) : Learns h target memo memo :=
  ⟨hm.known, fun hn => hn, fun hn => hn⟩

theorem Learns.trans {memo memo' memo'' : Memo N} (hm : Learns h target memo memo')
    (hm' : Learns h target memo' memo'') : Learns h target memo memo'' :=
  ⟨hm'.known, fun hn => hm.busy (hm'.busy hn), fun hn => hm'.marked (hm.marked hn)⟩

theorem Honest.learns {memo memo' : Memo N} (hm : Honest h target b memo)
    (hl : Learns h target memo memo') : Honest h target b memo' :=
  ⟨hl.known, fun hn => hm.busy (hl.busy hn)⟩

theorem recalled {fuel : Nat} {recurse : List N → Nat → Memo N → Nat × Memo N}
    (hrec : ∀ {d inputs inner memo}, g d = some (.derived inputs inner) → Honest h target d memo →
      (unmarked nodes memo).card < fuel →
      (recurse inputs inner memo).1 = bound h target d ∧ Learns h target memo (recurse inputs inner memo).2)
    (hu : g.Uses b a) {inner : Nat} (ha : g a = some (.derived inputs inner)) {memo : Memo N}
    (hm : Honest h target b memo) (hfuel : (unmarked nodes memo).card ≤ fuel) :
    ∃ memo', (match memo.lookup a with
      | some (some known) => (known, memo)
      | some none => (inner, memo)
      | none => ((recurse inputs inner (memo.insert a none)).1,
          (recurse inputs inner (memo.insert a none)).2.insert a
            (some (recurse inputs inner (memo.insert a none)).1))) = (bound h target a, memo') ∧
      Learns h target memo memo' := by
  cases hl : memo.lookup a with
  | some mark =>
    cases mark with
    | some known => exact ⟨memo, by rw [hm.known hl], Learns.refl h hm⟩
    | none =>
      -- An input that is being found out leads to the record, which uses it.
      have hcycle : Relation.TransGen g.Uses b b := Relation.TransGen.head' hu (hm.busy hl)
      exact absurd hcycle (h.apart b)
  | none =>
    have hstored : a ∈ nodes := h.listed (by rw [ha]; simp)
    have hinner : Honest h target a (memo.insert a none) := by
      constructor
      · intro c x hc
        rw [AssocMap.lookup_insert_eq] at hc
        split at hc
        · cases hc
        · exact hm.known hc
      · intro c hc
        rw [AssocMap.lookup_insert_eq] at hc
        split at hc
        · rename_i heq
          rw [heq]
          exact Relation.ReflTransGen.refl
        · exact (hm.busy hc).tail hu
    obtain ⟨hv, hlearn⟩ := hrec ha hinner ((unmarked_insert hstored hl none).trans_le hfuel)
    refine ⟨_, by rw [hv], ?_, ?_, ?_⟩
    · intro c x hc
      rw [AssocMap.lookup_insert_eq] at hc
      split at hc
      · rename_i heq
        cases hc
        rw [heq, ← hv]
      · exact hlearn.known hc
    · intro c hc
      rw [AssocMap.lookup_insert_eq] at hc
      split at hc
      · cases hc
      · rename_i hne
        have hold := hlearn.busy hc
        rwa [AssocMap.lookup_insert_eq, if_neg hne] at hold
    · intro c hc
      rw [AssocMap.lookup_insert_eq]
      split
      · simp
      · rename_i hne
        refine hlearn.marked ?_
        rwa [AssocMap.lookup_insert_eq, if_neg hne]

theorem look_good {fuel : Nat} {recurse : List N → Nat → Memo N → Nat × Memo N}
    (hrec : ∀ {d inputs inner memo}, g d = some (.derived inputs inner) → Honest h target d memo →
      (unmarked nodes memo).card < fuel →
      (recurse inputs inner memo).1 = bound h target d ∧ Learns h target memo (recurse inputs inner memo).2)
    {rest : List N} (hrest : ∀ a ∈ rest, g.Uses b a) {acc : Nat} (hacc : acc ≤ target) {memo : Memo N}
    (hm : Honest h target b memo) (hfuel : (unmarked nodes memo).card ≤ fuel) :
    (g.look label recurse rest acc memo).1 = g.good label (bound h target) rest acc ∧
      Learns h target memo (g.look label recurse rest acc memo).2 := by
  induction rest generalizing acc memo with
  | nil =>
    have hnot : ¬ g.Moved [] label := by
      rintro ⟨a, ha, _⟩
      cases ha
    rw [look, good, if_neg hnot]
    exact ⟨rfl, Learns.refl h hm⟩
  | cons a rest ih =>
    obtain ⟨hu, hrest⟩ := List.forall_mem_cons.1 hrest
    rw [look]
    cases ha : g a with
    | none =>
      have hnot : ¬ ∃ found, g a = some found ∧ label < found.reflects := by simp [ha]
      have hground : bound h target a = target := bound_ground h (by simp [ha])
      rw [good_cons hnot, hground, min_eq_left hacc]
      exact ih hrest hacc hm hfuel
    | some found =>
      dsimp only
      by_cases hlt : label < found.reflects
      · rw [if_pos hlt, good_moved (moved_cons.2 (Or.inl ⟨found, ha, hlt⟩))]
        exact ⟨rfl, Learns.refl h hm⟩
      · have hnot : ¬ ∃ found, g a = some found ∧ label < found.reflects := by
          rintro ⟨found', ha', hlt'⟩
          rw [ha] at ha'
          cases ha'
          exact hlt hlt'
        rw [if_neg hlt, good_cons hnot]
        cases found with
        | source landed =>
          have hground : bound h target a = target := bound_ground h (by simp [ha])
          rw [hground, min_eq_left hacc]
          exact ih hrest hacc hm hfuel
        | derived inputs inner =>
          obtain ⟨memo', heq, hlearn⟩ := recalled h hrec hu ha hm hfuel
          simp only [heq]
          have hfuel' := (unmarked_mono hlearn.marked).trans hfuel
          obtain ⟨hv, hl⟩ := ih hrest (min_le_of_left_le hacc) (hm.learns h hlearn) hfuel'
          exact ⟨hv, hlearn.trans h hl⟩

theorem walk_good {fuel : Nat} (hb : g b = some (.derived inputs label)) {order : List N}
    (horder : ∀ a ∈ order, a ∈ inputs) {memo : Memo N} (hm : Honest h target b memo)
    (hfuel : (unmarked nodes memo).card < fuel) :
    (g.walk target fuel order label memo).1 = g.good label (bound h target) order target ∧
      Learns h target memo (g.walk target fuel order label memo).2 := by
  induction fuel generalizing b inputs label order memo with
  | zero => exact absurd hfuel (Nat.not_lt_zero _)
  | succ fuel ih =>
    rw [walk]
    refine look_good h (fun {d inputs inner memo} hd hm hfuel => ?_) (fun a ha => ?_) (le_refl target) hm
      (Nat.le_of_lt_succ hfuel)
    · rw [bound_derived h hd]
      exact ih hd (fun _ ha => ha) hm hfuel
    · exact ⟨inputs, label, hb, horder a ha⟩

/-! ### The composed watermark -/

/-- The least label of a record's whole chain that has been overtaken, and no more than the target. -/
noncomputable def composed (g : Graph N) (target : Nat) (a : N) : Nat :=
  sInf {x | x = target ∨ ∃ c, g.Chain a c ∧ g.Overtaken c x}

omit [DecidableEq N] in
theorem le_composed {x : Nat} : x ≤ g.composed target a ↔
    x ≤ target ∧ ∀ c label, g.Chain a c → g.Overtaken c label → x ≤ label := by
  rw [composed, le_csInf_iff (OrderBot.bddBelow _) ⟨target, Or.inl rfl⟩]
  constructor
  · intro hx
    exact ⟨hx target (Or.inl rfl), fun c label hc ho => hx label (Or.inr ⟨c, hc, ho⟩)⟩
  · rintro ⟨ht, hx⟩ y (rfl | ⟨c, hc, ho⟩)
    · exact ht
    · exact hx c y hc ho

omit [DecidableEq N] in
theorem chain_derived (hb : g b = some (.derived inputs label)) {c : N} :
    g.Chain b c ↔ b = c ∨ ∃ a ∈ inputs, g.Chain a c := by
  constructor
  · intro hc
    rcases Relation.ReflTransGen.cases_head hc with rfl | ⟨a, hu, hc⟩
    · exact Or.inl rfl
    · obtain ⟨inputs', label', hb', ha⟩ := hu
      rw [hb] at hb'
      cases hb'
      exact Or.inr ⟨a, ha, hc⟩
  · rintro (rfl | ⟨a, ha, hc⟩)
    · exact Relation.ReflTransGen.refl
    · exact Relation.ReflTransGen.head ⟨inputs, label, hb, ha⟩ hc

omit [DecidableEq N] in
theorem bound_le_input (hb : g b = some (.derived inputs label)) (hm : ¬ g.Moved inputs label)
    (ha : a ∈ inputs) : bound h target b ≤ min target (bound h target a) := by
  rw [bound_derived h hb, good, if_neg hm]
  obtain ⟨ht, hall⟩ := le_foldr_min.1 (le_refl ((inputs.map (bound h target)).foldr min target))
  exact le_min ht (hall _ (List.mem_map_of_mem ha))

omit [DecidableEq N] in
theorem bound_moved (hb : g b = some (.derived inputs label)) (hm : g.Moved inputs label) :
    bound h target b = label := by
  rw [bound_derived h hb, good_moved hm]

/-- The records with a moved input that a walk comes to, and their labels: it goes no further than the
first of them on each way down. -/
inductive Meets (g : Graph N) : N → N → Nat → Prop where
  | here {b : N} {label : Nat} (ho : g.Overtaken b label) : Meets g b b label
  | there {b a c : N} {label : Nat} (hu : g.Uses b a) (hn : ∀ label, ¬ g.Overtaken b label)
      (hm : Meets g a c label) : Meets g b c label

omit [DecidableEq N] in
theorem overtaken_iff (hb : g b = some (.derived inputs label)) {x : Nat} :
    g.Overtaken b x ↔ x = label ∧ g.Moved inputs label := by
  constructor
  · rintro ⟨inputs', hb', hm⟩
    rw [hb] at hb'
    cases hb'
    exact ⟨rfl, hm⟩
  · rintro ⟨rfl, hm⟩
    exact ⟨inputs, hb, hm⟩

omit [DecidableEq N] in
theorem Overtaken.derived (ho : g.Overtaken b label) : ∃ inputs, g b = some (.derived inputs label) := by
  obtain ⟨inputs, hb, _⟩ := ho
  exact ⟨inputs, hb⟩

omit [DecidableEq N] in
/-- What has a record in its chain that was computed was computed itself. -/
theorem Chain.derived {c : N} (hc : g.Chain a c) (ho : g.Overtaken c label) :
    ∃ inputs label', g a = some (.derived inputs label') := by
  rcases Relation.ReflTransGen.cases_head hc with rfl | ⟨d, ⟨inputs, label', ha, _⟩, _⟩
  · obtain ⟨inputs, ha⟩ := ho.derived
    exact ⟨inputs, label, ha⟩
  · exact ⟨inputs, label', ha⟩

omit [DecidableEq N] in
/-- A record is no better than what a walk from it meets. -/
theorem bound_le_of_meets {c : N} {x : Nat} (hm : g.Meets b c x) : bound h target b ≤ x := by
  induction hm with
  | here ho =>
    obtain ⟨inputs, hb, hm⟩ := ho
    exact (bound_moved h hb hm).le
  | there hu hn hm ih =>
    obtain ⟨inputs, label, hb, ha⟩ := hu
    have hstill : ¬ g.Moved inputs label := fun hm => hn label ⟨inputs, hb, hm⟩
    exact ((bound_le_input h hb hstill ha).trans (min_le_right _ _)).trans ih

omit [DecidableEq N] in
/-- What falls short of the target is the label of something a walk meets. -/
theorem meets_of_bound_lt (b : N) (hlt : bound h target b < target) : ∃ c, g.Meets b c (bound h target b) := by
  induction b using h.wellFounded.induction with
  | _ b ih =>
    by_cases hd : ∃ inputs label, g b = some (.derived inputs label)
    · obtain ⟨inputs, label, hb⟩ := hd
      by_cases hm : g.Moved inputs label
      · exact ⟨b, bound_moved h hb hm ▸ .here ⟨inputs, hb, hm⟩⟩
      · have hleast : ∃ a ∈ inputs, bound h target a ≤ bound h target b := by
          by_contra hnone
          have hmore : bound h target b + 1 ≤ bound h target b := by
            conv_rhs => rw [bound_derived h hb, good, if_neg hm]
            refine le_foldr_min.2 ⟨hlt, fun x hx => ?_⟩
            obtain ⟨a, ha, rfl⟩ := List.mem_map.1 hx
            exact not_le.1 fun hle => hnone ⟨a, ha, hle⟩
          exact absurd hmore (Nat.not_succ_le_self _)
        obtain ⟨a, ha, hle⟩ := hleast
        have heq : bound h target a = bound h target b :=
          le_antisymm hle ((bound_le_input h hb hm ha).trans (min_le_right _ _))
        have hu : g.Uses b a := ⟨inputs, label, hb, ha⟩
        obtain ⟨c, hc⟩ := ih a hu (heq ▸ hlt)
        exact ⟨c, .there hu (fun x ho => hm ((overtaken_iff hb).1 ho).2) (heq ▸ hc)⟩
    · rw [bound_ground h fun inputs label hb => hd ⟨inputs, label, hb⟩] at hlt
      exact absurd hlt (lt_irrefl _)

/-- Nothing of a record's chain has been overtaken; or of what has, something with the least label is met on
a walk from it, and that label is below the target; or the record itself has been, its label is above the
target and nothing it was computed from was computed. -/
def Sees (g : Graph N) (target : Nat) (b : N) : Prop :=
  (∀ c x, g.Chain b c → ¬ g.Overtaken c x) ∨
    (∃ f y, g.Meets b f y ∧ y < target ∧ ∀ c x, g.Chain b c → g.Overtaken c x → y ≤ x) ∨
      ∃ x, g.Overtaken b x ∧ target < x ∧
        ∀ a, g.Uses b a → ∀ inputs label, g a ≠ some (.derived inputs label)

omit [DecidableEq N] in
/-- **Where a walk is honest.**  What it says of a record is at most what each computed input is good for, and
short of the target where anything has been overtaken, exactly where it sees the worst of it. -/
theorem sees_iff (hb : g b = some (.derived inputs label)) :
    ((∀ a ∈ inputs, (∃ inputs' label', g a = some (.derived inputs' label')) →
        bound h target b ≤ g.composed target a) ∧
      (bound h target b = target → ∀ c x, g.Chain b c → ¬ g.Overtaken c x)) ↔ g.Sees target b := by
  constructor
  · rintro ⟨hle, hne⟩
    by_cases hover : ∃ c x, g.Chain b c ∧ g.Overtaken c x
    · obtain ⟨c, x, hc, ho⟩ := hover
      have hne : bound h target b ≠ target := fun heq => hne heq c x hc ho
      -- below the record itself, whatever has been overtaken lies under a computed input
      have hunder (hself : ∀ x, g.Overtaken b x → bound h target b ≤ x) (d : N) (y : Nat)
          (hd : g.Chain b d) (ho : g.Overtaken d y) : bound h target b ≤ y := by
        rcases (chain_derived hb).1 hd with rfl | ⟨a, ha, hd⟩
        · exact hself y ho
        · exact (le_composed.1 (hle a ha (hd.derived ho))).2 d y hd ho
      by_cases hm : g.Moved inputs label
      · have hbound : bound h target b = label := bound_moved h hb hm
        have ho : g.Overtaken b label := ⟨inputs, hb, hm⟩
        have hself : ∀ x, g.Overtaken b x → bound h target b ≤ x := fun x hx =>
          hbound.le.trans ((overtaken_iff hb).1 hx).1.ge
        rcases lt_or_gt_of_ne hne with hlt | hgt
        · exact Or.inr (Or.inl ⟨b, label, .here ho, hbound ▸ hlt, hbound ▸ hunder hself⟩)
        · refine Or.inr (Or.inr ⟨label, ho, hbound ▸ hgt, ?_⟩)
          rintro a ⟨inputs', label', hb', ha⟩ inner label'' hcomputed
          rw [hb] at hb'
          cases hb'
          exact absurd (le_composed.1 (hle a ha ⟨inner, label'', hcomputed⟩)).1 (not_le.2 hgt)
      · have hlt : bound h target b < target := by
          refine lt_of_le_of_ne ?_ hne
          rw [bound_derived h hb, good, if_neg hm]
          exact (le_foldr_min.1 (le_refl _)).1
        obtain ⟨f, hf⟩ := meets_of_bound_lt h b hlt
        exact Or.inr (Or.inl ⟨f, _, hf, hlt, hunder fun x hx => absurd ((overtaken_iff hb).1 hx).2 hm⟩)
    · exact Or.inl fun c x hc ho => hover ⟨c, x, hc, ho⟩
  · have hchain {a c : N} (ha : a ∈ inputs) (hc : g.Chain a c) : g.Chain b c :=
      (chain_derived hb).2 (Or.inr ⟨a, ha, hc⟩)
    rintro (hnone | ⟨f, y, hf, hlt, hleast⟩ | ⟨x, ho, hlt, hground⟩)
    · refine ⟨fun a ha _ => le_composed.2 ⟨?_, fun c x hc ho => absurd ho (hnone c x (hchain ha hc))⟩,
        fun _ => hnone⟩
      have hm : ¬ g.Moved inputs label := fun hm =>
        hnone b label Relation.ReflTransGen.refl ⟨inputs, hb, hm⟩
      rw [bound_derived h hb, good, if_neg hm]
      exact (le_foldr_min.1 (le_refl _)).1
    · have hle : bound h target b ≤ y := bound_le_of_meets h hf
      refine ⟨fun a ha _ => le_composed.2 ⟨hle.trans hlt.le, fun c x hc ho => ?_⟩, fun heq => ?_⟩
      · exact hle.trans (hleast c x (hchain ha hc) ho)
      · exact absurd (heq ▸ hle) (not_le.2 hlt)
    · obtain ⟨rfl, hm⟩ := (overtaken_iff hb).1 ho
      refine ⟨fun a ha hd => ?_, fun heq => ?_⟩
      · obtain ⟨inner, label', ha'⟩ := hd
        exact absurd ha' (hground a ⟨inputs, x, hb, ha⟩ inner label')
      · rw [bound_moved h hb hm] at heq
        exact absurd heq hlt.ne'

/-! ### The order of inputs -/

end Bound

/-- Graphs of the same records, each with its inputs in any order. -/
def Like (g g' : Graph N) : Prop :=
  ∀ a, match g a, g' a with
    | none, none => True
    | some (.source landed), some (.source landed') => landed = landed'
    | some (.derived inputs label), some (.derived inputs' label') => inputs.Perm inputs' ∧ label = label'
    | _, _ => False

omit [DecidableEq N] in
theorem Like.refl (g : Graph N) : g.Like g := by
  intro a
  cases g a with
  | none => trivial
  | some found => cases found <;> simp

section Like

variable {g' : Graph N} {inputs inputs' : List N} {label target : Nat} {a b : N} (hlike : g.Like g')
include hlike

omit [DecidableEq N] in
theorem Like.derived (hb : g b = some (.derived inputs label)) :
    ∃ inputs', g' b = some (.derived inputs' label) ∧ inputs.Perm inputs' := by
  have hab := hlike b
  rw [hb] at hab
  cases hb' : g' b with
  | none => rw [hb'] at hab; exact hab.elim
  | some found =>
    rw [hb'] at hab
    cases found with
    | source landed => exact hab.elim
    | derived inputs' label' =>
      obtain ⟨hp, rfl⟩ := hab
      exact ⟨inputs', rfl, hp⟩

omit [DecidableEq N] in
theorem Like.symm : g'.Like g := by
  intro a
  have hab := hlike a
  revert hab
  cases g a with
  | none => cases g' a <;> simp
  | some found =>
    cases g' a with
    | none => cases found <;> simp
    | some found' =>
      cases found <;> cases found' <;> simp only [imp_self, eq_comm]
      rintro ⟨hp, hl⟩
      exact ⟨hp.symm, hl⟩

omit [DecidableEq N] in
theorem Like.reflects {found : Record N} (ha : g a = some found) :
    ∃ found', g' a = some found' ∧ found'.reflects = found.reflects := by
  have hab := hlike a
  rw [ha] at hab
  cases ha' : g' a with
  | none => rw [ha'] at hab; cases found <;> exact hab.elim
  | some found' =>
    rw [ha'] at hab
    refine ⟨found', rfl, ?_⟩
    cases found with
    | source landed =>
      cases found' with
      | source landed' => exact hab.symm
      | derived inputs' label' => exact hab.elim
    | derived inputs label =>
      cases found' with
      | source landed' => exact hab.elim
      | derived inputs' label' => exact hab.2.symm

omit [DecidableEq N] in
theorem Like.moved (hp : inputs.Perm inputs') (hm : g.Moved inputs label) : g'.Moved inputs' label := by
  obtain ⟨a, ha, found, hg, hlt⟩ := hm
  obtain ⟨found', hg', hr⟩ := hlike.reflects hg
  exact ⟨a, hp.subset ha, found', hg', by rwa [hr]⟩

omit [DecidableEq N] in
theorem Like.uses (hu : g.Uses b a) : g'.Uses b a := by
  obtain ⟨inputs, label, hb, ha⟩ := hu
  obtain ⟨inputs', hb', hp⟩ := hlike.derived hb
  exact ⟨inputs', label, hb', hp.subset ha⟩

omit [DecidableEq N] in
theorem Like.acyclic (h : g.Acyclic nodes) : g'.Acyclic nodes where
  listed {a} ha := by
    refine h.listed fun hn => ha ?_
    have hab := hlike a
    rw [hn] at hab
    cases hg : g' a with
    | none => rfl
    | some found => rw [hg] at hab; exact hab.elim
  apart a hc := h.apart a (Relation.TransGen.lift id (fun _ _ hu => hlike.symm.uses hu) a a hc)

omit [DecidableEq N] in
theorem Like.good (hp : inputs.Perm inputs') {f f' : N → Nat} (hf : ∀ a ∈ inputs, f' a = f a) (n : Nat) :
    g'.good label f' inputs' n = g.good label f inputs n := by
  unfold Graph.good
  by_cases hm : g.Moved inputs label
  · rw [if_pos hm, if_pos (hlike.moved hp hm)]
  · rw [if_neg hm, if_neg fun hm' => hm (hlike.symm.moved hp.symm hm')]
    refine eq_of_forall_le_iff fun m => ?_
    simp only [le_foldr_min, List.forall_mem_map, ← hp.mem_iff]
    refine and_congr_right fun _ => forall₂_congr fun a ha => ?_
    rw [hf a ha]

omit [DecidableEq N] in
/-- The order of inputs is of no consequence. -/
theorem Like.bound {nodes' : List N} (h : g.Acyclic nodes) (h' : g'.Acyclic nodes') (b : N) :
    bound h' target b = bound h target b := by
  induction b using h.wellFounded.induction with
  | _ b ih =>
    by_cases hd : ∃ inputs label, g b = some (.derived inputs label)
    · obtain ⟨inputs, label, hb⟩ := hd
      obtain ⟨inputs', hb', hp⟩ := hlike.derived hb
      rw [bound_derived h hb, bound_derived h' hb']
      exact hlike.good hp (fun a ha => ih a ⟨inputs, label, hb, ha⟩) target
    · rw [bound_ground h fun inputs label hb => hd ⟨inputs, label, hb⟩]
      refine bound_ground h' fun inputs label hb => ?_
      obtain ⟨inputs', hb', _⟩ := hlike.symm.derived hb
      exact hd ⟨inputs', label, hb'⟩

end Like

end Graph

end Provenance

end BorgCore
