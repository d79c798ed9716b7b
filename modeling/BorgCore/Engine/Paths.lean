import BorgCore.Engine.Runs

/-!
# Read paths

A read path climbs from a branch to the layer it was forked at, and from there to the branch that
layer belongs to.  `outward` is one step of the climb.  Branch ids fall along it, fork points fall
along it, and both are fixed when the branch is made: only the bound of the innermost segment moves.
-/

namespace BorgCore

namespace Log

variable {log log' : Log} {branch current parent : BranchId} {origin bound : LayerId}
  {requested : Option LayerId} {fuel : Nat}

/-- The branch a branch was forked from, and the layer it was forked at. -/
def outward (log : Log) (branch : BranchId) : Option (BranchId × LayerId) :=
  ((log.branch branch).bind Branch.origin).bind fun origin =>
    (log.layer origin).map fun layer => (layer.branch, origin)

def clamp (requested : Option LayerId) (origin : LayerId) : LayerId :=
  match requested with
  | some layer => min layer origin
  | none => origin

theorem segmentsFrom_succ :
    log.segmentsFrom requested (fuel + 1) current bound =
      (current, bound) ::
        match log.outward current with
        | none => []
        | some (parent, origin) => log.segmentsFrom requested fuel parent (clamp requested origin) := by
  rw [segmentsFrom, outward]
  cases (log.branch current).bind Branch.origin with
  | none => rfl
  | some origin =>
    rw [Option.bind_some]
    cases hl : log.layer origin with
    | none => simp only [hl, Option.map_none]
    | some layer =>
      simp only [hl, Option.map_some]
      cases requested <;> rfl

theorem outward_eq_some (h : log.outward branch = some (parent, origin)) :
    ∃ found, log.branches.lookup branch = some found ∧ found.origin = some origin ∧
      log.branchOf origin = some parent := by
  obtain ⟨o, ho, hl⟩ := Option.bind_eq_some_iff.1 h
  obtain ⟨found, hf, hfo⟩ := Option.bind_eq_some_iff.1 ho
  obtain ⟨layer, hlayer, he⟩ := Option.map_eq_some_iff.1 hl
  cases he
  exact ⟨found, hf, hfo, by simp [branchOf, hlayer]⟩

theorem outward_of {found : Branch} (hf : log.branches.lookup branch = some found)
    (ho : found.origin = some origin) (hp : log.branchOf origin = some parent) :
    log.outward branch = some (parent, origin) := by
  obtain ⟨layer, hl, rfl⟩ := Option.map_eq_some_iff.1 hp
  simp [outward, Log.branch, hf, ho, hl]

/-- A path is a matter of the heads and of where branches were forked. -/
theorem readPath_congr (hh : log'.heads = log.heads) (ho : ∀ branch, log'.outward branch = log.outward branch)
    (branch : BranchId) (requested : Option LayerId) :
    log'.readPath branch requested = log.readPath branch requested := by
  have hsegments (fuel : Nat) (current : BranchId) (bound : LayerId) :
      log'.segmentsFrom requested fuel current bound = log.segmentsFrom requested fuel current bound := by
    induction fuel generalizing current bound with
    | zero => rfl
    | succ fuel ih =>
      rw [segmentsFrom_succ, segmentsFrom_succ, ho]
      simp only [ih]
  simp only [readPath, hsegments, head, hh]

/-! ### The climb goes down -/

theorem Sound.outward_lt (h : log.Sound) (ho : log.outward branch = some (parent, origin)) :
    parent < branch := by
  obtain ⟨found, hf, hfo, hp⟩ := outward_eq_some ho
  obtain ⟨_, _, hall⟩ := h.branch_id hf
  obtain ⟨parent', hp', hlt⟩ := hall origin hfo
  rw [hp] at hp'
  cases hp'
  exact hlt

theorem Sound.outward_registered (h : log.Sound)
    (ho : log.outward branch = some (parent, origin)) : (log.branches.lookup parent).isSome := by
  obtain ⟨_, _, _, hp⟩ := outward_eq_some ho
  obtain ⟨layer, hl, rfl⟩ := Option.map_eq_some_iff.1 hp
  obtain ⟨found, hf, _⟩ := h.layer_branch hl
  rw [hf]
  rfl

theorem Sound.outward_origin_lt (h : log.Sound) {grandparent : BranchId} {origin' : LayerId}
    (ho : log.outward branch = some (parent, origin))
    (ho' : log.outward parent = some (grandparent, origin')) : origin' < origin := by
  obtain ⟨_, _, _, hp⟩ := outward_eq_some ho
  obtain ⟨found, hf, hfo, _⟩ := outward_eq_some ho'
  obtain ⟨layer, hl, rfl⟩ := Option.map_eq_some_iff.1 hp
  obtain ⟨found', hf', hlt⟩ := h.layer_branch hl
  rw [hf] at hf'
  cases hf'
  exact hlt origin' hfo

theorem Sound.segmentsFrom_le (h : log.Sound) {segment : BranchId × LayerId}
    (hs : segment ∈ log.segmentsFrom requested fuel current bound) : segment.1 ≤ current := by
  induction fuel generalizing current bound with
  | zero => cases hs
  | succ fuel ih =>
    rw [segmentsFrom_succ] at hs
    rcases List.mem_cons.1 hs with rfl | hs
    · exact Nat.le_refl _
    · cases ho : log.outward current with
      | none =>
        rw [ho] at hs
        cases hs
      | some next =>
        rw [ho] at hs
        exact Nat.le_trans (ih hs) (Nat.le_of_lt (h.outward_lt ho))

theorem Sound.segmentsFrom_nodup (h : log.Sound) :
    ((log.segmentsFrom requested fuel current bound).map Prod.fst).Nodup := by
  induction fuel generalizing current bound with
  | zero => exact List.nodup_nil
  | succ fuel ih =>
    rw [segmentsFrom_succ, List.map_cons]
    cases ho : log.outward current with
    | none => exact List.nodup_singleton _
    | some next =>
      refine List.nodup_cons.2 ⟨fun hm => ?_, ih⟩
      obtain ⟨segment, hs, he⟩ := List.mem_map.1 hm
      have hle := h.segmentsFrom_le hs
      have hlt := h.outward_lt ho
      rw [he] at hle
      exact absurd hlt (Nat.not_lt.2 hle)

theorem Sound.segmentsFrom_fuel (h : log.Sound) {fuel' : Nat} (hf : current < fuel)
    (hf' : current < fuel') :
    log.segmentsFrom requested fuel current bound =
      log.segmentsFrom requested fuel' current bound := by
  induction fuel generalizing current bound fuel' with
  | zero => cases hf
  | succ fuel ih =>
    cases fuel' with
    | zero => cases hf'
    | succ fuel' =>
      rw [segmentsFrom_succ, segmentsFrom_succ]
      cases ho : log.outward current with
      | none => rfl
      | some next =>
        have hlt := h.outward_lt ho
        simp only
        rw [ih (Nat.lt_of_lt_of_le hlt (Nat.lt_succ_iff.1 hf))
          (Nat.lt_of_lt_of_le hlt (Nat.lt_succ_iff.1 hf'))]

/-- A request at or above every fork point of the path clamps nothing. -/
theorem Sound.segmentsFrom_clamp (h : log.Sound) {layer : LayerId}
    (hle : ∀ {parent origin}, log.outward current = some (parent, origin) → origin ≤ layer) :
    log.segmentsFrom (some layer) fuel current bound = log.segmentsFrom none fuel current bound := by
  induction fuel generalizing current bound with
  | zero => rfl
  | succ fuel ih =>
    rw [segmentsFrom_succ, segmentsFrom_succ]
    cases ho : log.outward current with
    | none => rfl
    | some next =>
      obtain ⟨parent, origin⟩ := next
      have hmin : clamp (some layer) origin = clamp none origin := Nat.min_eq_right (hle ho)
      simp only [hmin]
      rw [ih fun ho' => Nat.le_trans (Nat.le_of_lt (h.outward_origin_lt ho ho')) (hle ho)]

/-- **A branch reads its own layers, then its parent as the parent was at the fork point.** -/
theorem Sound.readPath_none (h : log.Sound) (branch : BranchId) :
    (log.readPath branch none).segments =
      (branch, (log.head branch).getD 0) ::
        match log.outward branch with
        | none => []
        | some (parent, origin) => (log.readPath parent (some origin)).segments := by
  unfold readPath
  rw [segmentsFrom_succ]
  cases ho : log.outward branch with
  | none => rfl
  | some next =>
    obtain ⟨parent, origin⟩ := next
    have hle {parent' origin'} (ho' : log.outward parent = some (parent', origin')) :
        origin' ≤ origin := Nat.le_of_lt (h.outward_origin_lt ho ho')
    simp only
    rw [h.segmentsFrom_clamp hle, h.segmentsFrom_fuel (h.outward_lt ho) (Nat.lt_succ_self parent)]
    rfl

/-- At one of its own layers, a branch reads its layers up to there, then its parent as before. -/
theorem Sound.readPath_some (h : log.Sound) {layer : LayerId} (hb : log.branchOf layer = some branch) :
    (log.readPath branch (some layer)).segments =
      (branch, layer) ::
        match log.outward branch with
        | none => []
        | some (parent, origin) => (log.readPath parent (some origin)).segments := by
  unfold readPath
  rw [segmentsFrom_succ]
  cases ho : log.outward branch with
  | none => rfl
  | some next =>
    obtain ⟨parent, origin⟩ := next
    have hlt : origin < layer := by
      obtain ⟨found, hf, hfo, _⟩ := outward_eq_some ho
      obtain ⟨stored, hl, rfl⟩ := Option.map_eq_some_iff.1 hb
      obtain ⟨found', hf', hall⟩ := h.layer_branch hl
      rw [hf] at hf'
      cases hf'
      exact hall origin hfo
    have hle {parent' origin'} (ho' : log.outward parent = some (parent', origin')) :
        origin' ≤ origin := Nat.le_of_lt (h.outward_origin_lt ho ho')
    have hmin : clamp (some layer) origin = origin := Nat.min_eq_right (Nat.le_of_lt hlt)
    simp only [hmin]
    rw [h.segmentsFrom_clamp fun ho' => Nat.le_trans (hle ho') (Nat.le_of_lt hlt),
      h.segmentsFrom_clamp hle, h.segmentsFrom_fuel (h.outward_lt ho) (Nat.lt_succ_self parent)]
    rfl

theorem segmentsFrom_bound_le {layer : LayerId} (hb : bound ≤ layer) {segment : BranchId × LayerId}
    (hs : segment ∈ log.segmentsFrom (some layer) fuel current bound) : segment.2 ≤ layer := by
  induction fuel generalizing current bound with
  | zero => cases hs
  | succ fuel ih =>
    rw [segmentsFrom_succ] at hs
    rcases List.mem_cons.1 hs with rfl | hs
    · exact hb
    · cases ho : log.outward current with
      | none =>
        rw [ho] at hs
        cases hs
      | some next =>
        rw [ho] at hs
        exact ih (Nat.min_le_left _ _) hs

/-! ### A run moves no segment but the first -/

theorem Grows.outward (hg : Grows log log') (hb : (log.branches.lookup branch).isSome)
    (h : log.Sound) : log'.outward branch = log.outward branch := by
  obtain ⟨found, hf⟩ := Option.isSome_iff_exists.1 hb
  cases ho : found.origin with
  | none => simp [Log.outward, Log.branch, hf, hg.branches hf, ho]
  | some origin =>
    obtain ⟨parent, hp, _⟩ := (h.branch_id hf).2.2 origin ho
    rw [outward_of hf ho hp, outward_of (hg.branches hf) ho (hg.branchOf hp)]

theorem Grows.segmentsFrom (hg : Grows log log') (h : log.Sound)
    (hb : (log.branches.lookup current).isSome) :
    log'.segmentsFrom requested fuel current bound =
      log.segmentsFrom requested fuel current bound := by
  induction fuel generalizing current bound with
  | zero => rfl
  | succ fuel ih =>
    rw [segmentsFrom_succ, segmentsFrom_succ, hg.outward hb h]
    cases ho : log.outward current with
    | none => rfl
    | some next =>
      simp only
      rw [ih (h.outward_registered ho)]

theorem Grows.readPath_some (hg : Grows log log') (h : log.Sound)
    (hb : (log.branches.lookup branch).isSome) (layer : LayerId) :
    log'.readPath branch (some layer) = log.readPath branch (some layer) := by
  unfold readPath
  rw [hg.segmentsFrom h hb]
  rfl

/-! ### Reading the timeline -/

/-- The record of a cell at a version that a committed layer of a branch holds. -/
def recordAt (log : Log) (cell : CellRef) (version : DefVersion) (branch : BranchId)
    (id : LayerId) : Option Event :=
  (log.commitAt id).bind fun commit =>
    if commit.branch = branch then lastOf cell version commit.events else none

theorem recordAt_isSome_iff {cell : CellRef} {version : DefVersion} {id : LayerId} :
    (log.recordAt cell version branch id).isSome ↔ ∃ commit, log.commitAt id = some commit ∧
      commit.branch = branch ∧ ∃ event ∈ commit.events, event.at = ⟨cell, version⟩ := by
  unfold recordAt
  cases hc : log.commitAt id with
  | none => simp
  | some commit =>
    simp only [Option.bind_some, Option.some.injEq, exists_eq_left']
    split
    · rename_i hb
      constructor
      · intro hs
        obtain ⟨event, he⟩ := Option.isSome_iff_exists.1 hs
        exact ⟨hb, event, lastOf_mem he⟩
      · rintro ⟨_, event, hm, hat⟩
        exact lastOf_isSome hm hat
    · rename_i hb
      simp [hb]

/-- **A read answers from the timeline.** -/
theorem Sound.getCell (h : log.Sound) (path : ReadPath) (cell : CellRef) (version : DefVersion) :
    log.storage.getCell path cell version =
      .ok ((Timeline.nearest (log.recordAt cell version) path.segments).map fun entry =>
        ⟨entry.2, entry.1⟩) := by
  have heq : (log.storage.recordAt · cell version) = log.recordAt cell version :=
    funext fun branch => funext fun id => h.recordAt_eq branch cell version id
  rw [h.storage.getCell, heq]

end Log

end BorgCore
