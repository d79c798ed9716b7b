import Mathlib.Data.List.Basic

/-!
# Timelines

A timeline holds an entry at some of its positions.  Reading one at a bound answers its latest entry
at or below the bound; a path of bounded timelines answers from the first one that holds an entry.
-/

namespace BorgCore

namespace Timeline

variable {α β : Type}

/-- The latest entry at or below a bound, with its position. -/
def latest (entries : Nat → Option α) : Nat → Option (Nat × α)
  | 0 => (entries 0).map fun a => (0, a)
  | n + 1 =>
    match entries (n + 1) with
    | some a => some (n + 1, a)
    | none => latest entries n

variable {entries entries' : Nat → Option α} {n m i : Nat} {a : α}

theorem latest_eq_some_iff :
    latest entries n = some (i, a) ↔
      i ≤ n ∧ entries i = some a ∧ ∀ j, i < j → j ≤ n → entries j = none := by
  induction n with
  | zero =>
    rw [latest]
    constructor
    · intro h
      obtain ⟨b, hb, he⟩ := Option.map_eq_some_iff.1 h
      cases he
      exact ⟨Nat.le_refl 0, hb, fun j h₀ h₁ => by omega⟩
    · rintro ⟨hi, ha, _⟩
      obtain rfl : i = 0 := by omega
      simp [ha]
  | succ n ih =>
    rw [latest]
    split
    · rename_i b hb
      constructor
      · rintro ⟨⟩
        exact ⟨Nat.le_refl _, hb, fun j h₀ h₁ => by omega⟩
      · rintro ⟨hi, ha, hgap⟩
        obtain rfl : i = n + 1 := by
          by_contra hne
          have := hgap (n + 1) (by omega) (Nat.le_refl _)
          rw [hb] at this
          cases this
        rw [ha] at hb
        cases hb
        rfl
    · rename_i hb
      rw [ih]
      constructor
      · rintro ⟨hi, ha, hgap⟩
        refine ⟨by omega, ha, fun j h₀ h₁ => ?_⟩
        by_cases hj : j = n + 1
        · rw [hj, hb]
        · exact hgap j h₀ (by omega)
      · rintro ⟨hi, ha, hgap⟩
        have hne : i ≠ n + 1 := fun he => by rw [he, hb] at ha; cases ha
        exact ⟨by omega, ha, fun j h₀ h₁ => hgap j h₀ (by omega)⟩

theorem latest_eq_none_iff : latest entries n = none ↔ ∀ j ≤ n, entries j = none := by
  induction n with
  | zero =>
    rw [latest, Option.map_eq_none_iff]
    constructor
    · intro h j hj
      obtain rfl : j = 0 := by omega
      exact h
    · exact fun h => h 0 (Nat.le_refl 0)
  | succ n ih =>
    rw [latest]
    split
    · rename_i b hb
      refine ⟨fun h => (Option.some_ne_none _ h).elim, fun h => ?_⟩
      rw [h (n + 1) (Nat.le_refl _)] at hb
      cases hb
    · rename_i hb
      rw [ih]
      constructor
      · intro h j hj
        by_cases he : j = n + 1
        · rw [he, hb]
        · exact h j (by omega)
      · exact fun h j hj => h j (by omega)

theorem latest_congr (h : ∀ j ≤ n, entries j = entries' j) : latest entries n = latest entries' n := by
  induction n with
  | zero => rw [latest, latest, h 0 (Nat.le_refl 0)]
  | succ n ih =>
    rw [latest, latest, h (n + 1) (Nat.le_refl _), ih fun j hj => h j (by omega)]

/-- Nothing between two bounds: they answer alike. -/
theorem latest_eq_of_gap (hle : m ≤ n) (h : ∀ j, m < j → j ≤ n → entries j = none) :
    latest entries n = latest entries m := by
  induction n with
  | zero =>
    obtain rfl : m = 0 := by omega
    rfl
  | succ n ih =>
    by_cases hm : m = n + 1
    · rw [hm]
    · rw [latest, h (n + 1) (by omega) (Nat.le_refl _)]
      exact ih (by omega) fun j h₀ h₁ => h j h₀ (by omega)

theorem latest_eq_of_bounds (hm : ∀ j, (entries j).isSome → j ≤ m)
    (hn : ∀ j, (entries j).isSome → j ≤ n) : latest entries m = latest entries n := by
  have hnone {j k : Nat} (hk : ∀ j, (entries j).isSome → j ≤ k) (hlt : k < j) : entries j = none :=
    Option.not_isSome_iff_eq_none.1 fun hs => absurd (hk j hs) (Nat.not_le.2 hlt)
  rcases Nat.le_total m n with hle | hle
  · exact (latest_eq_of_gap hle fun j hlt _ => hnone hm hlt).symm
  · exact latest_eq_of_gap hle fun j hlt _ => hnone hn hlt

theorem latest_of_top (hle : i ≤ n) (ha : entries i = some a)
    (h : ∀ j, i < j → j ≤ n → entries j = none) : latest entries n = some (i, a) :=
  latest_eq_some_iff.2 ⟨hle, ha, h⟩

/-- Along a path, the first timeline that holds an entry answers. -/
def firstOf (read : β → Option α) : List β → Option α
  | [] => none
  | segment :: outer => (read segment).or (firstOf read outer)

theorem firstOf_congr {read read' : β → Option α} {path : List β}
    (h : ∀ segment ∈ path, read segment = read' segment) :
    firstOf read path = firstOf read' path := by
  induction path with
  | nil => rfl
  | cons segment outer ih =>
    rw [firstOf, firstOf, h segment List.mem_cons_self,
      ih fun s hs => h s (List.mem_cons_of_mem _ hs)]

/-! ### Reading along a path -/

/-- A place along a path of bounded timelines that holds an entry: how far out, and at which
position. -/
def HoldsAt (entries : β → Nat → Option α) (path : List (β × Nat)) (place : Nat × Nat) : Prop :=
  ∃ segment, path[place.1]? = some segment ∧ place.2 ≤ segment.2 ∧
    (entries segment.1 place.2).isSome

/-- The order in which a read tries the places of a path: outward, and downward in a timeline. -/
def AtOrBefore (place place' : Nat × Nat) : Prop :=
  place.1 < place'.1 ∨ place.1 = place'.1 ∧ place'.2 ≤ place.2

/-- The latest entry of the first timeline of a path that holds one. -/
def nearest (entries : β → Nat → Option α) (path : List (β × Nat)) : Option (Nat × α) :=
  firstOf (fun segment => latest (entries segment.1) segment.2) path

section Nearest

variable {read read' : β → Nat → Option α} {path : List (β × Nat)}

theorem holdsAt_zero {segment : β × Nat} :
    HoldsAt read (segment :: path) (0, i) ↔ i ≤ segment.2 ∧ (read segment.1 i).isSome := by
  simp [HoldsAt]

theorem holdsAt_succ {segment : β × Nat} {depth : Nat} :
    HoldsAt read (segment :: path) (depth + 1, i) ↔ HoldsAt read path (depth, i) := by
  simp [HoldsAt]

theorem nearest_cons {segment : β × Nat} {outer : List (β × Nat)} :
    nearest read (segment :: outer) =
      (latest (read segment.1) segment.2).or (nearest read outer) := rfl

theorem nearest_mem (h : nearest read path = some (i, a)) :
    ∃ segment ∈ path, i ≤ segment.2 ∧ read segment.1 i = some a := by
  unfold nearest at h
  induction path with
  | nil => cases h
  | cons segment outer ih =>
    rw [firstOf] at h
    cases hl : latest (read segment.1) segment.2 with
    | some entry =>
      rw [hl, Option.some_or] at h
      cases h
      obtain ⟨hi, ha, _⟩ := latest_eq_some_iff.1 hl
      exact ⟨segment, List.mem_cons_self, hi, ha⟩
    | none =>
      rw [hl, Option.none_or] at h
      obtain ⟨found, hf, hi, ha⟩ := ih h
      exact ⟨found, List.mem_cons_of_mem _ hf, hi, ha⟩

theorem nearest_isSome_iff :
    (nearest read path).isSome ↔ ∃ segment ∈ path, ∃ i ≤ segment.2, (read segment.1 i).isSome := by
  constructor
  · intro hs
    obtain ⟨⟨i, a⟩, hn⟩ := Option.isSome_iff_exists.1 hs
    obtain ⟨segment, hmem, hi, ha⟩ := nearest_mem hn
    exact ⟨segment, hmem, i, hi, by rw [ha]; rfl⟩
  · rintro ⟨segment, hmem, i, hi, hs⟩
    induction path with
    | nil => cases hmem
    | cons first outer ih =>
      rw [nearest_cons]
      cases hl : latest (read first.1) first.2 with
      | some entry => rfl
      | none =>
        rw [Option.none_or]
        rcases List.mem_cons.1 hmem with rfl | hmem
        · rw [latest_eq_none_iff.1 hl i hi] at hs
          cases hs
        · exact ih hmem

/-- Two reads whose first timeline answered in the old one: what is further out does not matter. -/
theorem nearest_cons_eq_iff {segment : β × Nat} {outer : List (β × Nat)} {old : Nat × α}
    (hold : latest (read segment.1) segment.2 = some old)
    (hgrow : ∀ i a, read segment.1 i = some a → read' segment.1 i = some a) :
    nearest read' (segment :: outer) = nearest read (segment :: outer) ↔
      ∀ place, HoldsAt read' (segment :: outer) place →
        ∃ old, HoldsAt read (segment :: outer) old ∧ AtOrBefore old place := by
  obtain ⟨i, a⟩ := old
  obtain ⟨hi, ha, hgap⟩ := latest_eq_some_iff.1 hold
  have hthere : HoldsAt read (segment :: outer) (0, i) := holdsAt_zero.2 ⟨hi, by rw [ha]; rfl⟩
  unfold nearest firstOf
  rw [hold, Option.some_or]
  cases hnew : latest (read' segment.1) segment.2 with
  | none =>
    have := latest_eq_none_iff.1 hnew i hi
    rw [hgrow _ _ ha] at this
    cases this
  | some new =>
    obtain ⟨i', a'⟩ := new
    obtain ⟨hi', ha', hgap'⟩ := latest_eq_some_iff.1 hnew
    rw [Option.some_or]
    constructor
    · rintro he ⟨depth, j⟩ hj
      cases he
      refine ⟨(0, i), hthere, ?_⟩
      cases depth with
      | zero =>
        obtain ⟨hj, hs⟩ := holdsAt_zero.1 hj
        refine Or.inr ⟨rfl, ?_⟩
        by_contra hlt
        rw [hgap' j (by simpa using hlt) hj] at hs
        cases hs
      | succ depth => exact Or.inl (Nat.succ_pos _)
    · intro h
      obtain ⟨⟨depth, j⟩, hj, hb⟩ := h (0, i') (holdsAt_zero.2 ⟨hi', by rw [ha']; rfl⟩)
      obtain ⟨hd, hle⟩ := hb.resolve_left (Nat.not_lt_zero _)
      cases (show depth = 0 from hd)
      obtain ⟨hj, hs⟩ := holdsAt_zero.1 hj
      have hji : j ≤ i := by
        by_contra hlt
        rw [hgap j (by omega) hj] at hs
        cases hs
      have hii : i ≤ i' := by
        by_contra hlt
        have := hgap' i (by omega) hi
        rw [hgrow _ _ ha] at this
        cases this
      obtain rfl : i' = i := Nat.le_antisymm (Nat.le_trans hle hji) hii
      rw [hgrow _ _ ha] at ha'
      cases ha'
      rfl

/-- An empty first timeline moves every place of the path in by one. -/
theorem inFront_cons_iff {segment : β × Nat} {outer : List (β × Nat)}
    (hnone : ∀ j ≤ segment.2, read segment.1 j = none)
    (hnone' : ∀ j ≤ segment.2, read' segment.1 j = none) :
    (∀ place, HoldsAt read' (segment :: outer) place →
        ∃ old, HoldsAt read (segment :: outer) old ∧ AtOrBefore old place) ↔
      ∀ place, HoldsAt read' outer place → ∃ old, HoldsAt read outer old ∧ AtOrBefore old place := by
  constructor
  · rintro h ⟨depth, j⟩ hj
    obtain ⟨⟨d, k⟩, hk, hb⟩ := h (depth + 1, j) (holdsAt_succ.2 hj)
    cases d with
    | zero =>
      obtain ⟨hk, hs⟩ := holdsAt_zero.1 hk
      rw [hnone k hk] at hs
      cases hs
    | succ d =>
      refine ⟨(d, k), holdsAt_succ.1 hk, ?_⟩
      unfold AtOrBefore at hb ⊢
      simp only at hb ⊢
      omega
  · rintro h ⟨depth, j⟩ hj
    cases depth with
    | zero =>
      obtain ⟨hj, hs⟩ := holdsAt_zero.1 hj
      rw [hnone' j hj] at hs
      cases hs
    | succ depth =>
      obtain ⟨⟨d, k⟩, hk, hb⟩ := h (depth, j) (holdsAt_succ.1 hj)
      refine ⟨(d + 1, k), holdsAt_succ.2 hk, ?_⟩
      unfold AtOrBefore at hb ⊢
      simp only at hb ⊢
      omega

/-- **When a read along a path stays the same.**  The timelines gain entries, no two of them at one
position: the read is what it was exactly when no entry is in front of all those that were there. -/
theorem nearest_eq_iff (hpath : (path.map Prod.fst).Nodup)
    (hgrow : ∀ b i a, read b i = some a → read' b i = some a)
    (hone : ∀ b b' i, (read' b i).isSome → (read' b' i).isSome → b = b') :
    nearest read' path = nearest read path ↔
      ∀ place, HoldsAt read' path place → ∃ old, HoldsAt read path old ∧ AtOrBefore old place := by
  induction path with
  | nil => simp [nearest, firstOf, HoldsAt]
  | cons segment outer ih =>
    obtain ⟨hout, hnodup⟩ := List.nodup_cons.1 (by rwa [List.map_cons] at hpath)
    cases hold : latest (read segment.1) segment.2 with
    | some old => exact nearest_cons_eq_iff hold (hgrow segment.1)
    | none =>
      have hnone := latest_eq_none_iff.1 hold
      cases hnew : latest (read' segment.1) segment.2 with
      | none =>
        rw [inFront_cons_iff hnone (latest_eq_none_iff.1 hnew), ← ih hnodup]
        simp only [nearest, firstOf, hold, hnew, Option.none_or]
      | some new =>
        -- A new entry before every old one: it changes the read, and nothing old is in front of it.
        obtain ⟨i, a⟩ := new
        obtain ⟨hi, ha, _⟩ := latest_eq_some_iff.1 hnew
        refine iff_of_false (fun he => ?_) fun h => ?_
        · simp only [nearest, firstOf, hold, hnew, Option.none_or, Option.some_or] at he
          obtain ⟨found, hf, _, hfound⟩ := nearest_mem he.symm
          have heq := hone segment.1 found.1 i (by rw [ha]; rfl) (by rw [hgrow _ _ _ hfound]; rfl)
          exact hout (heq ▸ List.mem_map_of_mem hf)
        · obtain ⟨⟨depth, j⟩, hj, hb⟩ := h (0, i) (holdsAt_zero.2 ⟨hi, by rw [ha]; rfl⟩)
          obtain ⟨hd, _⟩ := hb.resolve_left (Nat.not_lt_zero _)
          cases (show depth = 0 from hd)
          obtain ⟨hj, hs⟩ := holdsAt_zero.1 hj
          rw [hnone j hj] at hs
          cases hs

end Nearest

end Timeline

end BorgCore
