import Mathlib.Data.List.AList

/-!
# Finite maps

A finite map is Mathlib's `AList` at a constant family.  This file adds what a state machine asks of
one: a lookup after an update as a single `if`, the values as a list, and a default for an absent
key.
-/

namespace BorgCore

abbrev AssocMap (α β : Type) := AList fun _ : α => β

namespace AssocMap

variable {α β : Type}

/-- The values of a map, in no particular order. -/
def values (m : AssocMap α β) : List β := m.entries.map Sigma.snd

/-- The bindings of a map, in no particular order. -/
def toPairs (m : AssocMap α β) : List (α × β) := m.entries.map fun p => (p.1, p.2)

/-- Keep the bindings a function keeps, each with the value it makes of it. -/
def retain (m : AssocMap α β) (f : α → β → Option β) : AssocMap α β where
  entries := m.entries.filterMap fun entry => (f entry.1 entry.2).map (Sigma.mk entry.1)
  nodupKeys := by
    refine List.nodupKeys_iff_pairwise.2 (List.pairwise_filterMap.2 ?_)
    refine (List.nodupKeys_iff_pairwise.1 m.nodupKeys).imp fun hne entry he entry' he' => ?_
    obtain ⟨-, -, rfl⟩ := Option.map_eq_some_iff.1 he
    obtain ⟨-, -, rfl⟩ := Option.map_eq_some_iff.1 he'
    exact hne

variable [DecidableEq α]

/-- The value of a key, or a default where there is none. -/
def getD (m : AssocMap α β) (a : α) (d : β) : β := (m.lookup a).getD d

/-- Replace the value of a key that is there. -/
def adjust (m : AssocMap α β) (a : α) (f : β → β) : AssocMap α β :=
  match m.lookup a with
  | some b => m.insert a (f b)
  | none => m

theorem lookup_insert_eq (m : AssocMap α β) (a a' : α) (b : β) :
    (m.insert a b).lookup a' = if a' = a then some b else m.lookup a' := by
  by_cases h : a' = a
  · subst h
    rw [if_pos rfl, AList.lookup_insert]
  · rw [if_neg h, AList.lookup_insert_ne h]

theorem isSome_lookup_insert {m : AssocMap α β} {a' : α} (h : (m.lookup a').isSome) (a : α) (b : β) :
    (AList.lookup a' (m.insert a b)).isSome := by
  rw [lookup_insert_eq]
  split
  · rfl
  · exact h

theorem lookup_erase_eq (m : AssocMap α β) (a a' : α) :
    (m.erase a).lookup a' = if a' = a then none else m.lookup a' := by
  by_cases h : a' = a
  · subst h
    rw [if_pos rfl, AList.lookup_erase]
  · rw [if_neg h, AList.lookup_erase_ne h]

theorem erase_insert (m : AssocMap α β) (a : α) (b : β) : AList.erase a (m.insert a b) = m.erase a :=
  AList.ext (List.kerase_cons_eq rfl)

theorem lookup_adjust (m : AssocMap α β) (a a' : α) (f : β → β) :
    (m.adjust a f).lookup a' = if a' = a then (m.lookup a).map f else m.lookup a' := by
  unfold adjust
  rcases h : m.lookup a with _ | b
  · by_cases ha : a' = a
    · subst ha; simp [h]
    · simp [ha]
  · simp [lookup_insert_eq]

@[simp] theorem lookup_empty (a : α) : (∅ : AssocMap α β).lookup a = none := AList.lookup_empty a

theorem mem_entries_iff {m : AssocMap α β} {a : α} {b : β} :
    (⟨a, b⟩ : Sigma fun _ : α => β) ∈ m.entries ↔ m.lookup a = some b :=
  AList.mem_lookup_iff.symm

theorem mem_values {m : AssocMap α β} {b : β} : b ∈ m.values ↔ ∃ a, m.lookup a = some b := by
  unfold values
  rw [List.mem_map]
  constructor
  · rintro ⟨⟨a, b'⟩, h, rfl⟩
    exact ⟨a, mem_entries_iff.1 h⟩
  · rintro ⟨a, h⟩
    exact ⟨⟨a, b⟩, mem_entries_iff.2 h, rfl⟩

theorem mem_toPairs {m : AssocMap α β} {a : α} {b : β} :
    (a, b) ∈ m.toPairs ↔ m.lookup a = some b := by
  unfold toPairs
  rw [List.mem_map]
  constructor
  · rintro ⟨⟨a', b'⟩, h, he⟩
    cases he
    exact mem_entries_iff.1 h
  · intro h
    exact ⟨⟨a, b⟩, mem_entries_iff.2 h, rfl⟩

theorem mem_keys_iff {m : AssocMap α β} {a : α} : a ∈ m.keys ↔ ∃ b, m.lookup a = some b := by
  rw [← AList.mem_keys, ← AList.lookup_isSome, Option.isSome_iff_exists]

theorem map_values {m : AssocMap α β} {key : β → α} (h : ∀ {a b}, m.lookup a = some b → key b = a) :
    m.values.map key = m.keys := by
  unfold values AList.keys List.keys
  rw [List.map_map]
  exact List.map_congr_left fun entry hm => h (mem_entries_iff.1 hm)

theorem getD_insert (m : AssocMap α β) (a a' : α) (b d : β) :
    AssocMap.getD (m.insert a b) a' d = if a' = a then b else m.getD a' d := by
  unfold getD
  rw [lookup_insert_eq]
  split <;> rfl

@[simp] theorem getD_empty (a : α) (d : β) : getD (∅ : AssocMap α β) a d = d := by
  simp [getD]

theorem lookup_retain (m : AssocMap α β) (f : α → β → Option β) (a : α) :
    (m.retain f).lookup a = (m.lookup a).bind (f a) := by
  refine Option.ext fun b => ?_
  rw [← mem_entries_iff, Option.bind_eq_some_iff]
  unfold retain
  rw [List.mem_filterMap]
  constructor
  · rintro ⟨⟨a', b'⟩, hm, hf⟩
    obtain ⟨found, hfound, he⟩ := Option.map_eq_some_iff.1 hf
    cases he
    exact ⟨b', mem_entries_iff.1 hm, hfound⟩
  · rintro ⟨b', hl, hf⟩
    exact ⟨⟨a, b'⟩, mem_entries_iff.2 hl, by rw [hf]; rfl⟩

/-- Bindings written one after another under keys of their own. -/
theorem lookup_foldl_insert {key : β → α} {entries : List β} (hn : (entries.map key).Nodup)
    (m : AssocMap α β) {a : α} {b : β} :
    AList.lookup a (entries.foldl (fun m entry => AList.insert (key entry) entry m) m) = some b ↔
      b ∈ entries ∧ key b = a ∨ a ∉ entries.map key ∧ m.lookup a = some b := by
  induction entries generalizing m with
  | nil => simp
  | cons entry rest ih =>
    obtain ⟨hout, hn⟩ := List.nodup_cons.1 hn
    rw [List.foldl_cons, ih hn]
    simp only [lookup_insert_eq, List.mem_cons, List.map_cons, not_or]
    constructor
    · rintro (⟨hm, ha⟩ | ⟨hm, hl⟩)
      · exact Or.inl ⟨Or.inr hm, ha⟩
      · split at hl
        · cases hl
          exact Or.inl ⟨Or.inl rfl, Eq.symm ‹_›⟩
        · exact Or.inr ⟨⟨‹_›, hm⟩, hl⟩
    · rintro (⟨rfl | hm, ha⟩ | ⟨⟨hne, hm⟩, hl⟩)
      · subst ha
        exact Or.inr ⟨hout, if_pos rfl⟩
      · exact Or.inl ⟨hm, ha⟩
      · exact Or.inr ⟨hm, by rw [if_neg hne, hl]⟩

end AssocMap

end BorgCore
