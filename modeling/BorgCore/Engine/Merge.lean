import BorgCore.Engine.Answers
import BorgCore.Engine.Host
import BorgCore.Engine.Snapshot

/-!
# What a merged branch reads

Where the parent has landed nothing since the fork, a def+data merge hands it every record the child
had: `Replayed.getCell`.  It does not hand it the child's def-versions: a def layer is replayed under
a new id, so a field the child declared or mutated has a new version on the parent, while its records
stay at the version they were written at.  A reader of the parent finds the child's write exactly when
the field's version was there before the fork.
-/

namespace BorgCore

namespace Log

variable {log log' : Log} {child parent : BranchId} {origin : LayerId} {reads : List CellRef}
  {landed : List (LayerId × Commit)} {names : LayerId → LayerId} {cell : CellRef}
  {version : DefVersion}

/-! ### Names rise -/

theorem lt_of_sorted_map {ids : List LayerId} (hs : ids.Pairwise (· < ·))
    (hn : (ids.map names).Pairwise (· < ·)) {id id' : LayerId} (hid : id ∈ ids) (hid' : id' ∈ ids)
    (hlt : id < id') : names id < names id' := by
  induction ids with
  | nil => cases hid
  | cons head rest ih =>
    obtain ⟨hhead, hs⟩ := List.pairwise_cons.1 hs
    obtain ⟨hname, hn⟩ := List.pairwise_cons.1 hn
    rcases List.mem_cons.1 hid with heq | hin
    · subst heq
      rcases List.mem_cons.1 hid' with heq' | hin'
      · exact absurd (heq' ▸ hlt) (Nat.lt_irrefl _)
      · exact hname _ (List.mem_map_of_mem hin')
    · rcases List.mem_cons.1 hid' with heq' | hin'
      · exact absurd hlt (Nat.lt_asymm (heq' ▸ hhead id hin))
      · exact ih hs hn hin hin'

section Records

variable (h : log.Sound) (hr : log.Replayed child parent origin .defAndData reads landed log')
  (hlanded : landed = (log.sourcesOf child .defAndData).map
    fun source => (names source.1, source.2.onto parent))
  (hsource : ∀ id commit, log.commitAt id = some commit → commit.author.isSource)

include h hr hlanded

theorem Replayed.names_lt {id id' : LayerId} (hid : id ∈ log.replayableLayers child .defAndData)
    (hid' : id' ∈ log.replayableLayers child .defAndData) (hlt : id < id') : names id < names id' := by
  refine lt_of_sorted_map (h.replayableLayers_sorted _) ?_ hid hid' hlt
  have hsorted := hr.lands.sorted
  have hnames : landed.map (·.1) = (log.replayableLayers child .defAndData).map names := by
    rw [hlanded, ← h.sourcesOf_fst, List.map_map, List.map_map]
    rfl
  rwa [hnames] at hsorted

theorem Replayed.names_new {id : LayerId} (hid : id ∈ log.replayableLayers child .defAndData) :
    log.nextLayer ≤ names id := by
  obtain ⟨commit, hc, _⟩ := h.mem_replayableLayers.1 hid
  refine hr.lands.fresh (names id, commit.onto parent) ?_
  rw [hlanded]
  exact List.mem_map.2 ⟨(id, commit), mem_sourcesOf.2 ⟨hid, hc⟩, rfl⟩

theorem Replayed.recordAt_iff {id : LayerId} {event : Event} :
    log'.recordAt cell version parent id = some event ↔
      log.recordAt cell version parent id = some event ∨
        ∃ source ∈ log.replayableLayers child .defAndData, id = names source ∧
          log.recordAt cell version child source = some event := by
  simp only [recordAt, Option.bind_eq_some_iff, hr.lands.commits_iff, hlanded]
  constructor
  · rintro ⟨commit, hc | hm, he⟩
    · exact Or.inl ⟨commit, hc, he⟩
    · obtain ⟨source, hs, heq⟩ := List.mem_map.1 hm
      cases heq
      obtain ⟨hmem, hc⟩ := mem_sourcesOf.1 hs
      obtain ⟨commit, hc', hb, _⟩ := h.mem_replayableLayers.1 hmem
      rw [hc] at hc'
      cases hc'
      refine Or.inr ⟨source.1, hmem, rfl, source.2, hc, ?_⟩
      simpa [Commit.onto, hb] using he
  · rintro (⟨commit, hc, he⟩ | ⟨source, hmem, rfl, commit, hc, he⟩)
    · exact ⟨commit, Or.inl hc, he⟩
    · refine ⟨commit.onto parent, Or.inr ?_, ?_⟩
      · exact List.mem_map.2 ⟨(source, commit), mem_sourcesOf.2 ⟨hmem, hc⟩, rfl⟩
      · split at he
        · simpa [Commit.onto] using he
        · cases he

omit h in
/-- Only the parent's timeline is added to. -/
theorem Replayed.recordAt_other {branch : BranchId} (hb : branch ≠ parent) :
    log'.recordAt cell version branch = log.recordAt cell version branch := by
  refine funext fun id => Option.ext fun event => ?_
  simp only [recordAt, Option.bind_eq_some_iff, hr.lands.commits_iff, hlanded]
  refine ⟨?_, fun hfound => hfound.imp fun commit hcommit => ⟨Or.inl hcommit.1, hcommit.2⟩⟩
  rintro ⟨commit, hc | hm, he⟩
  · exact ⟨commit, hc, he⟩
  · obtain ⟨source, _, heq⟩ := List.mem_map.1 hm
    cases heq
    rw [if_neg fun hp => hb hp.symm] at he
    cases he

include hsource

omit hr hlanded in
theorem recordAt_replayable {id : LayerId} {event : Event}
    (he : log.recordAt cell version child id = some event) :
    id ∈ log.replayableLayers child .defAndData := by
  obtain ⟨commit, hc, hb⟩ := Option.bind_eq_some_iff.1 he
  split at hb
  · exact h.mem_replayableLayers.2 ⟨commit, hc, by assumption, hsource id commit hc, nofun⟩
  · cases hb

theorem Replayed.latest_carried {id : LayerId} {event : Event}
    (hl : Timeline.latest (log.recordAt cell version child) ((log.head child).getD 0) =
      some (id, event)) :
    Timeline.latest (log'.recordAt cell version parent) ((log'.head parent).getD 0) =
      some (names id, event) := by
  obtain ⟨hle, he, hgap⟩ := Timeline.latest_eq_some_iff.1 hl
  have hid := recordAt_replayable h hsource he
  have he' : log'.recordAt cell version parent (names id) = some event :=
    (hr.recordAt_iff h hlanded).2 (Or.inr ⟨id, hid, rfl, he⟩)
  refine Timeline.latest_eq_some_iff.2 ⟨?_, he', fun j hj hj' => ?_⟩
  · obtain ⟨commit, hc, hb, _⟩ := recordAt_isSome_iff.1 (by rw [he']; rfl)
    exact hr.lands.sound.le_head ⟨commit, hc, hb⟩
  · cases hrec : log'.recordAt cell version parent j with
    | none => rfl
    | some other =>
      rcases (hr.recordAt_iff h hlanded).1 hrec with hold | ⟨source, hs, rfl, hsrc⟩
      · obtain ⟨commit, hc, _⟩ := recordAt_isSome_iff.1 (by rw [hold]; rfl)
        have hlt := (h.commitAt_lt hc).2
        exact absurd (Nat.lt_trans hj hlt) (Nat.not_lt.2 (hr.names_new h hlanded hid))
      · have hgt : id < source := by
          rcases Nat.lt_trichotomy id source with hlt | rfl | hlt
          · exact hlt
          · exact absurd hj (Nat.lt_irrefl _)
          · exact absurd hj (Nat.lt_asymm (hr.names_lt h hlanded hs hid hlt))
        obtain ⟨commit, hc, hb, _⟩ := recordAt_isSome_iff.1 (by rw [hsrc]; rfl)
        rw [hgap source hgt (h.le_head ⟨commit, hc, hb⟩)] at hsrc
        cases hsrc

omit hsource in
theorem Replayed.latest_kept (hquiet : ∀ id, log.CommittedOn parent id → id ≤ origin)
    (hnone : log.Unwritten child cell version) :
    Timeline.latest (log'.recordAt cell version parent) ((log'.head parent).getD 0) =
      Timeline.latest (log.recordAt cell version parent) origin := by
  have heq : log'.recordAt cell version parent = log.recordAt cell version parent := by
    refine funext fun id => Option.ext fun event =>
      (hr.recordAt_iff h hlanded).trans (or_iff_left ?_)
    rintro ⟨source, _, _, hs⟩
    rw [hnone source] at hs
    cases hs
  rw [heq]
  refine Timeline.latest_eq_of_bounds (fun id hid => ?_) fun id hid => ?_
  · rw [← heq] at hid
    obtain ⟨commit, hc, hb, _⟩ := recordAt_isSome_iff.1 hid
    exact hr.lands.sound.le_head ⟨commit, hc, hb⟩
  · obtain ⟨commit, hc, hb, _⟩ := recordAt_isSome_iff.1 hid
    exact hquiet id ⟨commit, hc, hb⟩

/-- **The parent reads what the child read**, where it landed nothing since the fork. -/
theorem Replayed.getCell (ho : log.outward child = some (parent, origin))
    (hquiet : ∀ id, log.CommittedOn parent id → id ≤ origin) {found : Landed}
    (hfound : log.storage.getCell (log.readPath child none) cell version = .ok (some found)) :
    ∃ found', log'.storage.getCell (log'.readPath parent none) cell version = .ok (some found') ∧
      found'.event = found.event := by
  obtain ⟨_, _, _, hlayer⟩ := outward_eq_some ho
  -- Behind the parent itself, the two paths are one.
  obtain ⟨outer, hchild, hparent, hother⟩ : ∃ outer,
      (log.readPath parent (some origin)).segments = (parent, origin) :: outer ∧
      (log'.readPath parent none).segments = (parent, (log'.head parent).getD 0) :: outer ∧
      ∀ segment ∈ outer, segment.1 ≠ parent := by
    have hpath := h.readPath_some hlayer
    refine ⟨_, hpath, ?_, fun segment hs heq => ?_⟩
    · rw [hr.lands.sound.readPath_none, hr.lands.grows.outward (h.outward_registered ho) h]
      cases ho' : log.outward parent with
      | none => rfl
      | some next =>
        simp only
        rw [hr.lands.grows.readPath_some h (h.outward_registered ho')]
    · have hnodup : ((log.readPath parent (some origin)).segments.map Prod.fst).Nodup :=
        h.segmentsFrom_nodup
      rw [hpath, List.map_cons, List.nodup_cons] at hnodup
      exact hnodup.1 (List.mem_map.2 ⟨segment, hs, heq⟩)
  have houter : Timeline.nearest (log'.recordAt cell version) outer =
      Timeline.nearest (log.recordAt cell version) outer := by
    refine Timeline.firstOf_congr fun segment hs => ?_
    rw [hr.recordAt_other hlanded (hother segment hs)]
  rw [h.getCell, h.readPath_none, ho, Except.ok.injEq, Option.map_eq_some_iff] at hfound
  obtain ⟨⟨id, event⟩, hnearest, rfl⟩ := hfound
  have hgoal : ∃ id', Timeline.nearest (log'.recordAt cell version)
      (log'.readPath parent none).segments = some (id', event) := by
    rw [hparent, Timeline.nearest_cons, houter]
    simp only [hchild, Timeline.nearest_cons] at hnearest
    cases hl : Timeline.latest (log.recordAt cell version child) ((log.head child).getD 0) with
    | some entry =>
      rw [hl, Option.some_or] at hnearest
      cases hnearest
      exact ⟨names id, by rw [hr.latest_carried h hlanded hsource hl, Option.some_or]⟩
    | none =>
      rw [hl, Option.none_or] at hnearest
      have hnone : log.Unwritten child cell version := fun id => by
        cases hrec : log.recordAt cell version child id with
        | none => rfl
        | some other =>
          obtain ⟨commit, hc, hb, _⟩ := recordAt_isSome_iff.1 (by rw [hrec]; rfl)
          rw [Timeline.latest_eq_none_iff.1 hl id (h.le_head ⟨commit, hc, hb⟩)] at hrec
          cases hrec
      exact ⟨id, by rw [hr.latest_kept h hlanded hquiet hnone, hnearest]⟩
  obtain ⟨id', hgoal⟩ := hgoal
  exact ⟨⟨event, id'⟩, by rw [hr.lands.sound.getCell, hgoal]; rfl, rfl⟩

omit hsource in
/-- At a version younger than the log, a merge leaves nothing to read. -/
theorem Replayed.getCell_new {version : DefVersion} (path : ReadPath)
    (hold : ∀ branch id, (log.recordAt cell version branch id).isSome → False) :
    log'.storage.getCell path cell version = .ok none := by
  have hnone (branch : BranchId) (id : LayerId) : log'.recordAt cell version branch id = none := by
    refine Option.not_isSome_iff_eq_none.1 fun hs => ?_
    by_cases hb : branch = parent
    · subst hb
      obtain ⟨event, he⟩ := Option.isSome_iff_exists.1 hs
      rcases (hr.recordAt_iff h hlanded).1 he with he | ⟨source, _, _, he⟩
      · exact hold _ _ (by rw [he]; rfl)
      · exact hold _ _ (by rw [he]; rfl)
    · rw [hr.recordAt_other hlanded hb] at hs
      exact hold _ _ hs
  rw [hr.lands.sound.getCell]
  cases hn : Timeline.nearest (log'.recordAt cell version) path.segments with
  | none => rfl
  | some entry =>
    obtain ⟨segment, _, _, he⟩ := Timeline.nearest_mem hn
    rw [hnone] at he
    cases he

end Records

/-- Whatever is asked for and whatever engine is at hand, resolving a cell at the branch's own
ClientVersion shows this value in this state. -/
def ReadsAs (log : Log) (branch : BranchId) (cell : CellRef) (value : Option Value)
    (state : Freshness) : Prop :=
  ∀ computeNow recorded requirement, ∃ resolved log',
    resolve computeNow recorded branch cell none (log.defHead (log.readPath branch none)) requirement
        log = .ok resolved log' ∧
      resolved.value = value ∧ resolved.state = state

theorem Sound.readsAs_source (h : log.Sound) {branch : BranchId} {view : DefView} {found : Landed}
    (hv : log.view (log.readPath branch none) = .ok view)
    (hg : log.storage.getCell (log.readPath branch none) cell (view.versionOf cell) = .ok (some found))
    (hs : found.event.derivation = none) :
    log.ReadsAs branch cell found.event.value.shown found.event.value.freshness := by
  intro computeNow recorded requirement
  obtain ⟨resolved, hrun, hshown⟩ := resolve_source (h.versionFor_defHead hv cell) hg hs
  exact ⟨resolved, log, hrun, hshown⟩

theorem Sound.not_readsAs_missing (h : log.Sound) {branch : BranchId} {view : DefView}
    (hv : log.view (log.readPath branch none) = .ok view)
    (hg : log.storage.getCell (log.readPath branch none) cell (view.versionOf cell) = .ok none)
    (value : Value) : ¬ log.ReadsAs branch cell value.shown value.freshness := by
  intro hreads
  obtain ⟨resolved, _, hrun, hvalue, hstate⟩ := hreads (fun _ _ _ => pure ()) [] .any
  obtain ⟨resolved', hrun', hvalue', hstate'⟩ := @resolve_missing log branch cell _ _ _ []
    (fun _ _ _ => pure ()) _ (h.versionFor_defHead hv cell) hv hg
    (by decide : FreshnessRequirement.any ≠ .current)
  rw [hrun] at hrun'
  cases hrun'
  unfold Value.shown at hvalue
  unfold Value.freshness at hstate
  split at hvalue
  · rename_i ht
    rw [if_pos ht] at hstate
    exact hstate' hstate
  · rw [hvalue'] at hvalue
    cases hvalue

end Log

namespace Host

open Log

variable {host : Host} {child parent : BranchId} {origin : LayerId} {cell : CellRef}

/-- **What a merge hands over.**  The parent has landed nothing since the fork, and a def+data merge
goes through.  A client's write on the child, at the version its field has there, reads on the parent
as it read on the child exactly when that version was there at the fork: when the child itself neither
declared nor mutated the field. -/
theorem merge_reads_iff (h : host.Reachable) (ho : host.log.outward child = some (parent, origin))
    (hquiet : ∀ id, host.log.CommittedOn parent id → id ≤ origin) {ids : List LayerId} {log' : Log}
    (hmerge : merge child .defAndData host.log = .ok ids log') {onChild : DefView}
    (hview : host.log.view (host.log.readPath child none) = .ok onChild) {declared : FieldDef}
    (hfield : onChild.field cell = some declared) {found : Landed}
    (hfound : host.log.storage.getCell (host.log.readPath child none) cell declared.version =
      .ok (some found))
    (hclient : found.event.derivation = none) :
    host.log.ReadsAs child cell found.event.value.shown found.event.value.freshness ∧
      (log'.ReadsAs parent cell found.event.value.shown found.event.value.freshness ↔
        declared.version ≤ origin) := by
  have hgood := h.good
  have hsound := hgood.sound
  have hversion : onChild.versionOf cell = declared.version := by
    simp only [DefView.versionOf, hfield]
  refine ⟨hsound.readsAs_source hview (by rw [hversion, hfound]) hclient, ?_⟩
  -- What the merge did.
  have ha := hsound.anchored_of_outward ho
  obtain ⟨landed, hr⟩ : ∃ landed, host.log.Replayed child parent origin .defAndData [] landed log' := by
    rcases merge_run hsound hgood.unmixed child .defAndData with
      ⟨err, he⟩ | ⟨parent', origin', landed, log, ho', hrun, hr⟩
    · rw [hmerge] at he
      cases he
    · rw [ho] at ho'
      cases ho'
      rw [hmerge] at hrun
      cases hrun
      exact ⟨landed, hr⟩
  obtain ⟨onParent, hparent⟩ := hgood.view parent
  obtain ⟨names, merged, hlanded, hnames, hmerged, hagree⟩ :=
    hr.view hsound hgood.pushed ha hview hparent
  have hsource : ∀ id commit, host.log.commitAt id = some commit → commit.author.isSource :=
    fun id commit hc => (hgood.plain id commit hc).1
  -- The field has on the parent the version it had on the child, under its new name.
  have hrenamed : merged.versionOf cell = names declared.version := by
    obtain ⟨buffer, key⟩ := cell
    cases buffer with
    | objectProp structName field =>
      have hunmoved : ¬ host.log.Moved parent origin (structName, field) := by
        rintro ⟨id, commit, hc, hb, _, hlt, _⟩
        exact absurd (hquiet id ⟨commit, hc, hb⟩) (Nat.not_le.2 hlt)
      have hdeclared := hagree (structName, field) hunmoved
      have hchild : onChild.declared (structName, field) = some declared := hfield
      rw [hchild, Option.map_some] at hdeclared
      have hfield' : merged.field ⟨.objectProp structName field, key⟩ =
        some (declared.rename names) := hdeclared
      simp only [DefView.versionOf, hfield', FieldDef.rename]
    | _ => cases hfield
  constructor
  · intro hreads
    by_contra hgt
    -- The version is a def layer of the child's own, and what replaced it is younger than any record.
    have hown : declared.version ∈ host.log.replayableLayers child .defAndData := by
      have hpos : declared.version ≠ DefVersion.unversioned := fun hz => hgt (hz ▸ Nat.zero_le _)
      have hmem := (versionOf_mem hview cell).resolve_right (by rwa [hversion])
      rw [hversion, hsound.defLayersAlong_none] at hmem
      rcases List.mem_append.1 hmem with hin | hin
      · exact absurd (hsound.inherited_le_anchor ha hin) hgt
      · obtain ⟨commit, hc, hb, _⟩ := hsound.mem_ownDefs.1 hin
        exact hsound.mem_replayableLayers.2 ⟨commit, hc, hb, hsource _ _ hc, by intro hkind; cases hkind⟩
    have hnew := hr.names_new hsound hlanded hown
    refine hr.lands.sound.not_readsAs_missing hmerged ?_ _ hreads
    rw [hrenamed]
    refine hr.getCell_new hsound hlanded _ fun branch id hs => ?_
    obtain ⟨commit, hc, _, event, he, hat⟩ := recordAt_isSome_iff.1 hs
    have hlt := ((hgood.plain id commit hc).2 event he).2
    have hv : event.version = names declared.version := congrArg CellAt.version hat
    rw [hv] at hlt
    exact absurd (Nat.lt_trans hlt (hsound.commitAt_lt hc).2) (Nat.not_lt.2 hnew)
  · intro hle
    have hkept : names declared.version = declared.version := by
      refine hnames _ fun hm => ?_
      obtain ⟨commit, hc, hb, _⟩ := hsound.mem_replayableLayers.1 hm
      exact absurd (hsound.anchor_lt ha ⟨commit, hc, hb⟩) (Nat.not_lt.2 hle)
    obtain ⟨found', hfound', hevent⟩ := hr.getCell hsound hlanded hsource ho hquiet hfound
    rw [← hevent]
    exact hr.lands.sound.readsAs_source hmerged (by rw [hrenamed, hkept, hfound'])
      (by rw [hevent, hclient])

/-! ### A field declared on a fork -/

def sizeCell : CellRef := .prop "Doc" "size" (.allocated .object 2 0 0)

def weightCell : CellRef := .prop "Doc" "weight" (.allocated .object 2 0 0)

/-- A field is declared on a root, another one on a fork of it, and a client writes both there. -/
def weighed : Host :=
  let root : Host := ⟨after (createRoot none Log.new), []⟩
  let declared := { root with
    log := after (Log.push 1 [.declareField "Doc" "size" .int 1 .source] root.log) }
  let forked := { declared with log := after (Log.fork 1 1 none declared.log) }
  let extended := { forked with
    log := after (Log.push 2 [.declareField "Doc" "weight" .int 1 .source] forked.log) }
  { extended with
    log := after (clientWrite 2 2 [(sizeCell, .int 5), (weightCell, .int 7)] extended.log) }

def delivered : Host := ⟨after (Log.merge 2 .defAndData weighed.log), weighed.transactions⟩

theorem weighed_reachable : weighed.Reachable :=
  .tail (.tail (.tail (.tail (.tail .refl (.createRoot none)) (.push 1 _ (by decide +kernel)))
    (.fork 1 1 none)) (.push 2 _ (by decide +kernel))) (.write 2 2 _ (by decide +kernel))

theorem delivered_reachable : delivered.Reachable :=
  .tail weighed_reachable (.merge 2 .defAndData)

theorem delivered_log : delivered.log = after (Log.merge 2 .defAndData weighed.log) := by
  rw [delivered]

-- From here on the two hosts are only computed with, never unfolded.
attribute [irreducible] weighed delivered

theorem delivered_eq : Log.merge 2 .defAndData weighed.log = .ok [4, 5] delivered.log := by
  have hids : returned (Log.merge 2 .defAndData weighed.log) = some [4, 5] := by decide +kernel
  rw [delivered_log]
  exact eq_after hids

theorem weighed_quiet : ∀ id, weighed.log.CommittedOn 1 id → id ≤ 1 := by
  rintro id ⟨commit, hc, hb⟩
  have hall : ∀ id < 4, (weighed.log.commitAt id).all fun commit =>
      commit.branch ≠ 1 ∨ id ≤ 1 := by decide +kernel
  have hnext : weighed.log.nextLayer = 4 := by decide +kernel
  have hlt := (weighed_reachable.good.sound.commitAt_lt hc).2
  rw [hnext] at hlt
  have hle := hall id hlt
  rw [hc, Option.all_some, decide_eq_true_eq] at hle
  exact hle.resolve_left fun hne => hne hb

theorem weighed_view : ∃ view, weighed.log.view (weighed.log.readPath 2 none) = .ok view ∧
    view.field sizeCell = some ⟨"size", .int, 1, .source, 1⟩ ∧
    view.field weightCell = some ⟨"weight", .int, 1, .source, 2⟩ := by
  obtain ⟨view, hv⟩ := weighed_reachable.good.view 2
  have hall : (weighed.log.view (weighed.log.readPath 2 none)).toOption.map (fun view =>
      (view.field sizeCell, view.field weightCell)) =
        some (some ⟨"size", .int, 1, .source, 1⟩, some ⟨"weight", .int, 1, .source, 2⟩) := by
    decide +kernel
  rw [hv] at hall
  simp only [Except.toOption, Option.map_some, Option.some.injEq, Prod.mk.injEq] at hall
  exact ⟨view, hv, hall⟩

/-- The field the fork inherited reads on the root what it read on the fork. -/
theorem merge_reads_inherited :
    delivered.log.ReadsAs 1 sizeCell (Value.int 5).shown (Value.int 5).freshness := by
  obtain ⟨view, hv, hsize, _⟩ := weighed_view
  have hfound : weighed.log.storage.getCell (weighed.log.readPath 2 none) sizeCell 1 =
      .ok (some ⟨⟨2, sizeCell, .int 5, 1, .source, none, 3⟩, 3⟩) := by decide +kernel
  exact (merge_reads_iff weighed_reachable (by decide +kernel) weighed_quiet delivered_eq hv hsize
    hfound rfl).2.2 (Nat.le_refl 1)

/-- The field the fork declared read there, and does not read on the root. -/
theorem merge_unreadable :
    weighed.Reachable ∧ weighed.log.outward 2 = some (1, 1) ∧
      (∀ id, weighed.log.CommittedOn 1 id → id ≤ 1) ∧
      Log.merge 2 .defAndData weighed.log = .ok [4, 5] delivered.log ∧
      (∃ view, weighed.log.view (weighed.log.readPath 2 none) = .ok view ∧
        view.field weightCell = some ⟨"weight", .int, 1, .source, 2⟩) ∧
      weighed.log.storage.getCell (weighed.log.readPath 2 none) weightCell 2 =
        .ok (some ⟨⟨3, weightCell, .int 7, 2, .source, none, 3⟩, 3⟩) ∧
      weighed.log.ReadsAs 2 weightCell (some (.int 7)) .current ∧
      ¬ delivered.log.ReadsAs 1 weightCell (some (.int 7)) .current := by
  obtain ⟨view, hv, _, hweight⟩ := weighed_view
  have hfound : weighed.log.storage.getCell (weighed.log.readPath 2 none) weightCell 2 =
      .ok (some ⟨⟨3, weightCell, .int 7, 2, .source, none, 3⟩, 3⟩) := by decide +kernel
  have hreads : weighed.log.ReadsAs 2 weightCell (Value.int 7).shown (Value.int 7).freshness := by
    have hversion : view.versionOf weightCell = 2 := by simp only [DefView.versionOf, hweight]
    exact weighed_reachable.good.sound.readsAs_source hv (by rw [hversion, hfound]) rfl
  have hlost : ¬ delivered.log.ReadsAs 1 weightCell (Value.int 7).shown (Value.int 7).freshness := by
    obtain ⟨merged, hmerged⟩ := delivered_reachable.good.view 1
    have hversion : (delivered.log.view (delivered.log.readPath 1 none)).toOption.map
        (fun view => view.versionOf weightCell) = some 4 := by decide +kernel
    have hnone : delivered.log.storage.getCell (delivered.log.readPath 1 none) weightCell 4 =
        .ok none := by decide +kernel
    rw [hmerged] at hversion
    have hversion' : merged.versionOf weightCell = 4 := Option.some.inj hversion
    rw [← hversion'] at hnone
    exact delivered_reachable.good.sound.not_readsAs_missing hmerged hnone (.int 7)
  exact ⟨weighed_reachable, by decide +kernel, weighed_quiet, delivered_eq, ⟨view, hv, hweight⟩,
    hfound, hreads, hlost⟩

end Host

end BorgCore
