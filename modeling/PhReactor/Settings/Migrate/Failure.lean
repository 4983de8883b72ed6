/-
  What a failed migration leaves behind.

  The group is deleted first, to free its name, and nothing brings it back.  Every failure comes
  after that; a delete that fails has deleted the group already.  So a migration fails safely
  exactly when it cannot fail (`migration_fails_safely_iff`).  One channel with a blank in its name
  is enough for the group to be lost (`group_lost`).

  A run that finds the space under the name stops, and leaves what is missing missing.
-/
import PhReactor.Settings.Migrate

set_option linter.unusedSectionVars false

namespace PhReactor

section

variable [Primitives]

/-- The group is live under its name, and there is no document that was not there before. -/
structure Intact (s t : Inner) (p : Plan) (gid : DocId) : Prop where
  group : ∃ e, GroupStands t p gid e
  nothing : ∀ id, t.entries.contains id = true → s.entries.contains id = true

/-- A failed run leaves everything in place; and after any outcome, one more run ends where one
    successful run does. -/
structure FailsSafely (s : Inner) (w w' : ℕ → Draw) (p : Plan) (gid : DocId) : Prop where
  intact : ∀ t msg, applyOne s w p = (t, .error msg) → Intact s t p gid
  again : Migrated (applyOne (applyOne s w p).1 w' p).1 p ∧
    ∃ v, applyOne s v p = ((applyOne (applyOne s w p).1 w' p).1, .ok ())

section

variable {s : Inner} {w : ℕ → Draw} {p : Plan} {gid : DocId} {e : Entry}

theorem applyOne_of_stands (w : ℕ → Draw) (h : p.stands s = true) :
    applyOne s w p = (s, .ok ()) := by
  unfold applyOne
  exact if_pos h

/-- What a run creates, the next one finds. -/
theorem Migrated.stands (h : Migrated s p) : p.stands s = true := by
  unfold Plan.stands
  rw [h.space]
  exact beq_self_eq_true _

theorem GroupStands.stands (h : GroupStands s p gid e) (hid : gid = p.spaceId) :
    p.stands s = true := by
  unfold Plan.stands
  rw [get_of_entry h.named h.here h.live]
  exact beq_iff_eq.mpr (congrArg some (h.id.trans hid))

/-- The group cannot be in place and gone. -/
theorem Gone.not_intact {t : Inner} (h : Gone t gid) : ¬ Intact s t p gid := by
  intro hintact
  obtain ⟨e, he, hdel⟩ := h
  obtain ⟨e', hgroup⟩ := hintact.group
  obtain rfl : e = e' := Option.some.inj (he.symm.trans hgroup.here)
  rw [hgroup.live] at hdel
  cases hdel

/-- **When a migration fails safely**: if the space is under the name, when the other documents
    are there too; otherwise when the run goes through. -/
theorem migration_fails_safely_iff (hown : s.Authors) (hr : s.models.BuiltIn)
    (hstands : GroupStands s p gid e) (hw : FreshDraws w p gid) (w' : ℕ → Draw) :
    FailsSafely s w w' p gid ↔
      if gid = p.spaceId then Migrated s p else GoesThrough s w p gid e := by
  by_cases hid : gid = p.spaceId
  · have hthere := hstands.stands hid
    have hrun : applyOne (applyOne s w p).1 w' p = (s, .ok ()) := by
      rw [applyOne_of_stands w hthere, applyOne_of_stands w' hthere]
    rw [if_pos hid]
    constructor
    · intro h
      have hagain := h.again.1
      rwa [hrun] at hagain
    · intro h
      refine ⟨fun t msg hfail => ?_, ?_⟩
      · rw [applyOne_of_stands w hthere] at hfail
        cases hfail
      · rw [hrun]
        exact ⟨h, w, applyOne_of_stands w hthere⟩
  · rw [if_neg hid]
    obtain ⟨hgone, hok, hmigrated⟩ := applyOne_outcome hown hr hstands hid hw
    rw [← hok]
    cases hrun : applyOne s w p with
    | mk t r =>
      rw [hrun] at hgone hmigrated
      cases r with
      | error msg =>
        -- whatever went wrong, the group is gone
        exact iff_of_false (fun h => hgone.not_intact (h.intact t msg hrun)) Bool.false_ne_true
      | ok x =>
        refine iff_of_true ⟨fun t' msg hfail => ?_, ?_⟩ rfl
        · rw [hrun] at hfail
          cases hfail
        · have hthere := (hmigrated rfl).stands
          rw [hrun, applyOne_of_stands w' hthere]
          exact ⟨hmigrated rfl, w, hrun⟩

end

end

section

open Sample

attribute [local instance] Sample.primitives

/-- The sample group goes through, and a second run finds the space. -/
theorem migration_fails_safely_talking :
    FailsSafely talkingGroup countingDraws countingDraws (groupPlan talkingGroup) docId := by
  obtain ⟨-, -, hnamed, hhere, hne⟩ := talkingGroup_facts
  have hown : talkingGroup.Authors := authors_aliceStore _
  have hr : talkingGroup.models.BuiltIn := builtIn_aliceStore _
  have hiff := migration_fails_safely_iff hown hr (groupStands_sample hnamed hhere)
    talkingGroup_draws countingDraws
  rw [if_neg hne] at hiff
  exact hiff.mpr talkingGroup_goesThrough

/-- Alice's group with a channel `Ops Room`. -/
def opsGroup : Inner :=
  aliceStore [groupInit, act alice "group" "add-channel"
    (.object [("item", .object [("name", .string "Ops Room")])]) 20 [("alice", 2)] none]

theorem opsGroup_facts :
    (rowOf opsGroup "group" none docId).isSome = true ∧ (groupRow opsGroup).id = docId ∧
    "core-Ops Room" ∈ (groupPlan opsGroup).created ∧
    opsGroup.names[(groupPlan opsGroup).group]? = some docId ∧
    (opsGroup.entries[docId]?).map (fun e => (e.deleted, e.doc.id)) = some (false, docId) ∧
    docId ≠ (groupPlan opsGroup).spaceId := by
  decide +kernel

theorem opsGroup_draws : FreshDraws countingDraws (groupPlan opsGroup) docId := by
  decide +kernel

/-- **The group is lost**: `core-Ops Room` is not a valid name for a document. -/
theorem group_lost :
    ¬ ∀ (s : Inner) (w w' : ℕ → Draw) (p : Plan) (gid : DocId) (e : Entry), s.Authors →
      s.models.BuiltIn → p ∈ plans s none → GroupStands s p gid e → FreshDraws w p gid →
      FailsSafely s w w' p gid := by
  intro h
  obtain ⟨hrow, hid, hchannel, hnamed, hhere, hne⟩ := opsGroup_facts
  have hown : opsGroup.Authors := authors_aliceStore _
  have hr : opsGroup.models.BuiltIn := builtIn_aliceStore _
  have hstands := groupStands_sample hnamed hhere
  obtain ⟨hgone, hok, -⟩ := applyOne_outcome hown hr hstands hne opsGroup_draws
  have hfails : ¬ (applyOne opsGroup countingDraws (groupPlan opsGroup)).2.isOk = true :=
    fun hend => absurd ((hok.mp hend).names _ hchannel).1 (by decide)
  have hsafe := h opsGroup countingDraws countingDraws (groupPlan opsGroup) docId
    (opsGroup.entryFor docId) hown hr (groupPlan_mem hrow hid hstands) hstands opsGroup_draws
  cases hrun : applyOne opsGroup countingDraws (groupPlan opsGroup) with
  | mk t r =>
    rw [hrun] at hgone hfails
    cases r with
    | ok x => exact hfails rfl
    | error msg => exact hgone.not_intact (hsafe.intact t msg hrun)

end

end PhReactor
