/-
  Publications are not repeated (`src/p2p/mod.rs`, `publish_action`).

  What has been published is kept twice: as a set, to ask, and as a queue, to know what to forget.
  `publish_action` is called by the outbound feed and by the tick's drain, in any order; between two
  calls anything may happen to the rest of the engine, the store and with it the gate included.

  1. `PublishRun` is such a history, with the hashes that were sent, in order.

  2. `Remembered` ties set and queue to that list: the queue is its newest part, without repeats,
     and the set has the same hashes.  A call either leaves both alone and sends nothing, or sends
     and adds one hash (`publishAction_cases`), forgetting the oldest (`evict_spec`).

  3. So an action that passes the gate is sent exactly when it is not among the newest, and not
     again before `publishedCap` others were (`publication_dedupe`).
-/
import PhReactor.Lib.Newest
import PhReactor.Sync.ReadGate

set_option linter.unusedSectionVars false

namespace PhReactor

section

variable [Primitives]

namespace Engine

/-! ## Calls -/

/-- Does an action pass the gate: it is in no space, in an unknown one, or in a public one. -/
def passesGate (e : Engine) (action : Action) : Bool :=
  (Store.spaceVisibility e.store action.docId).all Store.mayGossip

/-- The hash of the action that an effect sends to the mesh. -/
def sentHash : Effect → Option Hash32
  | .publish msg => some msg.action.hash
  | _ => none

/-- The effect of a call that sends. -/
def publication (e : Engine) (action : Action) : Effect :=
  .publish { action, name := some e.pubName }

/-- Calls of `publish_action` from `e₀` on, and between them whatever else the engine does; with the
    hashes that were sent. -/
inductive PublishRun (e₀ : Engine) : Engine → List Hash32 → Prop
  | start : PublishRun e₀ e₀ []
  | call {e : Engine} {sent : List Hash32} (past : PublishRun e₀ e sent) (action : Action) :
    PublishRun e₀ (publishAction e action).1
      (sent ++ (publishAction e action).2.filterMap sentHash)
  | meanwhile {e e' : Engine} {sent : List Hash32} (past : PublishRun e₀ e sent)
    (set : e'.published = e.published) (order : e'.publishedOrder = e.publishedOrder) :
    PublishRun e₀ e' sent

/-- Set and queue are the newest of what was sent. -/
structure Remembered (sent : List Hash32) (e : Engine) : Prop where
  order : e.publishedOrder = Lib.newest publishedCap sent
  nodup : e.publishedOrder.Nodup
  same : ∀ h, h ∈ e.published ↔ h ∈ e.publishedOrder

variable {e e₀ : Engine} {a : Action} {sent : List Hash32}

/-! ## One call -/

/-- The eviction keeps the newest hashes, in the queue and in the set. -/
theorem evict_spec {order : List Hash32} {set : Std.ExtTreeSet Hash32} (hnodup : order.Nodup)
    (hsame : ∀ h, h ∈ set ↔ h ∈ order) : (evict order set).1 = Lib.newest publishedCap order ∧
      ∀ h, h ∈ (evict order set).2 ↔ h ∈ (evict order set).1 := by
  induction order generalizing set with
  | nil => exact ⟨(Lib.newest_of_le (Nat.zero_le _)).symm, hsame⟩
  | cons old rest ih =>
    obtain ⟨hold, hrest⟩ := List.nodup_cons.mp hnodup
    unfold evict
    by_cases hlong : publishedCap < (old :: rest).length
    · rw [if_pos hlong, Lib.newest_cons hlong]
      apply ih hrest
      intro h
      rw [Std.ExtTreeSet.mem_erase, hsame, List.mem_cons, Ne, Std.compare_eq_iff_eq]
      constructor
      · rintro ⟨hne, rfl | hmem⟩
        · exact absurd rfl hne
        · exact hmem
      · intro hmem
        refine ⟨?_, Or.inr hmem⟩
        rintro rfl
        exact hold hmem
    · rw [if_neg hlong, Lib.newest_of_le (Nat.not_lt.mp hlong)]
      exact ⟨rfl, hsame⟩

/-- **What a call does**: nothing, when the gate is closed or the hash remembered; otherwise it
    sends, and remembers one more. -/
theorem publishAction_cases (h : Remembered sent e) (a : Action) :
    ((e.passesGate a = false ∨ a.hash ∈ e.publishedOrder) ∧ publishAction e a = (e, [])) ∨
      (e.passesGate a = true ∧ a.hash ∉ e.publishedOrder ∧
        (publishAction e a).2 = [publication e a] ∧
        Remembered (sent ++ [a.hash]) (publishAction e a).1) := by
  unfold publishAction
  cases hgate : e.passesGate a with
  | false =>
    have hclosed : (!(Store.spaceVisibility e.store a.docId).all Store.mayGossip) = true := by
      unfold passesGate at hgate
      rw [hgate]
      rfl
    rw [if_pos hclosed]
    exact Or.inl ⟨Or.inl rfl, rfl⟩
  | true =>
    have hopen : ¬ (!(Store.spaceVisibility e.store a.docId).all Store.mayGossip) = true := by
      unfold passesGate at hgate
      rw [hgate]
      exact Bool.false_ne_true
    rw [if_neg hopen]
    by_cases hmem : a.hash ∈ e.publishedOrder
    · rw [if_pos (Std.ExtTreeSet.contains_iff_mem.mpr ((h.same _).mpr hmem))]
      exact Or.inl ⟨Or.inr hmem, rfl⟩
    · rw [if_neg fun hc => hmem ((h.same _).mp (Std.ExtTreeSet.contains_iff_mem.mp hc))]
      have hnodup : (e.publishedOrder ++ [a.hash]).Nodup := by
        rw [List.nodup_append_comm]
        exact List.nodup_cons.mpr ⟨hmem, h.nodup⟩
      have hsame : ∀ x, x ∈ e.published.insert a.hash ↔ x ∈ e.publishedOrder ++ [a.hash] := by
        intro x
        rw [Std.ExtTreeSet.mem_insert, Std.compare_eq_iff_eq, h.same, List.mem_append,
          List.mem_singleton, or_comm, eq_comm]
      obtain ⟨horder, hset⟩ := evict_spec hnodup hsame
      have hnewest : (evict (e.publishedOrder ++ [a.hash]) (e.published.insert a.hash)).1 =
          Lib.newest publishedCap (sent ++ [a.hash]) := by
        rw [horder, h.order, ← Lib.newest_concat]
      refine Or.inr ⟨rfl, hmem, rfl, hnewest, ?_, hset⟩
      show (evict (e.publishedOrder ++ [a.hash]) (e.published.insert a.hash)).1.Nodup
      rw [horder]
      exact hnodup.sublist Lib.newest_sublist

/-! ## Runs of calls -/

theorem Remembered.of_empty (hset : e.published = ∅) (horder : e.publishedOrder = []) :
    Remembered [] e := by
  refine ⟨?_, ?_, fun h => ?_⟩
  · rw [horder]
    exact (Lib.newest_of_le (Nat.zero_le _)).symm
  · rw [horder]
    exact List.nodup_nil
  · rw [hset, horder]
    simp

/-- **Run lemma**: set and queue stay in step with what is sent. -/
theorem PublishRun.remembered (hstart : Remembered [] e₀) (hrun : PublishRun e₀ e sent) :
    Remembered sent e := by
  induction hrun with
  | start => exact hstart
  | @call e sent _ action ih =>
    rcases publishAction_cases ih action with ⟨-, hnone⟩ | ⟨-, -, hsent, hnext⟩
    · rw [hnone]
      simpa using ih
    · rw [hsent]
      exact hnext
  | meanwhile _ hset horder ih =>
    refine ⟨horder.trans ih.order, ?_, fun h => ?_⟩
    · rw [horder]
      exact ih.nodup
    · rw [hset, horder]
      exact ih.same h

/-- The tick's drain is a run of calls. -/
theorem PublishRun.drainQueue (hrun : PublishRun e₀ e sent) :
    PublishRun e₀ e.drainQueue.1 (sent ++ e.drainQueue.2.filterMap sentHash) := by
  have hall : ∀ (l : List Action) {e : Engine} {sent : List Hash32}, PublishRun e₀ e sent →
      PublishRun e₀ (Lib.sweep publishAction e l).1
        (sent ++ (Lib.sweep publishAction e l).2.filterMap sentHash) := by
    intro l
    induction l with
    | nil =>
      intro e sent h
      simpa [Lib.sweep] using h
    | cons a l ih =>
      intro e sent h
      have hrest := ih (h.call a)
      rw [List.append_assoc, ← List.filterMap_append] at hrest
      exact hrest
  exact hall e.store.outbound (hrun.meanwhile rfl rfl)

/-- What the feed has next is a call. -/
theorem PublishRun.outbound (hrun : PublishRun e₀ e sent) (env : Env) :
    PublishRun e₀ (turn env e .outbound).1
      (sent ++ (turn env e .outbound).2.filterMap sentHash) := by
  unfold turn
  dsimp only
  split
  · next a rest _ =>
    have hfed : PublishRun e₀ { e with store := { e.store with outboundFeed := some rest } } sent :=
      hrun.meanwhile rfl rfl
    exact hfed.call a
  · simpa using hrun

/-- **Publications are not repeated.**  After any history of calls: set and queue hold the same
    hashes, the newest of those sent, in order and without repeats; an action that passes the gate
    is sent exactly when its hash is not among them; and one that was sent is not sent again while
    fewer than `publishedCap` others were sent after it. -/
theorem publication_dedupe (hset : e₀.published = ∅) (horder : e₀.publishedOrder = [])
    (hrun : PublishRun e₀ e sent) :
    (e.publishedOrder = Lib.newest publishedCap sent ∧ e.publishedOrder.Nodup ∧
        e.publishedOrder.length ≤ publishedCap ∧ ∀ h, h ∈ e.published ↔ h ∈ e.publishedOrder) ∧
      (∀ a, e.passesGate a = true →
        ((publishAction e a).2 = [publication e a] ↔ a.hash ∉ e.publishedOrder) ∧
          ((publishAction e a).2 = [] ↔ a.hash ∈ e.publishedOrder)) ∧
      ∀ a past later, sent = past ++ a.hash :: later → later.length < publishedCap →
        publishAction e a = (e, []) := by
  have hrem := hrun.remembered (.of_empty hset horder)
  refine ⟨⟨hrem.order, hrem.nodup, ?_, hrem.same⟩, fun a hgate => ?_, ?_⟩
  · rw [hrem.order, Lib.length_newest]
    exact Nat.min_le_left _ _
  · rcases publishAction_cases hrem a with ⟨hclosed | hmem, hnone⟩ | ⟨-, hmem, hsent, -⟩
    · rw [hgate] at hclosed
      cases hclosed
    · rw [hnone]
      simp [hmem]
    · rw [hsent]
      simp [hmem]
  · intro a past later hsent hfew
    have hmem : a.hash ∈ e.publishedOrder := by
      rw [hrem.order, hsent]
      exact Lib.mem_newest hfew
    rcases publishAction_cases hrem a with ⟨-, hnone⟩ | ⟨-, hnew, -⟩
    · exact hnone
    · exact absurd hmem hnew

end Engine

end

section

open Sample Engine

attribute [local instance] Sample.primitives

/-- A group's first action, published once. -/
theorem groupInit_sent : (Engine.publishAction aliceEngine groupInit).2.filterMap Engine.sentHash =
    [] ++ groupInit.hash :: [] := by
  decide +kernel

/-- It is not sent a second time. -/
theorem publication_dedupe_twice :
    (Engine.publishAction aliceEngine groupInit).2.filterMap Engine.sentHash = [groupInit.hash] ∧
      Engine.publishAction (Engine.publishAction aliceEngine groupInit).1 groupInit =
        ((Engine.publishAction aliceEngine groupInit).1, []) :=
  ⟨groupInit_sent, (Engine.publication_dedupe rfl rfl (.call .start groupInit)).2.2 groupInit [] []
    groupInit_sent (by decide)⟩

end

end PhReactor
