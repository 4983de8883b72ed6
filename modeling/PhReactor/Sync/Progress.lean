/-
  What one catch-up reply does for the node that asked (`src/p2p/mod.rs`, `CatchUp` and
  `CatchUpAck`; `src/p2p/codec.rs`, `write_msg`).

  1. `Progresses` is what the exchange is for: the reply can be framed, the requester ends up with
     something it did not have, and as long as it is behind the responder a gap says so.

  2. Each of the three can fail.  The state comes on top of 64 actions of any size.  What a
     snapshot has swept out of the log is in the state only, which the requester does not adopt.
     And the clock it remembers of the responder is overwritten with that of the page's last
     action, which a page that is taken in covers.

  3. `CanProgress` is the condition, on the two stores before the reply; it is exact
     (`progresses_iff_canProgress`).  The last two ways to fail are theorems of their own
     (`not_progresses_of_swept`, `not_canProgress_of_takesIn`).
-/
import PhReactor.Sync.Framing
import PhReactor.Sync.Synced

set_option linter.unusedSectionVars false

namespace PhReactor

namespace Engine

section

variable [Primitives]

/-! ## Progress -/

/-- The requester, once it has handled the reply. -/
def taught (env : Env) (e : Engine) (peer : PeerId) (id : ℕ) (ack : CatchUpAck) : Engine :=
  (turn env e (.response peer id (.catchUpAck ack))).1

/-- An action of the reply counts now and did not before. -/
def Applies (before after : Inner) (ack : CatchUpAck) : Prop :=
  ∃ a ∈ ack.actions, (before.clockOf ack.docId).covers a.clock = false ∧
    (after.clockOf ack.docId).covers a.clock = true

/-- The state of the reply is the document's. -/
def Adopts (after : Inner) (ack : CatchUpAck) : Prop :=
  ∃ st, ack.state = some st ∧ (after.entryFor ack.docId).doc = st.doc ∧
    (after.entryFor ack.docId).clock = st.clock

/-- A clock remembered of the drive is ahead of the store's. -/
def KnowsBehind (e : Engine) (name : String) (d : DocId) : Prop :=
  ∀ rt, e.drives[name]? = some rt → ∃ gap ∈ gaps (Store.summary e.store) rt.remoteClocks, gap.1 = d

/-- The reply can be framed, brings the requester something new, and leaves it aware of being
    behind `theirs` as long as it is. -/
structure Progresses (env : Env) (e : Engine) (name : String) (peer : PeerId) (id : ℕ)
    (ack : CatchUpAck) (theirs : VecClock) : Prop where
  framed : (writeMsg (strBytes ack.message)).isOk = true
  enlarges : Applies e.store (taught env e peer id ack).store ack ∨
    Adopts (taught env e peer id ack).store ack
  aware : ((taught env e peer id ack).store.clockOf ack.docId).covers theirs = false →
    KnowsBehind (taught env e peer id ack) name ack.docId

/-! ## The condition -/

/-- The actions of the responder's log that the clock does not cover. -/
def missing (r : Inner) (d : DocId) (c : VecClock) : List Action :=
  (r.entryFor d).log.filter fun a => !c.covers a.clock

/-- The first of them, as many as a reply carries. -/
def page (r : Inner) (d : DocId) (c : VecClock) : List Action :=
  (missing r d c).take catchUpMaxActions

/-- The state and the page fit the cap; some action of the page counts; and the actions that count
    bring the requester's clock up to the responder's, or leave it short of the page's last. -/
structure CanProgress (env : Env) (s r : Inner) (d : DocId) : Prop where
  fits : replyBytes (Store.fullState r d) (page r d (s.clockOf d))
    (decide (catchUpMaxActions < (missing r d (s.clockOf d)).length)) ≤ maxMsgBytes
  counts : counted env d s (page r d (s.clockOf d)) ≠ []
  reaches : (heard env d s (page r d (s.clockOf d))).covers (r.clockOf d) = true ∨
    ∀ a, (page r d (s.clockOf d)).getLast? = some a →
      (heard env d s (page r d (s.clockOf d))).covers a.clock = false

variable {env : Env} {e : Engine} {name : String} {peer : PeerId} {d : DocId} {s r : Inner}

theorem not_covers_of_mem_page {c : VecClock} {a : Action} (h : a ∈ page r d c) :
    c.covers a.clock = false := by
  have hmem := (List.mem_filter.mp (List.mem_of_mem_take h)).2
  rwa [Bool.not_eq_true'] at hmem

/-- `ack` is what the responder sends at clock `c`. -/
structure ReplyOf (r : Inner) (c : VecClock) (ack : CatchUpAck) : Prop where
  state : ack.state = Store.fullState r ack.docId
  actions : ack.actions = page r ack.docId c
  more : ack.more = decide (catchUpMaxActions < (missing r ack.docId c).length)

/-- The reply to a peer that may read the document. -/
theorem replyOf_turn {env : Env} {r : Engine} {asker : PeerId} {c : VecClock} {ack : CatchUpAck}
    (hread : Store.mayPeerRead r.store asker d = true)
    (hreply : Effect.response asker (.catchUpAck ack) ∈
      (turn env r (.request asker (.catchUp ⟨d, c⟩))).2) :
    ack.docId = d ∧ ReplyOf r.store c ack := by
  obtain ⟨-, hmsg⟩ := Effect.response.inj (List.mem_singleton.mp hreply)
  obtain rfl := SyncMsg.catchUpAck.inj hmsg
  have hstate : (Store.catchUp r.store d c).1 = Store.fullState r.store d := by
    unfold Store.catchUp Store.fullState
    cases r.store.entries[d]? <;> rfl
  unfold serveCatchUp
  rw [if_pos hread]
  refine ⟨rfl, hstate, ?_, ?_⟩
  · exact congrArg (List.take catchUpMaxActions) (catchUp_actions r.store d c)
  · exact congrArg (fun l => decide (catchUpMaxActions < List.length l))
      (catchUp_actions r.store d c)

/-! ## What the page adds -/

theorem covers_foldl_merge (l : List VecClock) (c : VecClock) :
    (l.foldl VecClock.merge c).covers c = true ∧
      ∀ x ∈ l, (l.foldl VecClock.merge c).covers x = true := by
  induction l generalizing c with
  | nil => exact ⟨VecClock.covers_refl c, List.forall_mem_nil _⟩
  | cons y rest ih =>
    obtain ⟨hbase, hrest⟩ := ih (c.merge y)
    exact ⟨VecClock.covers_trans hbase (VecClock.covers_merge_left c y),
      List.forall_mem_cons.mpr
        ⟨VecClock.covers_trans hbase (VecClock.covers_merge_right c y), hrest⟩⟩

theorem heard_covers {l : List Action} {a : Action} (h : a ∈ counted env d s l) :
    (heard env d s l).covers a.clock = true :=
  (covers_foldl_merge _ _).2 _ (List.mem_map_of_mem h)

theorem heard_of_none {l : List Action} (h : counted env d s l = []) :
    heard env d s l = s.clockOf d := by
  unfold heard
  rw [h]
  rfl

/-- The clock rises exactly when some action of the page counts. -/
theorem rises_iff : (s.clockOf d).covers (heard env d s (page r d (s.clockOf d))) = false ↔
    counted env d s (page r d (s.clockOf d)) ≠ [] := by
  constructor
  · intro h hnone
    rw [heard_of_none hnone, VecClock.covers_refl] at h
    cases h
  · intro h
    obtain ⟨a, ha⟩ := List.exists_mem_of_ne_nil _ h
    refine Bool.eq_false_iff.mpr fun hcov => ?_
    have hnew := not_covers_of_mem_page (counted_subset d _ s a ha)
    rw [VecClock.covers_trans hcov (heard_covers ha)] at hnew
    cases hnew

/-! ## What the requester makes of the reply -/

theorem store_taught (hname : e.driveNameByPeer env peer = some name) (id : ℕ) (ack : CatchUpAck) :
    (taught env e peer id ack).store.clockOf ack.docId =
      heard env ack.docId e.store ack.actions := by
  rw [← clockOf_foldl_counted]
  exact congrArg (Inner.clockOf · ack.docId) (catchUpAck_spec id ack hname).2

/-- The drive is there, and its memory is that of the page's last action. -/
theorem drive_taught (hname : e.driveNameByPeer env peer = some name) (id : ℕ) (ack : CatchUpAck) :
    (∃ rt', (taught env e peer id ack).drives[name]? = some rt') ∧
      ∀ rt', (taught env e peer id ack).drives[name]? = some rt' →
        ∃ rt, e.drives[name]? = some rt ∧ rt'.remoteClocks = lastClock ack rt.remoteClocks := by
  obtain ⟨rt, hrt, -⟩ := driveNameByPeer_spec hname
  have hshows : (taught env e peer id ack).shows name = e.drives[name]?.map fun rt =>
      (after env e name rt (.response peer id (.catchUpAck ack))).shown :=
    shows_turn rfl (by exact fun h => nomatch h)
  have hafter : ∀ rt, after env e name rt (.response peer id (.catchUpAck ack)) =
      afterResponse env e peer id rt (.catchUpAck ack) := fun rt => if_pos hname
  unfold shows at hshows
  rw [hrt, Option.map_some] at hshows
  obtain ⟨rt', hrt', hshown⟩ := Option.map_eq_some_iff.mp hshows
  refine ⟨⟨rt', hrt'⟩, fun rt'' hrt'' => ⟨rt, hrt, ?_⟩⟩
  obtain rfl : rt' = rt'' := Option.some.inj (hrt'.symm.trans hrt'')
  rw [hafter] at hshown
  exact congrArg (fun x => x.2.2.2.1) hshown

/-- **What the requester remembers is the last action of the page**: it knows that it is behind
    exactly if it does not cover that one. -/
theorem knowsBehind_iff (hname : e.driveNameByPeer env peer = some name) (id : ℕ)
    {ack : CatchUpAck} {a : Action} (hlast : ack.actions.getLast? = some a) :
    KnowsBehind (taught env e peer id ack) name ack.docId ↔
      (heard env ack.docId e.store ack.actions).covers a.clock = false := by
  obtain ⟨⟨rt', hrt'⟩, hmemory⟩ := drive_taught hname id ack
  have hclock := store_taught hname id ack
  have hremembers : ∀ rt, (taught env e peer id ack).drives[name]? = some rt →
      rt.remoteClocks[ack.docId]? = some a.clock := by
    intro rt hrt
    obtain ⟨rt₀, -, hremote⟩ := hmemory rt hrt
    rw [hremote]
    unfold lastClock
    rw [hlast]
    exact Std.ExtTreeMap.getElem?_insert_self
  unfold KnowsBehind
  simp only [exists_gap_iff]
  constructor
  · intro h
    obtain ⟨c, hc, hcov⟩ := h rt' hrt'
    obtain rfl : c = a.clock := Option.some.inj (hc.symm.trans (hremembers rt' hrt'))
    rw [← hclock]
    exact hcov
  · intro h rt hrt
    exact ⟨a.clock, hremembers rt hrt, by rw [hclock]; exact h⟩

theorem framed_iff (ack : CatchUpAck) : (writeMsg (strBytes ack.message)).isOk = true ↔
    replyBytes ack.state ack.actions ack.more ≤ maxMsgBytes := by
  rw [writeMsg_isOk, length_strBytes, size_message]

/-- **The reply enlarges what the requester has exactly when some action of its page counts.** -/
theorem enlarges_iff (hname : e.driveNameByPeer env peer = some name) (id : ℕ) {ack : CatchUpAck}
    (hreply : ReplyOf r (e.store.clockOf ack.docId) ack)
    (hbehind : (e.store.clockOf ack.docId).covers (r.clockOf ack.docId) = false) :
    (Applies e.store (taught env e peer id ack).store ack ∨
        Adopts (taught env e peer id ack).store ack) ↔
      counted env ack.docId e.store (page r ack.docId (e.store.clockOf ack.docId)) ≠ [] := by
  have hclock := store_taught hname id ack
  rw [hreply.actions] at hclock
  constructor
  · rintro (⟨a, -, hbefore, hafter⟩ | ⟨st, hst, -, hnow⟩)
    · refine rises_iff.mp (Bool.eq_false_iff.mpr fun hcov => ?_)
      rw [hclock] at hafter
      rw [VecClock.covers_trans hcov hafter] at hbefore
      cases hbefore
    · -- the carried state is at the responder's clock
      rw [hreply.state] at hst
      obtain ⟨entry, hentry, rfl⟩ := Option.map_eq_some_iff.mp hst
      have hown : r.clockOf ack.docId = entry.clock := by
        unfold Inner.clockOf
        rw [entryFor_eq hentry]
      refine rises_iff.mp ?_
      rw [← hclock, show (taught env e peer id ack).store.clockOf ack.docId = entry.clock from hnow,
        ← hown]
      exact hbehind
  · intro hcounts
    obtain ⟨a, ha⟩ := List.exists_mem_of_ne_nil _ hcounts
    have hpage := counted_subset ack.docId _ _ a ha
    refine Or.inl ⟨a, hreply.actions ▸ hpage, not_covers_of_mem_page hpage, ?_⟩
    rw [hclock]
    exact heard_covers ha

/-- **What a snapshot has swept out of the log is out of reach**: the reply carries it in the state
    only. -/
theorem not_progresses_of_swept {env env' : Env} {r e : Engine} {asker peer : PeerId}
    {name : String} {d : DocId} {id : ℕ} {ack : CatchUpAck}
    (hread : Store.mayPeerRead r.store asker d = true)
    (hbehind : (e.store.clockOf d).covers (r.store.clockOf d) = false)
    (hname : e.driveNameByPeer env' peer = some name)
    (hreply : Effect.response asker (.catchUpAck ack) ∈
      (turn env r (.request asker (.catchUp ⟨d, e.store.clockOf d⟩))).2)
    (hlog : (r.store.entryFor d).log = []) :
    ¬ Progresses env' e name peer id ack (r.store.clockOf d) := by
  intro h
  obtain ⟨rfl, hack⟩ := replyOf_turn hread hreply
  have hcounts := (enlarges_iff hname id hack hbehind).mp h.enlarges
  unfold page missing at hcounts
  rw [hlog] at hcounts
  exact hcounts rfl

/-- **A page that is taken in is the last one**, if it leaves the requester behind: it covers the
    only clock it remembers. -/
theorem not_canProgress_of_takesIn (htakes : TakesIn env d s (page r d (s.clockOf d)))
    (hbehind : (heard env d s (page r d (s.clockOf d))).covers (r.clockOf d) = false) :
    ¬ CanProgress env s r d := by
  intro h
  have hne : page r d (s.clockOf d) ≠ [] := by
    intro hnil
    have hcounts := h.counts
    rw [hnil] at hcounts
    exact hcounts rfl
  obtain ⟨a, hlast⟩ := Option.isSome_iff_exists.mp (List.getLast?_isSome.mpr hne)
  have hcov := (takesIn_spec htakes).1 a (List.mem_of_getLast? hlast)
  rw [clockOf_foldl_counted] at hcov
  rcases h.reaches with hup | hshort
  · exact absurd hup (Bool.eq_false_iff.mp hbehind)
  · exact absurd hcov (Bool.eq_false_iff.mp (hshort a hlast))

end

end Engine

/-! ## A note and its snapshot -/

section

open Sample

attribute [local instance] Sample.primitives

namespace Engine

/-- Alice's engine with the note in its log, -/
def aliceNotes : Engine :=
  machine.run aliceEngine [(calmEnv, .store (.applyAction Io.ok noteCreate))]

/-- and after a snapshot of it. -/
def aliceSweeps : Engine := machine.run aliceNotes [(calmEnv, .store (.snapshot Io.ok docId))]

def aliceDrive : Drive where
  name := "alice"
  addr := [.p2p alice.name]
  tokenEnv := none
  paused := false
  availableOffline := true

/-- Bob, who has nothing, knows alice's key and has her node as a drive. -/
def bobAsks : Engine :=
  machine.run (Engine.new (Store.fresh bob.key bob.name []) bob.name "bob's node" none ∅ ∅)
    [(calmEnv, .store (.registerPeerKey alice.name alice.key)),
      (calmEnv, .cmd (.addDrive aliceDrive))]

theorem bobAsks_drive : bobAsks.driveNameByPeer calmEnv alice.name = some "alice" := by
  decide +kernel

theorem aliceNotes_facts : Store.mayPeerRead aliceNotes.store bob.name docId = true ∧
    (bobAsks.store.clockOf docId).covers (aliceNotes.store.clockOf docId) = false := by
  decide +kernel

theorem aliceNotes_canProgress :
    CanProgress calmEnv bobAsks.store aliceNotes.store docId := by
  have hfits : replyBytes (Store.fullState aliceNotes.store docId)
      (page aliceNotes.store docId (bobAsks.store.clockOf docId))
      (decide (catchUpMaxActions <
        (missing aliceNotes.store docId (bobAsks.store.clockOf docId)).length)) ≤ maxMsgBytes := by
    decide +kernel
  have hcounts : counted calmEnv docId bobAsks.store
      (page aliceNotes.store docId (bobAsks.store.clockOf docId)) ≠ [] := by
    decide +kernel
  have hreaches : (heard calmEnv docId bobAsks.store
      (page aliceNotes.store docId (bobAsks.store.clockOf docId))).covers
        (aliceNotes.store.clockOf docId) = true := by
    decide +kernel
  exact ⟨hfits, hcounts, Or.inl hreaches⟩

theorem aliceSweeps_facts : Store.mayPeerRead aliceSweeps.store bob.name docId = true ∧
    (bobAsks.store.clockOf docId).covers (aliceSweeps.store.clockOf docId) = false ∧
    (aliceSweeps.store.entryFor docId).log.isEmpty = true := by
  decide +kernel

end Engine

end

end PhReactor
