/-
  What leaves the node UNASKED, and the read gate.

  `may_peer_read` decides who is served a document.  It is consulted for every reply.  Three other
  kinds of message leave the node without it:

  1. **Gossip.**  `publish_action` asks `space_visibility`, which answers `None` both for a document
     in no space and for one whose space document is not here.  The first is readable by everybody,
     the second by nobody, and both are gossiped: a published action is readable by every peer
     exactly when its space document is here (`gossip_meets_gate_iff`).

  2. **Catch-up requests** only ask for documents the peer has named (`Heard`).

  3. **Summaries.**  The tick sends every due drive ALL our clocks.  So a run respects the gate
     exactly when, at every tick, whatever a due drive's peer may not read it has named before
     (`requests_respect_gate_iff`).
-/
import PhReactor.Store.Visibility
import PhReactor.Sync.Moves
import PhReactor.Sync.Replies

set_option linter.unusedSectionVars false

namespace PhReactor

section

variable [Primitives]

/-! ## Gossip -/

/-- The space a document is in, if any, has its document here. -/
def SpaceHere (s : Inner) (d : DocId) : Prop :=
  ∀ (e : Entry) (sp : DocId), s.entries[d]? = some e → e.space = some sp →
    s.entries[sp]?.isSome = true

/-- A document in a space that is not here is served to nobody. -/
theorem mayPeerRead_of_absent {s : Inner} {d sp : DocId} {e : Entry}
    (he : s.entries[d]? = some e) (hsp : e.space = some sp) (habs : s.entries[sp]? = none)
    (p : Origin) : Store.mayPeerRead s p d = false := by
  have hne : sp ≠ d := by
    rintro rfl
    rw [he] at habs
    exact nomatch habs
  unfold Store.mayPeerRead
  rw [he]
  dsimp only
  rw [hsp]
  dsimp only
  rw [if_neg hne, habs]

theorem mayPeerRead_of_no_space {s : Inner} {d : DocId} {e : Entry} (he : s.entries[d]? = some e)
    (hsp : e.space = none) (p : Origin) : Store.mayPeerRead s p d = true := by
  unfold Store.mayPeerRead
  rw [he]
  dsimp only
  rw [hsp]

/-- **The two predicates agree exactly where the space document is here.** -/
theorem everyone_reads_iff {s : Inner} {d : DocId} (hd : s.entries[d]?.isSome = true)
    (hgate : (Store.spaceVisibility s d).all Store.mayGossip = true) :
    (∀ p, Store.mayPeerRead s p d = true) ↔ SpaceHere s d := by
  obtain ⟨e, he⟩ := Option.isSome_iff_exists.mp hd
  cases hsp : e.space with
  | none =>
    constructor
    · intro _ e' sp he' hsp'
      rw [Option.some.inj (he.symm.trans he')] at hsp
      exact nomatch hsp.symm.trans hsp'
    · exact fun _ p => mayPeerRead_of_no_space he hsp p
  | some sp =>
    cases hspace : s.entries[sp]? with
    | none =>
      constructor
      · intro h
        exact nomatch (h "").symm.trans (mayPeerRead_of_absent he hsp hspace "")
      · intro h
        have hsome := h e sp he hsp
        rw [hspace] at hsome
        exact nomatch hsome
    | some gate =>
      obtain ⟨hvis, hread⟩ := gate_decides he hsp hspace
      rw [hvis, Option.all_some] at hgate
      replace hgate : (Store.visibilityOf gate.doc == "public") = true := hgate
      constructor
      · intro _ e' sp' he' hsp'
        rw [← Option.some.inj (he.symm.trans he'), hsp] at hsp'
        rw [← Option.some.inj hsp', hspace]
        rfl
      · intro _ p
        rw [hread p, hgate, Bool.true_or]

namespace Engine

/-- An engine over a store that was just opened, on any disk. -/
def Starts (e : Engine) : Prop :=
  ∃ disk key origin extra peerId pubName token banned blobs,
    e = Engine.new (Store.openWithModels disk key origin extra) peerId pubName token banned blobs

/-- The queue is held along every run. -/
theorem queueHeld_run {e : Engine} (h : e.Starts) (ins : List (Env × Input)) :
    QueueHeld (machine.run e ins).store := by
  obtain ⟨disk, key, origin, extra, peerId, pubName, token, banned, blobs, rfl⟩ := h
  exact machine.run_invariant (I := fun _ e => QueueHeld e.store)
    (queueHeld_openWithModels disk key origin extra)
    (fun _ e x hq => queueHeld_steps hq (moves_step e x).store) ins

/-- What is published was queued, and has passed the gate of `publish_action`. -/
theorem queued_of_publish {e : Engine} {x : Env × Input} {msg : ActionMsg}
    (h : .publish msg ∈ (e.step x).2) : msg.action ∈ e.store.queue ∧
      (Store.spaceVisibility e.store msg.action.docId).all Store.mayGossip = true := by
  rcases (moves_step e x).effects _ h with
    (hquiet | ⟨_, _, _, heq, _⟩) | ⟨_, heq, hpub⟩ | ⟨-, _, _, -, heq⟩
  · exact nomatch hquiet
  · exact nomatch heq
  · cases heq
    exact hpub
  · exact nomatch heq

/-- **Gossip meets the read gate exactly where the space document is here.**  In every run of an
    engine, on any disk: what is published at any step is readable by every peer at that moment if
    and only if the space of its document, if it is in one, is here. -/
theorem gossip_meets_gate_iff {e : Engine} (hstart : e.Starts) (past : List (Env × Input))
    (x : Env × Input) {msg : ActionMsg} (hpub : .publish msg ∈ ((machine.run e past).step x).2) :
    (∀ p, Store.mayPeerRead (machine.run e past).store p msg.action.docId = true) ↔
      SpaceHere (machine.run e past).store msg.action.docId := by
  obtain ⟨hqueue, hgate⟩ := queued_of_publish hpub
  exact everyone_reads_iff (queueHeld_run hstart past msg.action hqueue) hgate

/-! ## Requests -/

/-- A message of `p` has named `d`. -/
def Named (past : List (Env × Input)) (p : PeerId) (d : DocId) : Prop :=
  ∃ x ∈ past, Learns x.2 p d

/-- Every request the step sends names only documents its receiver may read, or has named. -/
def Respects (past : List (Env × Input)) (e : Engine) (x : Env × Input) : Prop :=
  ∀ id p msg, .request id p msg ∈ (e.step x).2 → ∀ d ∈ msg.docs,
    Store.mayPeerRead e.store p d = true ∨ Named (past ++ [x]) p d

/-- Whatever the peer of a due drive may not read, it has named. -/
def TickClear (past : List (Env × Input)) (env : Env) (e : Engine) : Prop :=
  ∀ (name : String) (rt : DriveRuntime), e.drives[name]? = some rt → rt.drive.paused = false →
    rt.handshaken = true → rt.nextCatchUp ≤ env.now → ∀ d, e.store.entries[d]?.isSome = true →
      Store.mayPeerRead e.store rt.peer d = true ∨ Named past rt.peer d

/-- The engine has clocks only for documents the drive's peer has named. -/
theorem named_of_heard {e : Engine} (hnone : e.drives = ∅) (past : List (Env × Input)) :
    ∀ p d, (machine.run e past).Heard p d → Named past p d := by
  refine machine.run_invariant (I := fun past e => ∀ p d, e.Heard p d → Named past p d) ?_ ?_ past
  · rintro p d ⟨name, rt, hrt, -⟩
    rw [hnone, Std.ExtTreeMap.getElem?_empty] at hrt
    exact nomatch hrt
  · intro past e x ih p d hd
    rcases (moves_step e x).heard p d hd with hd | hd
    · obtain ⟨y, hy, hlearn⟩ := ih p d hd
      exact ⟨y, List.mem_append_left _ hy, hlearn⟩
    · exact ⟨x, List.mem_append_right _ (List.mem_singleton_self x), hd⟩

theorem mem_summary_docs {s : Inner} {d : DocId} :
    d ∈ (SyncMsg.summary (Store.summary s).toList).docs ↔ s.entries[d]?.isSome = true := by
  show d ∈ (Store.summary s).toList.map Prod.fst ↔ _
  rw [Std.ExtTreeMap.map_fst_toList_eq_keys, Std.ExtTreeMap.mem_keys,
    Std.ExtTreeMap.mem_iff_isSome_getElem?]
  unfold Store.summary
  rw [Std.ExtTreeMap.getElem?_map, Option.isSome_map]

/-- A tick names nothing. -/
theorem named_tick {past : List (Env × Input)} {env : Env} {lastActivity : ℕ} {p : PeerId}
    {d : DocId} : Named (past ++ [(env, .tick lastActivity)]) p d ↔ Named past p d := by
  constructor
  · rintro ⟨y, hy, hlearn⟩
    rcases List.mem_append.mp hy with hy | hy
    · exact ⟨y, hy, hlearn⟩
    · rw [List.mem_singleton.mp hy] at hlearn
      exact hlearn.elim
  · rintro ⟨y, hy, hlearn⟩
    exact ⟨y, List.mem_append_left _ hy, hlearn⟩

/-- A tick that respects the gate is clear: every due drive is sent a summary of everything. -/
theorem tickClear_of_respects {past : List (Env × Input)} {env : Env} {e : Engine}
    {lastActivity : ℕ} (hrun : e.running = true) (h : Respects past e (env, .tick lastActivity)) :
    TickClear past env e := by
  intro name rt hrt hpaused hshaken hdue d hd
  have hmem : (name, rt) ∈ e.dueDrives env := mem_dueDrives.mpr ⟨hrt, hpaused, hshaken, hdue⟩
  obtain ⟨id, hsent⟩ := summary_mem_tick lastActivity hmem
  have hstep : e.step (env, .tick lastActivity) = tick env e lastActivity := by
    unfold step
    rw [hrun]
    rfl
  rw [← hstep] at hsent
  rcases h id rt.peer _ hsent d (mem_summary_docs.mpr hd) with hread | hnamed
  · exact Or.inl hread
  · exact Or.inr (named_tick.mp hnamed)

theorem respects_of_tickClear {past : List (Env × Input)} {e : Engine} {x : Env × Input}
    (hheard : ∀ p d, e.Heard p d → Named past p d)
    (hclear : ∀ lastActivity, x.2 = .tick lastActivity → e.running = true →
      TickClear past x.1 e) : Respects past e x := by
  intro id p msg hsent d hd
  have hnamed : ∀ d, e.Heard p d ∨ Learns x.2 p d → Named (past ++ [x]) p d := by
    rintro d (hd | hd)
    · obtain ⟨y, hy, hlearn⟩ := hheard p d hd
      exact ⟨y, List.mem_append_left _ hy, hlearn⟩
    · exact ⟨x, List.mem_append_right _ (List.mem_singleton_self x), hd⟩
  rcases (moves_step e x).effects _ hsent with
    (hquiet | ⟨_, _, c, heq, hc⟩) | ⟨_, heq, -⟩ | ⟨⟨lastActivity, htick⟩, _, due, hdue, heq⟩
  · -- a quiet request names nothing
    replace hquiet : msg.docs.isEmpty = true := hquiet
    rw [List.isEmpty_iff.mp hquiet] at hd
    exact absurd hd List.not_mem_nil
  · cases heq
    rw [List.mem_singleton.mp hd]
    exact Or.inr (hnamed c.docId hc)
  · exact nomatch heq
  · cases heq
    -- an engine that was shut down sends nothing
    have hrunning : e.running = true := by
      cases hrun : e.running with
      | true => rfl
      | false =>
        unfold step at hsent
        rw [hrun, htick] at hsent
        exact absurd hsent List.not_mem_nil
    obtain ⟨hrt, hpaused, hshaken, hnow⟩ := mem_dueDrives.mp hdue
    rcases hclear lastActivity htick hrunning due.1 due.2 hrt hpaused hshaken hnow d
      (mem_summary_docs.mp hd) with hread | ⟨y, hy, hlearn⟩
    · exact Or.inl hread
    · exact Or.inr ⟨y, List.mem_append_left _ hy, hlearn⟩

/-- **Requests respect the read gate exactly when every tick is clear.**  For every run of an
    engine: every summary and every catch-up request that any of its steps sends names only
    documents its receiver may read at that moment, or has named itself, if and only if at every
    tick the peer of a due drive may read, or has named, every document that is here. -/
theorem requests_respect_gate_iff (store : Inner) (peerId : PeerId) (pubName : String)
    (token : Option String) (banned : Std.ExtTreeSet PeerId)
    (blobs : Std.ExtTreeMap Hash32 (List UInt8)) (ins : List (Env × Input)) :
    (∀ past x rest, ins = past ++ x :: rest →
      Respects past (machine.run (Engine.new store peerId pubName token banned blobs) past) x) ↔
    ∀ past env lastActivity rest, ins = past ++ (env, .tick lastActivity) :: rest →
      (machine.run (Engine.new store peerId pubName token banned blobs) past).running = true →
        TickClear past env
          (machine.run (Engine.new store peerId pubName token banned blobs) past) := by
  constructor
  · intro h past env lastActivity rest hins hrun
    exact tickClear_of_respects hrun (h past (env, .tick lastActivity) rest hins)
  · intro h past x rest hins
    refine respects_of_tickClear (named_of_heard rfl past) fun lastActivity htick hrun => ?_
    refine h past x.1 lastActivity rest ?_ hrun
    rw [hins, ← htick]

end Engine

end

/-! ## Runs -/

section

open Sample

attribute [local instance] Sample.primitives

namespace Engine

/-- Alice's engine, over an empty store. -/
def aliceEngine : Engine := aliceOver (Store.fresh alice.key alice.name [])

theorem aliceEngine_starts : aliceEngine.Starts :=
  ⟨_, _, _, _, _, _, _, _, _, rfl⟩

/-- The action a publication carries. -/
def published? : Effect → Option Action
  | .publish msg => some msg.action
  | _ => none

theorem exists_publish {l : List Effect} {a : Action} (h : a ∈ l.filterMap published?) :
    ∃ msg, .publish msg ∈ l ∧ msg.action = a := by
  obtain ⟨o, ho, heq⟩ := List.mem_filterMap.mp h
  cases o with
  | publish msg => exact ⟨msg, ho, Option.some.inj heq⟩
  | request id p msg => exact nomatch heq
  | response p msg => exact nomatch heq
  | dial addr => exact nomatch heq
  | event ev => exact nomatch heq

/-- A public space of alice's. -/
def publicInit : Action :=
  actOn spaceId alice "space" "init" (.object [("managers", strs ["alice"]),
    ("members", strs ["alice"]), ("name", .string "square"), ("visibility", .string "public")]) 5
    [("alice", 1)] (some spaceId)

/-- Alice's public space is gossiped, and everybody may read it. -/
theorem gossip_meets_gate_iff_public :
    ∃ msg, .publish msg ∈ ((machine.run aliceEngine
        [(calmEnv, .store (.applyAction Io.ok publicInit))]).step (calmEnv, .tick 0)).2 ∧
      ∀ p, Store.mayPeerRead (machine.run aliceEngine
        [(calmEnv, .store (.applyAction Io.ok publicInit))]).store p msg.action.docId = true := by
  have hfacts : publicInit ∈ (((machine.run aliceEngine
        [(calmEnv, .store (.applyAction Io.ok publicInit))]).step
          (calmEnv, .tick 0)).2.filterMap published?) ∧
      ((machine.run aliceEngine [(calmEnv, .store (.applyAction Io.ok publicInit))]).store.entries[
        spaceId]?.map Entry.space) = some (some spaceId) := by
    decide +kernel
  obtain ⟨msg, hpub, hmsg⟩ := exists_publish hfacts.1
  refine ⟨msg, hpub, (gossip_meets_gate_iff aliceEngine_starts _ _ hpub).mpr ?_⟩
  rw [hmsg]
  intro e sp he hsp
  have hself := hfacts.2
  rw [show publicInit.docId = spaceId from rfl] at he
  rw [he, Option.map_some, Option.some.injEq, hsp] at hself
  rw [Option.some.inj hself, he]
  rfl

/-- A document of alice's in a space whose document is not here. -/
def strayCreate : Action :=
  act alice "open" "create" (Store.setPayload "__name__" (.string "stray")) 5 [("alice", 1)]
    (some spaceId)

/-- **The document of an absent space is gossiped**, and nobody may read it. -/
theorem absent_space_is_gossiped :
    ¬ ∀ (e : Engine), e.Starts → ∀ (past : List (Env × Input)) (x : Env × Input) (msg : ActionMsg),
      .publish msg ∈ ((machine.run e past).step x).2 →
        ∀ p, Store.mayPeerRead (machine.run e past).store p msg.action.docId = true := by
  intro h
  have hfacts : strayCreate ∈ (((machine.run aliceEngine
        [(calmEnv, .store (.applyAction Io.ok strayCreate))]).step
          (calmEnv, .tick 0)).2.filterMap published?) ∧
      Store.mayPeerRead (machine.run aliceEngine
        [(calmEnv, .store (.applyAction Io.ok strayCreate))]).store "bob"
          strayCreate.docId = false := by
    decide +kernel
  obtain ⟨msg, hpub, hmsg⟩ := exists_publish hfacts.1
  have hread := h aliceEngine aliceEngine_starts _ _ msg hpub "bob"
  rw [hmsg, hfacts.2] at hread
  exact nomatch hread

/-- Mallory's node as a drive of alice's. -/
def malloryDrive : Drive where
  name := "mallory"
  addr := [.p2p mallory.name]
  tokenEnv := none
  paused := false
  availableOffline := true

/-- Alice has a protected space; mallory, who is no member, completes a handshake. -/
def malloryConnects : List (Env × Input) :=
  [(calmEnv, .store (.applyAction Io.ok spaceInit)), (calmEnv, .cmd (.addDrive malloryDrive)),
    (calmEnv, .request mallory.name (.hello malloryHello))]

/-- **A tick names a protected space to a stranger.** -/
theorem tick_names_protected_space :
    ¬ ∀ (store : Inner) (peerId : PeerId) (pubName : String) (token : Option String)
      (banned : Std.ExtTreeSet PeerId) (blobs : Std.ExtTreeMap Hash32 (List UInt8))
      (ins past : List (Env × Input)) (x : Env × Input) (rest : List (Env × Input)),
      ins = past ++ x :: rest →
        Respects past (machine.run (Engine.new store peerId pubName token banned blobs) past)
          x := by
  intro h
  have hresp : Respects malloryConnects (machine.run aliceEngine malloryConnects)
      (calmEnv, .tick 0) :=
    h _ _ _ _ _ _ (malloryConnects ++ [(calmEnv, .tick 0)]) malloryConnects _ [] rfl
  have hfacts : (machine.run aliceEngine malloryConnects).running = true ∧
      ((machine.run aliceEngine malloryConnects).drives["mallory"]?.map fun rt =>
        (rt.peer, rt.drive.paused, rt.handshaken, rt.nextCatchUp)) =
          some (mallory.name, false, true, 0) ∧
      (machine.run aliceEngine malloryConnects).store.entries[spaceId]?.isSome = true ∧
      Store.mayPeerRead (machine.run aliceEngine malloryConnects).store mallory.name spaceId =
        false := by
    decide +kernel
  obtain ⟨hrun, hdrive, hhere, hread⟩ := hfacts
  obtain ⟨rt, hrt, heq⟩ := Option.map_eq_some_iff.mp hdrive
  obtain ⟨hpeer, hpaused, hshaken, hnext⟩ : rt.peer = mallory.name ∧ rt.drive.paused = false ∧
      rt.handshaken = true ∧ rt.nextCatchUp = 0 := by simpa using heq
  rcases tickClear_of_respects hrun hresp "mallory" rt hrt hpaused hshaken (hnext ▸ le_refl 0)
    spaceId hhere with hyes | ⟨y, hy, hlearn⟩
  · rw [hpeer, hread] at hyes
    exact nomatch hyes
  · -- none of mallory's messages names a document
    simp only [malloryConnects, List.mem_cons, List.not_mem_nil, or_false] at hy
    rcases hy with rfl | rfl | rfl
    · exact hlearn
    · exact hlearn
    · exact absurd hlearn.2 List.not_mem_nil

end Engine

end

end PhReactor
