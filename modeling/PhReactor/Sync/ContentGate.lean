/-
  Do the token gate and the ban gate protect CONTENT?

  Both gates stand in the handler of `Hello`.  `Summary` and `CatchUp` are requests of their own,
  and their handlers ask the read gate of the spaces only.

  1. A reply `reveals` if it holds a document summary, a state or an action.

  2. A peer is an `Outsider` at a step if it is banned, or no hello of it with the right token has
     been acknowledged, this step included.

  3. A hello never reveals anything to an outsider.  A summary and a catch-up do, exactly when the
     read gate lets the peer read: and what is in no space, everybody may read.  So a run protects
     its content exactly when at every such request the outsider may read nothing that is here, or
     not the document it asks for (`content_protected_iff`).
-/
import PhReactor.Sync.Handshake

set_option linter.unusedSectionVars false

namespace PhReactor

/-- The message holds a document summary, a state or an action. -/
def SyncMsg.reveals : SyncMsg → Bool
  | .helloAck ack => !ack.docs.isEmpty
  | .summaryAck clocks => !clocks.isEmpty
  | .catchUpAck ack => ack.state.isSome || !ack.actions.isEmpty
  | _ => false

section

variable [Primitives]

/-! ## What the read gate lets through -/

/-- A catch-up reply reveals something exactly to those who may read the document. -/
theorem reveals_serveCatchUp (s : Inner) (p : PeerId) (d : DocId) (have_ : VecClock) :
    (SyncMsg.catchUpAck (serveCatchUp s p d have_)).reveals = Store.mayPeerRead s p d := by
  unfold serveCatchUp
  split
  · next hread =>
    rw [hread]
    cases hentry : s.entries[d]? with
    | none =>
      unfold Store.mayPeerRead at hread
      rw [hentry] at hread
      cases hread
    | some entry =>
      show (((Store.catchUp s d have_).1.isSome || _) : Bool) = true
      unfold Store.catchUp Store.fullState
      rw [hentry]
      rfl
  · next hread => exact (Bool.eq_false_iff.mpr hread).symm

/-- A summary reveals nothing exactly when the peer may read nothing. -/
theorem reveals_summaryFor (s : Inner) (p : PeerId) :
    (SyncMsg.summaryAck (Store.summaryFor s p).toList).reveals = false ↔
      ∀ d, Store.mayPeerRead s p d = false := by
  have hget : ∀ d, (Store.summaryFor s p)[d]?.isSome = Store.mayPeerRead s p d := by
    intro d
    unfold Store.summaryFor Store.summary
    rw [Std.ExtTreeMap.getElem?_filter', Std.ExtTreeMap.getElem?_map]
    cases hentry : s.entries[d]? with
    | none =>
      unfold Store.mayPeerRead
      rw [hentry]
      rfl
    | some entry => cases Store.mayPeerRead s p d <;> rfl
  have hnil : (SyncMsg.summaryAck (Store.summaryFor s p).toList).reveals = false ↔
      (Store.summaryFor s p).toList = [] := by
    show (!(Store.summaryFor s p).toList.isEmpty) = false ↔ _
    rw [Bool.not_eq_false', List.isEmpty_iff]
  rw [hnil]
  constructor
  · intro h d
    rw [← hget d, Option.isSome_eq_false_iff, Option.isNone_iff_eq_none]
    cases hd : (Store.summaryFor s p)[d]? with
    | none => rfl
    | some c =>
      have hmem := Std.ExtTreeMap.mem_toList_iff_getElem?_eq_some.mpr hd
      rw [h] at hmem
      exact absurd hmem List.not_mem_nil
  · intro h
    refine List.eq_nil_iff_forall_not_mem.mpr fun x hx => ?_
    have hsome := Option.isSome_of_eq_some (Std.ExtTreeMap.mem_toList_iff_getElem?_eq_some.mp hx)
    rw [hget, h x.1] at hsome
    cases hsome

namespace Engine

variable {env : Env} {e : Engine} {p q : PeerId}

/-! ## Who is answered what -/

theorem not_reply_of_plain {o : Effect} (h : o.plain = true ∨ o.fetches = true) (p : PeerId)
    (msg : SyncMsg) : o ≠ .response p msg := by
  rintro rfl
  rcases h with h | h
  · cases h
  · cases h

/-- A hello is answered to its sender, by a refusal or, past all gates, by an acknowledgement. -/
theorem reply_serveHello {h : Hello} {msg : SyncMsg}
    (hreply : .response q msg ∈ (serveHello env e p h).2) :
    q = p ∧ (msg.reveals = true →
      Admitted e p h ∧ e.tokenOk h.token = true ∧ ∃ ack, msg = .helloAck ack) := by
  have hjoined : ∀ o ∈ (acceptInvite env e p h.accept).2, o ≠ .response q msg := by
    rintro o ho rfl
    rcases effects_acceptInvite h.accept _ ho with hno | hno
    · cases hno
    · cases hno
  have hgreet : ∀ o ∈ (greet env (acceptInvite env e p h.accept).1 p).2, o ≠ .response q msg :=
    fun o ho => not_reply_of_plain (Or.inl (effects_greet o ho)) q msg
  have hrun := serveHello_run env e p h
  generalize serveHello env e p h = t at hrun hreply
  cases hrun with
  | shut _ =>
    cases List.mem_singleton.mp hreply
    exact ⟨rfl, fun hno => Bool.noConfusion hno⟩
  | badToken _ _ hout =>
    rcases List.mem_append.mp hreply with hmem | hmem
    · rcases List.mem_append.mp hmem with hmem | hmem
      · exact absurd rfl (hjoined _ hmem)
      · exact absurd rfl (not_reply_of_plain (Or.inl (hout _ hmem)) q msg)
    · cases List.mem_singleton.mp hmem
      exact ⟨rfl, fun hno => Bool.noConfusion hno⟩
  | keyless hadm htok _ =>
    rcases List.mem_append.mp hreply with hmem | hmem
    · exact absurd rfl (hjoined _ hmem)
    · cases List.mem_singleton.mp hmem
      exact ⟨rfl, fun _ => ⟨hadm, htok, _, rfl⟩⟩
  | authRequired _ _ _ _ =>
    rcases List.mem_append.mp hreply with hmem | hmem
    · rw [List.append_nil] at hmem
      exact absurd rfl (hjoined _ hmem)
    · cases List.mem_singleton.mp hmem
      exact ⟨rfl, fun hno => Bool.noConfusion hno⟩
  | passed hadm htok _ _ _ _ =>
    rcases List.mem_append.mp hreply with hmem | hmem
    · rcases List.mem_append.mp hmem with hmem | hmem
      · exact absurd rfl (hjoined _ hmem)
      · exact absurd rfl (hgreet _ hmem)
    · cases List.mem_singleton.mp hmem
      exact ⟨rfl, fun _ => ⟨hadm, htok, _, rfl⟩⟩
  | mismatch _ _ _ _ _ =>
    rcases List.mem_append.mp hreply with hmem | hmem
    · rcases List.mem_append.mp hmem with hmem | hmem
      · exact absurd rfl (hjoined _ hmem)
      · exact absurd rfl (hgreet _ hmem)
    · cases List.mem_singleton.mp hmem
      exact ⟨rfl, fun hno => Bool.noConfusion hno⟩

/-- Whatever is answered at a step, is answered to the peer whose request it is. -/
theorem reply_step {x : Env × Input} {msg : SyncMsg} (hreply : .response q msg ∈ (e.step x).2) :
    e.running = true ∧ ∃ m, x.2 = .request q m ∧ .response q msg ∈ (serveRequest x.1 e q m).2 := by
  obtain ⟨env, i⟩ := x
  unfold step at hreply
  split at hreply
  swap
  · exact absurd hreply List.not_mem_nil
  next hrun =>
  by_cases hreq : ∃ p m, i = .request p m
  · obtain ⟨p, m, rfl⟩ := hreq
    have hrunning : e.running = true := by simpa [Input.ofStore] using hrun
    replace hreply : .response q msg ∈ (serveRequest env e p m).2 := hreply
    have hq : q = p := by
      cases m with
      | hello h => exact (reply_serveHello hreply).1
      | helloAck _ => exact absurd hreply List.not_mem_nil
      | helloErr _ => exact absurd hreply List.not_mem_nil
      | catchUpAck _ => exact absurd hreply List.not_mem_nil
      | summaryAck _ => exact absurd hreply List.not_mem_nil
      | modelDef _ _ => exact absurd hreply List.not_mem_nil
      | chunkData _ _ => exact absurd hreply List.not_mem_nil
      | _ =>
        cases List.mem_singleton.mp hreply
        rfl
    subst hq
    exact ⟨hrunning, m, rfl, hreply⟩
  · push Not at hreq
    exact absurd rfl (not_reply_of_plain ((bounded_turn env i).effects hreq _ hreply) q msg)

/-! ## Outsiders -/

/-- A hello of `p` with the node's token has been acknowledged in the run. -/
def Authenticated (e : Engine) (ins : List (Env × Input)) (p : PeerId) : Prop :=
  ∃ past env h rest ack, ins = past ++ (env, .request p (.hello h)) :: rest ∧
    h.token = e.token ∧
    .response p (.helloAck ack) ∈ ((machine.run e past).step (env, .request p (.hello h))).2

/-- At the step `x` after `past`, the peer is banned, or has not authenticated, not even now. -/
def Outsider (e : Engine) (past : List (Env × Input)) (x : Env × Input) (p : PeerId) : Prop :=
  (machine.run e past).banned.contains p = true ∨ ¬ Authenticated e (past ++ [x]) p

/-- What `p` asks for with its request, the read gate withholds. -/
def Withholds (e : Engine) (p : PeerId) : SyncMsg → Prop
  | .summary _ => ∀ d, Store.mayPeerRead e.store p d = false
  | .catchUp c => Store.mayPeerRead e.store p c.docId = false
  | _ => True

/-- A hello reveals nothing to an outsider. -/
theorem hello_reveals_nothing {past : List (Env × Input)} {h : Hello} {need : String}
    (htoken : e.token = some need) (hout : Outsider e past (env, .request p (.hello h)) p)
    (hrun : (machine.run e past).running = true) {msg : SyncMsg}
    (hreply : .response p msg ∈ (serveHello env (machine.run e past) p h).2) :
    msg.reveals = false := by
  cases hrev : msg.reveals with
  | false => rfl
  | true =>
    obtain ⟨hadm, htok, ack, rfl⟩ := (reply_serveHello hreply).2 hrev
    rcases hout with hban | hnever
    · rw [hadm.1] at hban
      cases hban
    · -- the acknowledgement is what completes the authentication
      refine absurd ⟨past, env, h, [], ack, rfl, ?_, ?_⟩ hnever
      · have hrunToken := token_run e past
        unfold tokenOk at htok
        rw [hrunToken, htoken, Option.all_some, beq_iff_eq] at htok
        exact htok.trans htoken.symm
      · show .response p (.helloAck ack) ∈ (step _ _).2
        unfold step
        rw [hrun]
        exact hreply

theorem mem_step_request {env : Env} {m : SyncMsg} {o : Effect} (hrun : e.running = true)
    (ho : o ∈ (serveRequest env e p m).2) : o ∈ (e.step (env, .request p m)).2 := by
  unfold step
  rw [hrun]
  exact ho

theorem noteSummary_store (clocks : List (DocId × VecClock)) :
    (e.noteSummary env p clocks).store = e.store := by
  unfold noteSummary
  split <;> rfl

/-- No reply of the run reveals anything to an outsider. -/
def Protects (e : Engine) (ins : List (Env × Input)) : Prop :=
  ∀ past x rest, ins = past ++ x :: rest → ∀ p, Outsider e past x p → ∀ msg,
    .response p msg ∈ ((machine.run e past).step x).2 → msg.reveals = false

/-- **Content is protected exactly where the read gate protects it.**  For every run of an engine
    with a token: no reply at any step reveals anything to an outsider, if and only if at every
    summary and every catch-up of an outsider, the read gate withholds what it asks for. -/
theorem content_protected_iff {e : Engine} {need : String} (htoken : e.token = some need)
    (ins : List (Env × Input)) :
    Protects e ins ↔
      ∀ past env p m rest, ins = past ++ (env, .request p m) :: rest →
        Outsider e past (env, .request p m) p → (machine.run e past).running = true →
          Withholds (machine.run e past) p m := by
  constructor
  · intro h past env p m rest hins hout hrun
    have hquiet : ∀ msg, .response p msg ∈ (serveRequest env (machine.run e past) p m).2 →
        msg.reveals = false :=
      fun msg hmsg => h past _ rest hins p hout msg (mem_step_request hrun hmsg)
    cases m with
    | summary clocks =>
      have hreveals := hquiet _ (List.mem_singleton_self _)
      rw [noteSummary_store] at hreveals
      exact (reveals_summaryFor _ p).mp hreveals
    | catchUp c =>
      have hreveals := hquiet _ (List.mem_singleton_self _)
      rw [reveals_serveCatchUp] at hreveals
      exact hreveals
    | _ => trivial
  · intro h past x rest hins p hout msg hreply
    obtain ⟨env, i⟩ := x
    obtain ⟨hrun, m, rfl, hmsg⟩ := reply_step hreply
    have hwith := h past env p m rest hins hout hrun
    cases m with
    | hello hello => exact hello_reveals_nothing htoken hout hrun hmsg
    | summary clocks =>
      cases List.mem_singleton.mp hmsg
      rw [noteSummary_store]
      exact (reveals_summaryFor _ p).mpr hwith
    | catchUp c =>
      cases List.mem_singleton.mp hmsg
      exact (reveals_serveCatchUp _ p c.docId c.have_).trans hwith
    | modelRequest ref =>
      cases List.mem_singleton.mp hmsg
      rfl
    | chunkRequest hash =>
      cases List.mem_singleton.mp hmsg
      rfl
    | _ => exact absurd hmsg List.not_mem_nil

end Engine

end

/-! ## A stranger asks without a hello -/

section

open Sample

attribute [local instance] Sample.primitives

namespace Engine

/-- Mallory asks for a summary, and for nothing else. -/
def bareSummary : Env × Input := (calmEnv, .request mallory.name (.summary []))

/-- There is only one step in it. -/
theorem eq_of_bareSummary : ∀ past x rest, [bareSummary] = past ++ x :: rest →
    past = [] ∧ x = bareSummary :=
  Lib.forall_cuts_cons.mpr ⟨⟨rfl, rfl⟩, Lib.forall_cuts_nil⟩

/-- From an empty store, nobody is served. -/
theorem content_protected_iff_empty : Protects guardedEngine [bareSummary] := by
  have htoken : guardedEngine.token = some "secret" := rfl
  refine (content_protected_iff htoken [bareSummary]).mpr ?_
  intro past env p m rest hins _ _
  obtain ⟨rfl, hx⟩ := eq_of_bareSummary _ _ _ hins
  cases hx
  exact fun d => mayPeerRead_of_none Std.ExtTreeMap.getElem?_empty mallory.name

/-- Alice's engine over a note in no space, with a token. -/
def guardedNote : Engine := { aliceOver noteStore with token := some "secret" }

/-- **A stranger is given the note without a hello.** -/
theorem stranger_is_served :
    ¬ ∀ (e : Engine) (need : String), e.token = some need →
      ∀ ins : List (Env × Input), Protects e ins := by
  intro hall
  have hread : Store.mayPeerRead guardedNote.store mallory.name docId = true := by
    decide +kernel
  have hout : Outsider guardedNote [] bareSummary mallory.name := by
    right
    rintro ⟨past, env, h, rest, ack, hins, -⟩
    obtain ⟨-, hx⟩ := eq_of_bareSummary _ _ _ hins
    cases hx
  have hnothing := hall guardedNote "secret" rfl [bareSummary] [] bareSummary [] rfl mallory.name
    hout _ (List.mem_singleton_self _)
  have hunread := (reveals_summaryFor guardedNote.store mallory.name).mp hnothing docId
  rw [hread] at hunread
  cases hunread

end Engine

end

end PhReactor
