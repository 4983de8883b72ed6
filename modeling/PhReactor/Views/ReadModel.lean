/-
  Read models and the coordinator that keeps them current (`views/src/read_model.rs`).

  A read model is given SNAPSHOTS of documents.  The coordinator takes them in three stages:

  1. it asks the store for the ids of its documents, then for the state of one after the other
     (`prime`), each question under the store's lock on its own;

  2. it subscribes to the change feed;

  3. it turns every change it receives into a snapshot.

  Other tasks use the store in between.  What they change of a document after it was primed, and
  before the subscription, no change will ever tell (`read_models_miss_the_start`); and the feed
  itself is only complete where `Heard` says so.  `Unmissed` excludes both, and
  `read_models_converge` says that the read models then hold the store's state whenever the feed
  has been consumed.

  The id list comes in the order of a hash map, so priming takes the ids in any order.
-/
import PhReactor.Lib.CarefulRun
import PhReactor.Store.CallLifetime

set_option linter.unusedSectionVars false

namespace PhReactor

/-! ## Snapshots -/

/-- The reduced field map: the values alone. -/
def Doc.values (doc : Doc) : Std.ExtTreeMap String Value := doc.fields.map fun _ f => f.value

/-- A read-only projection of one document. -/
structure DocSnapshot where
  docId : DocId
  name : String
  model : ModelRef
  fields : Std.ExtTreeMap String Value
  deleted : Bool
  /-- The timestamp of the change that produced this snapshot. -/
  ts : U64

namespace DocSnapshot

/-- Build a snapshot from the store's per-doc full state. -/
def fromState (state : DocState) (ts : U64) : DocSnapshot where
  docId := state.doc.id
  name := state.doc.name
  model := state.model
  fields := state.doc.values
  deleted := state.deleted
  ts := ts

/-- Build a snapshot from a doc-change event. -/
def fromChange (c : DocChange) : DocSnapshot where
  docId := c.docId
  name := c.name
  model := c.model
  fields := c.state.doc.values
  deleted := c.deleted
  ts := c.ts

/-- What the snapshot says of the document, without the time it was taken. -/
def untimed (snap : DocSnapshot) : DocSnapshot := { snap with ts := 0 }

end DocSnapshot

/-- A table of snapshots by document takes one more. -/
def give (table : DocId → Option DocSnapshot) (snap : DocSnapshot) : DocId → Option DocSnapshot :=
  Function.update table snap.docId (some snap)

section

variable [Primitives]

/-- The snapshot of the store's current state of `d`. -/
def currentSnapshot (s : Inner) (d : DocId) : Option DocSnapshot :=
  (Store.fullState s d).map fun state => DocSnapshot.fromState state 0

/-! ## The coordinator -/

/-- Where `run` has got to. -/
inductive Stage where
  /-- Before `doc_ids`. -/
  | starting
  /-- In `prime`, these documents are still to be read. -/
  | priming (todo : List DocId)
  /-- Subscribed: the subscriber's number, and how many of its changes were received. -/
  | driving (slot taken : ℕ)
  deriving DecidableEq

structure ReadModelCoordinator where
  store : Inner
  stage : Stage
  /-- The latest snapshot of each document that the read models were given. -/
  given : DocId → Option DocSnapshot

namespace ReadModelCoordinator

/-- `ReadModelCoordinator::new`, and `run` about to start. -/
def new (s : Inner) : ReadModelCoordinator := ⟨s, .starting, fun _ => none⟩

/-- One step of `run`, or an operation of another task. -/
inductive Turn where
  | docIds
  | prime (id : DocId)
  | subscribe
  | recv
  | call (c : Call)

/-- The next change the coordinator receives. -/
def next (s : Inner) (slot taken : ℕ) : Option DocChange :=
  s.subscribers[slot]?.bind fun sent => sent[taken]?

/-- `prime`, on one document. -/
def primed (s : Inner) (given : DocId → Option DocSnapshot) (id : DocId) :
    DocId → Option DocSnapshot :=
  match Store.fullState s id with
  | none => given
  | some state => give given (DocSnapshot.fromState state 0)

def step (m : ReadModelCoordinator) : Turn → Option ReadModelCoordinator
  | .docIds =>
    match m.stage with
    | .starting => some { m with stage := .priming m.store.entries.keys }
    | _ => none
  | .prime id =>
    match m.stage with
    | .priming todo =>
      if todo.contains id then
        some { m with
          stage := .priming (todo.filter (· != id))
          given := primed m.store m.given id }
      else none
    | _ => none
  | .subscribe =>
    match m.stage with
    | .priming [] =>
      some { m with
        store := Store.subscribeChanges m.store
        stage := .driving m.store.subscribers.length 0 }
    | _ => none
  | .recv =>
    match m.stage with
    | .driving slot taken =>
      match next m.store slot taken with
      | some change =>
        some { m with
          stage := .driving slot (taken + 1)
          given := give m.given (DocSnapshot.fromChange change) }
      | none => none
    | _ => none
  | .call c => some { m with store := c.exec m.store }

/-- The feed has been fully consumed. -/
def Consumed (m : ReadModelCoordinator) : Prop :=
  ∃ slot taken, m.stage = .driving slot taken ∧ next m.store slot taken = none

/-- The read models have been given, as the latest snapshot of every document, the store's current
    state of it. -/
def Current (m : ReadModelCoordinator) : Prop :=
  ∀ d, (m.given d).map DocSnapshot.untimed = currentSnapshot m.store d

/-- An operation of another task draws a fresh id. -/
def Fresh (m : ReadModelCoordinator) : Turn → Prop
  | .call c => c.FreshId m.store
  | _ => True

/-- Nobody is sent anything, and no document shows a difference. -/
def Quiet (s t : Inner) : Prop :=
  t.subscribers = s.subscribers ∧ ∀ d, currentSnapshot t d = currentSnapshot s d

/-- An operation of another task is not missed: it comes before `doc_ids`, or changes no document
    that has been primed or that the list does not have, or its changes are sent. -/
def Unmissed (m : ReadModelCoordinator) : Turn → Prop
  | .call c =>
    match m.stage with
    | .starting => True
    | .priming todo =>
      ∀ d, d ∉ todo → currentSnapshot (c.exec m.store) d = currentSnapshot m.store d
    | .driving _ _ => Heard m.store (c.events m.store) ∨ Quiet m.store (c.exec m.store)
  | _ => True

/-! ## What the snapshots of a feed come to -/

/-- The table without the times. -/
def held (table : DocId → Option DocSnapshot) (d : DocId) : Option DocSnapshot :=
  (table d).map DocSnapshot.untimed

/-- The table after the changes. -/
def receive (table : DocId → Option DocSnapshot) (l : List DocChange) :
    DocId → Option DocSnapshot :=
  l.foldl (fun table c => give table (DocSnapshot.fromChange c)) table

theorem receive_append (table : DocId → Option DocSnapshot) (l l' : List DocChange) :
    receive table (l ++ l') = receive (receive table l) l' := List.foldl_append

/-- The snapshot of a full state. -/
def snapshotOf (f : FullState) : DocSnapshot where
  docId := f.doc.id
  name := f.doc.name
  model := f.model
  fields := f.doc.values
  deleted := f.deleted
  ts := 0

theorem currentSnapshot_eq (s : Inner) (d : DocId) :
    currentSnapshot s d = (s.full d).map snapshotOf := by
  unfold currentSnapshot Store.fullState Inner.full
  rw [Option.map_map, Option.map_map]
  rfl

/-- A coherent change is the snapshot of its full state. -/
theorem untimed_fromChange {c : DocChange} (h : c.Coherent) :
    (DocSnapshot.fromChange c).untimed = snapshotOf c.full := by
  show DocSnapshot.mk c.docId c.name c.model c.state.doc.values c.deleted 0 = _
  rw [← h.docId, h.name, h.model, h.deleted]
  rfl

/-- **Coherent changes tell a table what they tell a consumer of full states.** -/
theorem held_receive {l : List DocChange} (hco : ∀ c ∈ l, c.Coherent)
    {table : DocId → Option DocSnapshot} {view : DocId → Option FullState}
    (h : ∀ d, held table d = (view d).map snapshotOf) (d : DocId) :
    held (receive table l) d = (consume view l d).map snapshotOf := by
  induction l generalizing table view with
  | nil => exact h d
  | cons c l ih =>
    refine ih (fun c' hc' => hco c' (List.mem_cons_of_mem c hc')) fun d' => ?_
    show (Function.update table c.docId _ d').map _ =
      (Function.update view c.docId (some c.full) d').map _
    by_cases hd : d' = c.docId
    · rw [hd, Function.update_self, Function.update_self, Option.map_some, Option.map_some,
        untimed_fromChange (hco c List.mem_cons_self)]
    · rw [Function.update_of_ne hd, Function.update_of_ne hd]
      exact h d'

/-! ## What every step keeps -/

/-- What the coordinator has, at each stage, of the documents it is done with. -/
def OnTrack (m : ReadModelCoordinator) : Prop :=
  match m.stage with
  | .starting => ∀ d, m.given d = none
  | .priming todo =>
    ∀ d, (d ∈ todo → m.given d = none) ∧
      (d ∉ todo → held m.given d = currentSnapshot m.store d)
  | .driving slot taken =>
    ∃ sent, m.store.subscribers[slot]? = some sent ∧ taken ≤ sent.length ∧
      ∀ d, held (receive m.given (sent.drop taken)) d = currentSnapshot m.store d

variable {m m' : ReadModelCoordinator}

/-- A document the store does not have has no snapshot. -/
theorem currentSnapshot_of_not_mem {s : Inner} {d : DocId} (h : d ∉ s.entries.keys) :
    currentSnapshot s d = none := by
  have hnone : s.entries[d]? = none := by
    rw [Std.ExtTreeMap.mem_keys] at h
    exact Std.ExtTreeMap.getElem?_eq_none h
  unfold currentSnapshot Store.fullState
  rw [hnone]
  rfl

theorem held_primed {s : Inner} {given : DocId → Option DocSnapshot} {id : DocId}
    (hown : (s.view id).OwnId id) (hnone : given id = none) (d : DocId) :
    held (primed s given id) d = if d = id then currentSnapshot s d else held given d := by
  unfold primed currentSnapshot
  cases hfull : Store.fullState s id with
  | none =>
    by_cases hd : d = id
    · rw [if_pos hd, hd, hfull]
      show (given id).map _ = none
      rw [hnone]
      rfl
    · rw [if_neg hd]
  | some state =>
    -- the state that was read is filed under the id that was asked for
    have hstate : state.doc.id = id := by
      obtain ⟨e, he, rfl⟩ := Option.map_eq_some_iff.mp hfull
      exact hown.entry e he
    show (Function.update given state.doc.id _ d).map _ = _
    rw [hstate]
    by_cases hd : d = id
    · rw [if_pos hd, hd, Function.update_self, hfull]
      rfl
    · rw [if_neg hd, Function.update_of_ne hd]
      rfl

theorem held_eq_none_iff {table : DocId → Option DocSnapshot} {d : DocId} :
    held table d = none ↔ table d = none := Option.map_eq_none_iff

theorem onTrack_docIds (h : m.OnTrack) (hstep : m.step .docIds = some m') : m'.OnTrack := by
  obtain ⟨s, stage, given⟩ := m
  cases stage with
  | starting =>
    obtain rfl := Option.some.inj hstep
    have hnone : ∀ d, given d = none := h
    intro d
    refine ⟨fun _ => hnone d, fun hd => ?_⟩
    rw [currentSnapshot_of_not_mem hd]
    exact held_eq_none_iff.mpr (hnone d)
  | priming todo => cases hstep
  | driving slot taken => cases hstep

theorem onTrack_prime (hown : ∀ d, (m.store.view d).OwnId d) (h : m.OnTrack) {id : DocId}
    (hstep : m.step (.prime id) = some m') : m'.OnTrack := by
  obtain ⟨s, stage, given⟩ := m
  cases stage with
  | starting => cases hstep
  | driving slot taken => cases hstep
  | priming todo =>
    have hboth : ∀ d, (d ∈ todo → given d = none) ∧
      (d ∉ todo → held given d = currentSnapshot s d) := h
    by_cases hid : todo.contains id = true
    swap
    · cases (if_neg hid).symm.trans hstep
    obtain rfl := Option.some.inj ((if_pos hid).symm.trans hstep)
    have hgiven := held_primed (hown id) ((hboth id).1 (List.contains_iff_mem.mp hid))
    intro d
    have hmem : d ∈ todo.filter (· != id) ↔ d ∈ todo ∧ d ≠ id := by
      rw [List.mem_filter, bne_iff_ne]
    constructor
    · intro hd
      obtain ⟨hd, hne⟩ := hmem.mp hd
      refine held_eq_none_iff.mp ((hgiven d).trans ?_)
      rw [if_neg hne]
      exact held_eq_none_iff.mpr ((hboth d).1 hd)
    · intro hd
      refine (hgiven d).trans ?_
      by_cases hne : d = id
      · rw [if_pos hne]
      · rw [if_neg hne]
        exact (hboth d).2 fun hin => hd (hmem.mpr ⟨hin, hne⟩)

/-- The subscription starts with nothing sent: what was primed has to be right by then. -/
theorem onTrack_subscribe (h : m.OnTrack) (hstep : m.step .subscribe = some m') : m'.OnTrack := by
  obtain ⟨s, stage, given⟩ := m
  cases stage with
  | starting => cases hstep
  | driving slot taken => cases hstep
  | priming todo =>
    cases todo with
    | cons id todo => cases hstep
    | nil =>
      obtain rfl := Option.some.inj hstep
      have hboth : ∀ d, (d ∈ [] → given d = none) ∧
        (d ∉ [] → held given d = currentSnapshot s d) := h
      refine ⟨[], ?_, le_rfl, fun d => (hboth d).2 List.not_mem_nil⟩
      show (s.subscribers ++ [[]])[s.subscribers.length]? = some []
      rw [List.getElem?_concat_length]

theorem onTrack_recv (h : m.OnTrack) (hstep : m.step .recv = some m') : m'.OnTrack := by
  obtain ⟨s, stage, given⟩ := m
  cases stage with
  | starting => cases hstep
  | priming todo => cases hstep
  | driving slot taken =>
    obtain ⟨sent, hslot, hle, hheld⟩ : ∃ sent, s.subscribers[slot]? = some sent ∧
      taken ≤ sent.length ∧ ∀ d, held (receive given (sent.drop taken)) d = currentSnapshot s d := h
    have hnext : next s slot taken = sent[taken]? := by
      unfold next
      rw [hslot]
      rfl
    replace hstep : (match next s slot taken with
      | some change => some ⟨s, .driving slot (taken + 1), give given (.fromChange change)⟩
      | none => none) = some m' := hstep
    cases hc : sent[taken]? with
    | none =>
      rw [hnext, hc] at hstep
      cases hstep
    | some c =>
      rw [hnext, hc] at hstep
      obtain rfl := Option.some.inj hstep
      obtain ⟨hlt, hget⟩ := List.getElem?_eq_some_iff.mp hc
      refine ⟨sent, hslot, hlt, fun d => ?_⟩
      have hd := hheld d
      rw [List.drop_eq_getElem_cons hlt, hget] at hd
      exact hd

/-- **An operation of another task that is not missed**: after the subscription, what is still to
    be received tells what it did. -/
theorem onTrack_call (hl : AllLifted m.store) {c : Call} (hco : Coherent (c.exec m.store))
    (h : m.OnTrack) (hun : m.Unmissed (.call c)) : OnTrack { m with store := c.exec m.store } := by
  obtain ⟨s, stage, given⟩ := m
  cases stage with
  | starting => exact h
  | priming todo =>
    have hboth : ∀ d, (d ∈ todo → given d = none) ∧
      (d ∉ todo → held given d = currentSnapshot s d) := h
    have hsame : ∀ d, d ∉ todo → currentSnapshot (c.exec s) d = currentSnapshot s d := hun
    exact fun d => ⟨(hboth d).1, fun hd => ((hboth d).2 hd).trans (hsame d hd).symm⟩
  | driving slot taken =>
    obtain ⟨sent, hslot, hle, hheld⟩ : ∃ sent, s.subscribers[slot]? = some sent ∧
      taken ≤ sent.length ∧ ∀ d, held (receive given (sent.drop taken)) d = currentSnapshot s d := h
    replace hun : Heard s (c.events s) ∨ Quiet s (c.exec s) := hun
    rcases hun with hheard | ⟨hsent, hsame⟩
    · obtain ⟨-, l, ⟨rest, hsent⟩, htold⟩ := relays_heard hheard hl
      rw [← Call.exec_eq] at hsent htold
      have hslot' : (c.exec s).subscribers[slot]? = some (sent ++ l) := by
        obtain ⟨hlt, -⟩ := List.getElem?_eq_some_iff.mp hslot
        rw [hsent, List.getElem?_append_left (by rw [List.length_map]; exact hlt),
          List.getElem?_map, hslot]
        rfl
      refine ⟨sent ++ l, hslot', ?_, fun d => ?_⟩
      · rw [List.length_append]
        omega
      · have hl' : ∀ c' ∈ l, c'.Coherent := fun c' hc' =>
          hco _ (List.mem_of_getElem? hslot') c' (List.mem_append_right _ hc')
        have hview : ∀ d, held (receive given (sent.drop taken)) d = (s.full d).map snapshotOf :=
          fun d => (hheld d).trans (currentSnapshot_eq s d)
        show held (receive given ((sent ++ l).drop taken)) d = currentSnapshot (c.exec s) d
        rw [List.drop_append_of_le_length hle, receive_append, held_receive hl' hview d, htold,
          currentSnapshot_eq]
    · refine ⟨sent, ?_, hle, fun d => (hheld d).trans (hsame d).symm⟩
      show (c.exec s).subscribers[slot]? = some sent
      rw [hsent, hslot]

/-! ## Whole runs -/

/-- What a turn does to the store. -/
def Turn.stored (s : Inner) : Turn → Inner
  | .subscribe => Store.subscribeChanges s
  | .call c => c.exec s
  | _ => s

theorem store_step {t : Turn} (hstep : m.step t = some m') : m'.store = t.stored m.store := by
  obtain ⟨s, stage, given⟩ := m
  cases t with
  | call c =>
    obtain rfl := Option.some.inj hstep
    rfl
  | docIds =>
    cases stage with
    | starting =>
      obtain rfl := Option.some.inj hstep
      rfl
    | priming todo => cases hstep
    | driving slot taken => cases hstep
  | prime id =>
    cases stage with
    | starting => cases hstep
    | driving slot taken => cases hstep
    | priming todo =>
      by_cases hid : todo.contains id = true
      · obtain rfl := Option.some.inj ((if_pos hid).symm.trans hstep)
        rfl
      · cases (if_neg hid).symm.trans hstep
  | subscribe =>
    cases stage with
    | starting => cases hstep
    | driving slot taken => cases hstep
    | priming todo =>
      cases todo with
      | cons id todo => cases hstep
      | nil =>
        obtain rfl := Option.some.inj hstep
        rfl
  | recv =>
    cases stage with
    | starting => cases hstep
    | priming todo => cases hstep
    | driving slot taken =>
      replace hstep : (match next s slot taken with
        | some change => some ⟨s, .driving slot (taken + 1), give given (.fromChange change)⟩
        | none => none) = some m' := hstep
      cases hc : next s slot taken with
      | none =>
        rw [hc] at hstep
        cases hstep
      | some c =>
        rw [hc] at hstep
        obtain rfl := Option.some.inj hstep
        rfl

theorem lifetime_stored {s₀ s : Inner} {acc : List Action} {t : Turn}
    (hl : Lifetime (fun _ _ _ => True) s₀ s acc) (hid : ∀ c, t = .call c → c.FreshId s) :
    ∃ acc', Lifetime (fun _ _ _ => True) s₀ (t.stored s) acc' := by
  cases t with
  | subscribe => exact ⟨_, hl.step (.event .subscribeChanges) trivial trivial⟩
  | call c => exact hl.call (hid c rfl)
  | _ => exact ⟨acc, hl⟩

/-- The store has the lifetime of a store, and the coordinator is on track. -/
structure Sound (s₀ : Inner) (m : ReadModelCoordinator) : Prop where
  life : ∃ acc, Lifetime (fun _ _ _ => True) s₀ m.store acc
  track : m.OnTrack

/-- **Step lemma.** -/
theorem sound_step {key : SigningKey} {origin : Origin} {extra : List Model} {t : Turn}
    (h : Sound (Store.fresh key origin extra) m) (hfresh : m.Fresh t) (hun : m.Unmissed t)
    (hstep : m.step t = some m') : Sound (Store.fresh key origin extra) m' := by
  obtain ⟨⟨acc, hlife⟩, htrack⟩ := h
  have hlife' : ∃ acc',
      Lifetime (fun _ _ _ => True) (Store.fresh key origin extra) m'.store acc' := by
    rw [store_step hstep]
    exact lifetime_stored hlife fun c hc => by rw [hc] at hfresh; exact hfresh
  refine ⟨hlife', ?_⟩
  cases t with
  | docIds => exact onTrack_docIds htrack hstep
  | prime id => exact onTrack_prime (ownId_lifetime hlife) htrack hstep
  | subscribe => exact onTrack_subscribe htrack hstep
  | recv => exact onTrack_recv htrack hstep
  | call c =>
    obtain rfl := Option.some.inj hstep
    obtain ⟨acc', hlife'⟩ := hlife'
    exact onTrack_call (fun d => lifted_lifetime hlife d) (coherent_lifetime hlife') htrack hun

/-- **On track, a consumed feed leaves the read models with the store's state.** -/
theorem current_of_onTrack (h : m.OnTrack) (hdone : m.Consumed) : m.Current := by
  obtain ⟨slot, taken, hstage, hnext⟩ := hdone
  obtain ⟨s, stage, given⟩ := m
  obtain rfl : stage = .driving slot taken := hstage
  obtain ⟨sent, hslot, hle, hheld⟩ : ∃ sent, s.subscribers[slot]? = some sent ∧
    taken ≤ sent.length ∧ ∀ d, held (receive given (sent.drop taken)) d = currentSnapshot s d := h
  have hend : sent.length ≤ taken := by
    replace hnext : next s slot taken = none := hnext
    unfold next at hnext
    rw [hslot] at hnext
    exact List.getElem?_eq_none_iff.mp hnext
  intro d
  have hd := hheld d
  rw [List.drop_eq_nil_of_le hend] at hd
  exact hd

/-- **Read models converge to the store.**  From any state a store can be in, and for every
    interleaving with operations that are not missed: whenever the feed has been fully consumed, the
    latest snapshot the read models were given of a document is the store's current state of it. -/
theorem read_models_converge {key : SigningKey} {origin : Origin} {extra : List Model} {s₀ : Inner}
    {acc : List Action} (hlife : Lifetime (fun _ _ _ => True) (Store.fresh key origin extra) s₀ acc)
    {turns : List Turn}
    (h : Lib.CarefulRun step (fun m t => m.Fresh t ∧ m.Unmissed t) (new s₀) turns m)
    (hdone : m.Consumed) : m.Current := by
  have hstart : Sound (Store.fresh key origin extra) (new s₀) := ⟨⟨acc, hlife⟩, fun _ => rfl⟩
  have hsound := h.invariant (I := fun _ m => Sound (Store.fresh key origin extra) m) hstart
    fun _ _ _ _ hm hcare hstep => sound_step hm hcare.1 hcare.2 hstep
  exact current_of_onTrack hsound.track hdone

end ReadModelCoordinator

end

section

open Sample ReadModelCoordinator

attribute [local instance] Sample.primitives

/-! ### A post between priming and subscription -/

/-- The group is primed, the post arrives, then the coordinator subscribes. -/
def lateSubscription : List Turn :=
  [.docIds, .prime docId, .call (.applyRemoteAction Io.ok earlyPost), .subscribe]

/-- The coordinator has consumed its feed, and shows other fields than the store. -/
def showsOld (m : ReadModelCoordinator) : Bool :=
  m.stage == .driving 1 0 && (next m.store 1 0).isNone &&
    decide ((m.given docId).map (fun snap => snap.fields["msg_text"]?) ≠
      (currentSnapshot m.store docId).map fun snap => snap.fields["msg_text"]?)

theorem lateSubscription_showsOld :
    (lateSubscription.foldlM step (new watchedStore)).any showsOld = true := by
  decide +kernel

/-- **Read models miss the start**: no change tells of a post that arrives after its group was
    primed and before the subscription. -/
theorem read_models_miss_the_start :
    ¬ ∀ (s₀ : Inner) (acc : List Action),
      Lifetime (fun _ _ _ => True) (Store.fresh bob.key bob.name []) s₀ acc →
      ∀ (turns : List Turn) (m : ReadModelCoordinator),
        Lib.CarefulRun step (fun m t => m.Fresh t) (new s₀) turns m → m.Consumed → m.Current := by
  intro h
  obtain ⟨acc, hlife⟩ := watchedStore_life
  obtain ⟨m, hm, hshows⟩ := (Option.any_eq_true _ _).mp lateSubscription_showsOld
  unfold showsOld at hshows
  rw [Bool.and_eq_true, Bool.and_eq_true, beq_iff_eq, Option.isNone_iff_eq_none,
    decide_eq_true_eq] at hshows
  obtain ⟨⟨hstage, hnext⟩, hdiffer⟩ := hshows
  have hrun : Lib.CarefulRun step (fun m t => m.Fresh t) (new watchedStore) lateSubscription m :=
    .of_foldlM hm fun t ht m => by
      simp only [lateSubscription, List.mem_cons, List.not_mem_nil, or_false] at ht
      rcases ht with rfl | rfl | rfl | rfl <;> trivial
  have hcurrent := h _ _ hlife _ _ hrun ⟨1, 0, hstage, hnext⟩ docId
  refine hdiffer ?_
  rw [← hcurrent, Option.map_map]
  rfl

/-- The same post after the subscription. -/
def earlySubscription : List Turn := [.docIds, .prime docId, .subscribe]

/-- The coordinator in which the post is heard, and received. -/
def hearsPost (m : ReadModelCoordinator) : Bool :=
  decide (m.stage = .driving 1 0 ∧ m.store.accepts earlyPost = true ∧
    m.store.Finishes Io.ok earlyPost ∧
    (changes m.store.models (m.store.entryFor earlyPost.docId) earlyPost ||
      m.store.leavesDeleted earlyPost) = true) &&
  (step { m with store := Call.exec m.store (.applyRemoteAction Io.ok earlyPost) } .recv).any
    fun m => m.stage == .driving 1 1 && (next m.store 1 1).isNone

theorem earlySubscription_hearsPost :
    (earlySubscription.foldlM step (new watchedStore)).any hearsPost = true := by
  decide +kernel

theorem read_models_converge_posts : ∃ turns m,
    Lib.CarefulRun step (fun m t => m.Fresh t ∧ m.Unmissed t) (new watchedStore) turns m ∧
      m.Consumed ∧ m.Current := by
  obtain ⟨acc, hlife⟩ := watchedStore_life
  obtain ⟨m, hm, hhears⟩ := (Option.any_eq_true _ _).mp earlySubscription_hearsPost
  unfold hearsPost at hhears
  rw [Bool.and_eq_true, decide_eq_true_eq] at hhears
  obtain ⟨⟨hstage, hacc, hfin, hflag⟩, hrecv⟩ := hhears
  obtain ⟨m', hm', hend⟩ := (Option.any_eq_true _ _).mp hrecv
  rw [Bool.and_eq_true, beq_iff_eq, Option.isNone_iff_eq_none] at hend
  have hrun : Lib.CarefulRun step (fun m t => m.Fresh t ∧ m.Unmissed t) (new watchedStore)
      earlySubscription m :=
    .of_foldlM hm fun t ht m => by
      simp only [earlySubscription, List.mem_cons, List.not_mem_nil, or_false] at ht
      rcases ht with rfl | rfl | rfl <;> exact ⟨trivial, trivial⟩
  have hheard : Heard m.store [.applyAction Io.ok earlyPost] :=
    .apply (Or.inr (Or.inl ⟨hacc, hfin, hflag⟩)) (.nil _)
  have hpost : m.Fresh (.call (.applyRemoteAction Io.ok earlyPost)) ∧
      m.Unmissed (.call (.applyRemoteAction Io.ok earlyPost)) := by
    refine ⟨trivial, ?_⟩
    unfold Unmissed
    rw [hstage]
    exact Or.inl hheard
  have hreceive : ∀ m : ReadModelCoordinator, m.Fresh .recv ∧ m.Unmissed .recv := fun _ =>
    ⟨trivial, trivial⟩
  have hwhole := (hrun.next hpost rfl).next (hreceive _) hm'
  exact ⟨_, m', hwhole, ⟨1, 1, hend⟩, read_models_converge hlife hwhole ⟨1, 1, hend⟩⟩

end

end PhReactor
