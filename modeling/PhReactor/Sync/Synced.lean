/-
  What the status SYNCED promises, and when the engine keeps the promise.

  Two handlers set it: the tick, right after it has asked a connecting drive for what it is ahead
  on, and the last catch-up reply.  Neither looks at what is missing; the tick does not even look
  at what it has just put in flight.

  1. An observer of the drive (`Watch`) notes the clocks the drive has last reported, and the
     actions it has sent that the store has not taken in.  The engine's own memory may be behind
     these reports: a handshake clears it, and a catch-up reply overwrites it with the clock of its
     last action.

  2. `TrulySynced` is the promise: nothing in flight, every reported clock covered by the store, and
     nothing owed.

  3. `Sound` is the condition on a step, input by input.  Sound steps keep the memory up with the
     reports (`tracks_step`), and a sound step that sets the status keeps the promise
     (`trulySynced_step`); so along every run of sound steps the promise is kept
     (`synced_means_synced`).
-/
import PhReactor.Sync.Absorption
import PhReactor.Sync.Pausing

set_option linter.unusedSectionVars false

namespace PhReactor

namespace Engine

section

variable [Primitives]

/-! ## The observer -/

/-- What an observer knows of a drive. -/
structure Watch where
  /-- The clock the drive has last reported, for each document. -/
  reported : Std.ExtTreeMap DocId VecClock
  /-- The actions it has sent that were refused or held when they arrived, and are not in the log
      yet. -/
  owed : List Action

/-- Of a drive that is new. -/
def Watch.fresh : Watch := ⟨∅, []⟩

def Watch.hear (w : Watch) (clocks : List (DocId × VecClock)) : Watch :=
  { w with reported := rememberClocks w.reported clocks }

/-- What the messages of a turn tell of the drive. -/
def told (name : String) (env : Env) (e : Engine) (w : Watch) : Input → Watch
  | .request peer (.summary clocks) =>
    if e.driveNameByPeer env peer = some name then w.hear clocks else w
  | .response peer _ (.helloAck ack) =>
    if e.driveNameByPeer env peer = some name ∧ (e.pinResponder peer ack.pubkey).2.isOk = true then
      w.hear (ack.docs.map fun d => (d.id, d.clock))
    else w
  | .response peer _ (.summaryAck clocks) =>
    if e.driveNameByPeer env peer = some name then w.hear clocks else w
  | .response peer _ (.catchUpAck ack) =>
    if e.driveNameByPeer env peer = some name then
      { w with owed := w.owed ++ refusedOf env e.store ack.actions }
    else w
  | _ => w

/-- An action in the log is owed no longer. -/
def Watch.settle (w : Watch) (s : Inner) : Watch :=
  { w with owed := w.owed.filter fun a => decide (a ∉ (s.entryFor a.docId).log) }

/-- The observer's notes after a step. -/
def notes (name : String) (e : Engine) (w : Watch) (x : Env × Input) : Watch :=
  (if e.running = false then w
    else if adds e name x.2 then Watch.fresh
    else told name x.1 e w x.2).settle (e.step x).1.store

/-- The engine under observation. -/
def watched (name : String) : Lib.Machine (Engine × Watch) (Env × Input) Effect :=
  machine.observed (notes name)

/-! ## The promise, and the condition -/

/-- The step sets the drive's status to SYNCED: it reports so, or the status is SYNCED after it and
    was not before. -/
def SetsSynced (name : String) (e : Engine) (x : Env × Input) : Prop :=
  (∃ detail, setStatus name .synced detail ∈ (e.step x).2) ∨
    ∃ rt', (e.step x).1.drives[name]? = some rt' ∧ rt'.status = .synced ∧
      ∀ rt, e.drives[name]? = some rt → rt.status ≠ .synced

/-- No catch-up request is in flight, the store covers the clocks the drive has last reported, and
    nothing it has sent is quarantined, held or otherwise missing. -/
structure TrulySynced (name : String) (s : Engine × Watch) : Prop where
  idle : ∀ rt, s.1.drives[name]? = some rt → ∀ id, id ∉ rt.inFlight
  covered : ∀ (d : DocId) (c : VecClock), s.2.reported[d]? = some c →
    (s.1.store.clockOf d).covers c = true
  settled : s.2.owed = []

/-- A catch-up reply whose actions all count, that does not take the memory of its document behind
    the report, and that ends the exchange only if nothing else is missing. -/
structure SoundReply (name : String) (env : Env) (e : Engine) (w : Watch) (id : ℕ)
    (ack : CatchUpAck) : Prop where
  takesIn : TakesIn env ack.docId e.store ack.actions
  notBehind : ∀ a, ack.actions.getLast? = some a → ∀ c, w.reported[ack.docId]? = some c →
    a.clock.covers c = true
  noGap : ∀ rt, e.drives[name]? = some rt → finishes ack id rt = true →
    ∀ gap ∈ gaps (Store.summary e.store) rt.remoteClocks, gap.1 = ack.docId ∧ ack.actions ≠ []

/-- The condition on a turn. -/
def Sound (name : String) (env : Env) (e : Engine) (w : Watch) : Input → Prop
  | .tick _ => ∀ rt, (name, rt) ∈ e.dueDrives env → rt.status = .connecting →
    (∀ id, id ∉ rt.inFlight) ∧ gaps (Store.summary e.store) rt.remoteClocks = []
  | .request peer (.hello h) => GreetsAs env e name peer h → w.reported = ∅
  | .response peer id msg => e.driveNameByPeer env peer = some name →
    match msg with
    | .helloAck ack => (e.pinResponder peer ack.pubkey).2.isOk = true →
      ∀ rt, e.drives[name]? = some rt → rt.handshaken = false →
        ∀ d ∈ w.reported, d ∈ ack.docs.map DocSummary.id
    | .catchUpAck ack => SoundReply name env e w id ack
    | _ => True
  | _ => True

variable {name : String} {env : Env} {e : Engine} {w : Watch}

/-! ## Remembering -/

/-- `remote` is up with the reports `r`. -/
def UpWith (r remote : Std.ExtTreeMap DocId VecClock) : Prop :=
  ∀ (d : DocId) (c : VecClock), r[d]? = some c →
    ∃ c', remote[d]? = some c' ∧ c'.covers c = true

theorem getElem?_rememberClocks (remote : Std.ExtTreeMap DocId VecClock)
    (clocks : List (DocId × VecClock)) (d : DocId) :
    (rememberClocks remote clocks)[d]? = (clocks.reverse.lookup d).or remote[d]? := by
  induction clocks using List.reverseRecOn with
  | nil => rfl
  | append_singleton l p ih =>
    unfold rememberClocks at ih ⊢
    rw [List.foldl_append, List.foldl_cons, List.foldl_nil, Std.ExtTreeMap.getElem?_insert,
      List.reverse_append, List.reverse_singleton, List.singleton_append, List.lookup_cons]
    by_cases hd : p.1 = d
    · rw [if_pos (Std.compare_eq_iff_eq.mpr hd), beq_iff_eq.mpr hd.symm]
      rfl
    · rw [if_neg (mt Std.compare_eq_iff_eq.mp hd), beq_eq_false_iff_ne.mpr (Ne.symm hd), ih]

/-- Both hear the same clocks. -/
theorem upWith_rememberClocks {r remote : Std.ExtTreeMap DocId VecClock}
    {clocks : List (DocId × VecClock)}
    (h : UpWith r remote ∨ ∀ d ∈ r, d ∈ clocks.map Prod.fst) :
    UpWith (rememberClocks r clocks) (rememberClocks remote clocks) := by
  intro d c hc
  rw [getElem?_rememberClocks] at hc ⊢
  cases hl : clocks.reverse.lookup d with
  | some c' =>
    rw [hl] at hc
    obtain rfl : c' = c := Option.some.inj hc
    exact ⟨c', rfl, VecClock.covers_refl _⟩
  | none =>
    rw [hl, Option.none_or] at hc
    rw [Option.none_or]
    rcases h with h | h
    · exact h d c hc
    · exfalso
      have hd : d ∈ clocks.map Prod.fst := h d (Std.ExtTreeMap.mem_iff_isSome_getElem?.mpr
        (Option.isSome_of_eq_some hc))
      obtain ⟨p, hp, rfl⟩ := List.mem_map.mp hd
      have hno := List.lookup_eq_none_iff.mp hl p (List.mem_reverse.mpr hp)
      simp at hno

/-- What is no gap is covered. -/
theorem covers_of_no_gap {s : Inner} {remote : Std.ExtTreeMap DocId VecClock} {d : DocId}
    {c : VecClock} (hc : remote[d]? = some c)
    (hno : ∀ gap ∈ gaps (Store.summary s) remote, gap.1 ≠ d) :
    (s.clockOf d).covers c = true := by
  by_contra hcov
  obtain ⟨gap, hgap, hd⟩ := exists_gap_iff.mpr ⟨c, hc, Bool.eq_false_iff.mpr hcov⟩
  exact hno gap hgap hd

/-! ## What sound steps keep -/

/-- The engine's memory of the drive is up with its reports, and nothing is owed. -/
structure Tracks (name : String) (s : Engine × Watch) : Prop where
  upWith : ∀ rt, s.1.drives[name]? = some rt → UpWith s.2.reported rt.remoteClocks
  settled : s.2.owed = []

theorem settle_owed {s : Inner} (h : w.owed = []) : (w.settle s).owed = [] := by
  unfold Watch.settle
  rw [h]
  rfl

/-- A response leaves the memory up with what it tells. -/
theorem upWith_afterResponse {peer : PeerId} {id : ℕ} {msg : SyncMsg} {rt : DriveRuntime}
    (hrt : e.drives[name]? = some rt) (h : UpWith w.reported rt.remoteClocks)
    (hname : e.driveNameByPeer env peer = some name)
    (hsound : Sound name env e w (.response peer id msg)) :
    UpWith (told name env e w (.response peer id msg)).reported
      (afterResponse env e peer id rt msg).remoteClocks := by
  replace hsound := hsound hname
  cases msg with
  | helloAck ack =>
    show UpWith (if e.driveNameByPeer env peer = some name ∧
      (e.pinResponder peer ack.pubkey).2.isOk = true then _ else w).reported
      (if (e.pinResponder peer ack.pubkey).2.isOk = true then answered env ack rt
        else rt).remoteClocks
    by_cases hpin : (e.pinResponder peer ack.pubkey).2.isOk = true
    · rw [if_pos ⟨hname, hpin⟩, if_pos hpin]
      unfold answered Watch.hear
      refine upWith_rememberClocks ?_
      cases hshaken : rt.handshaken with
      | true => exact Or.inl h
      | false =>
        right
        rw [List.map_map]
        exact hsound hpin rt hrt hshaken
    · rw [if_neg fun hc => hpin hc.2, if_neg hpin]
      exact h
  | catchUpAck ack =>
    show UpWith (if e.driveNameByPeer env peer = some name then _ else w).reported
      (lastClock ack rt.remoteClocks)
    rw [if_pos hname]
    intro d c hc
    unfold lastClock
    cases hlast : ack.actions.getLast? with
    | none => exact h d c hc
    | some a =>
      dsimp only
      rw [Std.ExtTreeMap.getElem?_insert]
      by_cases hd : ack.docId = d
      · rw [if_pos (Std.compare_eq_iff_eq.mpr hd)]
        subst hd
        exact ⟨a.clock, rfl, hsound.notBehind a hlast c hc⟩
      · rw [if_neg (mt Std.compare_eq_iff_eq.mp hd)]
        exact h d c hc
  | summaryAck clocks =>
    show UpWith (if e.driveNameByPeer env peer = some name then _ else w).reported
      (rememberClocks rt.remoteClocks clocks)
    rw [if_pos hname]
    exact upWith_rememberClocks (Or.inl h)
  | _ => exact h

/-- What another peer's message tells is nothing. -/
theorem told_of_other {peer : PeerId} {id : ℕ} {msg : SyncMsg}
    (hname : e.driveNameByPeer env peer ≠ some name) :
    told name env e w (.response peer id msg) = w := by
  cases msg with
  | helloAck ack => exact if_neg fun hc => hname hc.1
  | catchUpAck ack => exact if_neg hname
  | summaryAck clocks => exact if_neg hname
  | _ => rfl

/-- **A sound turn keeps the memory up with the reports.** -/
theorem upWith_after {i : Input} {rt : DriveRuntime} (hrt : e.drives[name]? = some rt)
    (h : UpWith w.reported rt.remoteClocks) (hsound : Sound name env e w i) :
    UpWith (told name env e w i).reported (after env e name rt i).remoteClocks := by
  cases i with
  | cmd c =>
    cases c with
    | setPaused n paused =>
      unfold after
      dsimp only
      split <;> exact h
    | _ => exact h
  | tick lastActivity =>
    unfold after
    dsimp only
    split <;> exact h
  | connectionClosed peer numEstablished =>
    unfold after
    dsimp only
    split <;> exact h
  | request peer msg =>
    cases msg with
    | hello hello =>
      show UpWith w.reported (if GreetsAs env e name peer hello then rt.greeted env
        else rt).remoteClocks
      split
      · next hgreets =>
        rw [hsound hgreets]
        intro d c hc
        simp at hc
      · exact h
    | summary clocks =>
      show UpWith (if e.driveNameByPeer env peer = some name then _ else w).reported
        (if e.driveNameByPeer env peer = some name then _ else rt).remoteClocks
      split
      · exact upWith_rememberClocks (Or.inl h)
      · exact h
    | _ => exact h
  | response peer id msg =>
    by_cases hname : e.driveNameByPeer env peer = some name
    · rw [show after env e name rt (.response peer id msg) = _ from if_pos hname]
      exact upWith_afterResponse hrt h hname hsound
    · rw [show after env e name rt (.response peer id msg) = _ from if_neg hname,
        told_of_other hname]
      exact h
  | outboundFailure peer =>
    unfold after
    dsimp only
    split <;> exact h
  | _ => exact h

/-- A sound turn leaves nothing owed. -/
theorem owed_told {i : Input} (h : w.owed = []) (hsound : Sound name env e w i) :
    (told name env e w i).owed = [] := by
  cases i with
  | request peer msg =>
    cases msg with
    | summary clocks =>
      show (if e.driveNameByPeer env peer = some name then _ else w).owed = []
      split <;> exact h
    | _ => exact h
  | response peer id msg =>
    by_cases hname : e.driveNameByPeer env peer = some name
    · replace hsound := hsound hname
      cases msg with
      | helloAck ack =>
        show (if _ then _ else w).owed = []
        split <;> exact h
      | catchUpAck ack =>
        show (if e.driveNameByPeer env peer = some name then _ else w).owed = []
        rw [if_pos hname]
        show w.owed ++ refusedOf env e.store ack.actions = []
        rw [h, (takesIn_spec hsound.takesIn).2]
        rfl
      | summaryAck clocks =>
        show (if e.driveNameByPeer env peer = some name then _ else w).owed = []
        split <;> exact h
      | _ => exact h
    · rw [told_of_other hname]
      exact h
  | _ => exact h

/-- A step is sound where the engine runs and does not register the drive. -/
def SoundStep (name : String) (s : Engine × Watch) (x : Env × Input) : Prop :=
  s.1.running = true → adds s.1 name x.2 = false → Sound name x.1 s.1 s.2 x.2

theorem step_of_running {x : Env × Input} (h : e.running = true) : e.step x = turn x.1 e x.2 := by
  unfold step
  rw [h, Bool.true_or]
  exact if_pos rfl

/-- Once shut down, the engine leaves the drives alone and reports nothing. -/
theorem step_of_stopped {x : Env × Input} (h : e.running = false) :
    (e.step x).1.drives = e.drives ∧ (e.step x).2 = [] := by
  unfold step
  rw [h, Bool.false_or]
  split
  · next hstore =>
    obtain ⟨env, i⟩ := x
    cases i with
    | store ev => exact ⟨rfl, rfl⟩
    | _ => exact nomatch hstore
  · exact ⟨rfl, rfl⟩

/-- **Step lemma.** -/
theorem tracks_step {s : Engine × Watch} {x : Env × Input} (h : Tracks name s)
    (hsound : SoundStep name s x) : Tracks name ((watched name).step s x).1 := by
  obtain ⟨e, w⟩ := s
  show Tracks name ((e.step x).1, notes name e w x)
  unfold notes
  cases hrun : e.running with
  | false =>
    rw [if_pos rfl]
    refine ⟨fun rt hrt => ?_, settle_owed h.settled⟩
    rw [(step_of_stopped hrun).1] at hrt
    exact h.upWith rt hrt
  | true =>
    have hstep : e.step x = turn x.1 e x.2 := step_of_running hrun
    rw [if_neg fun h => nomatch h]
    cases hadds : adds e name x.2 with
    | true =>
      refine ⟨fun rt _ d c hc => ?_, settle_owed rfl⟩
      replace hc : (∅ : Std.ExtTreeMap DocId VecClock)[d]? = some c := hc
      simp at hc
    | false =>
      have hturn := hsound hrun hadds
      rw [if_neg Bool.false_ne_true]
      refine ⟨fun rt' hrt' => ?_, settle_owed (owed_told h.settled hturn)⟩
      rw [hstep] at hrt'
      obtain ⟨rt, hrt, hshown⟩ := drive_turn hadds hrt'
      have hclocks : rt'.remoteClocks = (after x.1 e name rt x.2).remoteClocks :=
        congrArg (fun y => y.2.2.2.1) hshown
      show UpWith (told name x.1 e w x.2).reported rt'.remoteClocks
      rw [hclocks]
      exact upWith_after hrt (h.upWith rt hrt) hturn

/-! ## The two handlers that set the status -/

/-- The requests in flight for the drive. -/
def flights (e : Engine) (name : String) : Option (Std.ExtTreeSet ℕ) :=
  e.drives[name]?.map DriveRuntime.inFlight

theorem flights_modifyDrive {n : String} {f : DriveRuntime → DriveRuntime}
    (hf : n = name → ∀ rt, (f rt).inFlight = rt.inFlight) :
    (e.modifyDrive n f).flights name = e.flights name := by
  unfold flights
  rw [getElem?_modifyDrive]
  split
  · next hname =>
    rw [Option.map_map, show DriveRuntime.inFlight ∘ f = DriveRuntime.inFlight from
      funext (hf hname)]
  · rfl

/-- A due drive without a gap is asked for nothing. -/
theorem flights_catchUpDrive {own : Std.ExtTreeMap DocId VecClock} {due : String × DriveRuntime}
    (hnone : due.1 = name → gaps own due.2.remoteClocks = []) :
    (catchUpDrive env own e due).1.flights name = e.flights name := by
  have hnext : (e.modifyDrive due.1 fun rt =>
      { rt with nextCatchUp := env.now + catchUpTick }).flights name = e.flights name :=
    flights_modifyDrive fun _ _ => rfl
  refine Eq.trans ?_ hnext
  unfold catchUpDrive
  by_cases hname : due.1 = name
  · rw [hnone hname]
    rfl
  · refine (Lib.sweep_spec (I := fun e' : Engine => e'.flights name = _) (P := fun _ => True)
      (fun e' gap _ he' => ⟨?_, fun _ _ => trivial⟩) rfl).1
    exact (flights_modifyDrive (f := fun rt =>
      { rt with inFlight := rt.inFlight.insert e'.nextRequest }) fun h => absurd h hname).trans he'

theorem flights_summarizeDrive (own : Std.ExtTreeMap DocId VecClock)
    (due : String × DriveRuntime) :
    (summarizeDrive own e due).1.flights name = e.flights name := by
  unfold summarizeDrive
  dsimp only
  split
  · rfl
  · split
    · exact flights_modifyDrive fun _ _ => rfl
    · rfl

theorem store_catchUpDrive (own : Std.ExtTreeMap DocId VecClock) (due : String × DriveRuntime) :
    (catchUpDrive env own e due).1.store = e.store := by
  have hnext : (e.modifyDrive due.1 fun rt =>
      { rt with nextCatchUp := env.now + catchUpTick }).store = e.store := rfl
  refine (Lib.sweep_spec (I := fun e' : Engine => e'.store = e.store) (P := fun _ => True)
    (fun e' gap _ he' => ⟨?_, fun _ _ => trivial⟩) hnext).1
  exact he'

theorem store_summarizeDrive (own : Std.ExtTreeMap DocId VecClock)
    (due : String × DriveRuntime) : (summarizeDrive own e due).1.store = e.store := by
  unfold summarizeDrive
  dsimp only
  split
  · rfl
  · split <;> rfl

/-- What the tick reads and leaves: the store's documents, and what is in flight for a drive
    without a gap. -/
theorem tick_spec (lastActivity : ℕ)
    (hnone : ∀ rt, (name, rt) ∈ e.dueDrives env →
      gaps (Store.summary e.store) rt.remoteClocks = []) :
    (tick env e lastActivity).1.flights name = e.flights name ∧
      ∀ d, (tick env e lastActivity).1.store.clockOf d = e.store.clockOf d := by
  obtain ⟨hdrives, hsummary, hdue⟩ := exchange_reads env e lastActivity
  have hentries : (e.drainQueue.1.noteIdle env lastActivity).store.entries = e.store.entries := by
    show e.drainQueue.1.store.entries = _
    rw [(moves_drainQueue (L := fun _ _ => False) e).2.1]
    rfl
  generalize hread : e.drainQueue.1.noteIdle env lastActivity = e₁ at hdrives hsummary hdue hentries
  have hask : (Lib.sweep (catchUpDrive env (Store.summary e₁.store)) e₁
        (e₁.dueDrives env)).1.flights name = e₁.flights name ∧
      (Lib.sweep (catchUpDrive env (Store.summary e₁.store)) e₁
        (e₁.dueDrives env)).1.store = e₁.store := by
    refine (Lib.sweep_spec (I := fun e' : Engine =>
      e'.flights name = e₁.flights name ∧ e'.store = e₁.store) (P := fun _ => True)
      (fun e' due hmem he' => ⟨⟨?_, ?_⟩, fun _ _ => trivial⟩) ⟨rfl, rfl⟩).1
    · refine (flights_catchUpDrive fun hname => ?_).trans he'.1
      rw [hsummary]
      rw [hdue] at hmem
      exact hnone due.2 (hname ▸ hmem)
    · exact (store_catchUpDrive _ due).trans he'.2
  have hloop : (e₁.exchange env).1.flights name = e₁.flights name ∧
      (e₁.exchange env).1.store = e₁.store :=
    (Lib.sweep_spec (I := fun e' : Engine =>
      e'.flights name = e₁.flights name ∧ e'.store = e₁.store) (P := fun _ => True)
      (fun e' due _ he' => ⟨⟨(flights_summarizeDrive _ due).trans he'.1,
        (store_summarizeDrive _ due).trans he'.2⟩, fun _ _ => trivial⟩) hask).1
  have htick : (tick env e lastActivity).1 = (e₁.exchange env).1 := by
    rw [← hread]
    rfl
  rw [htick]
  refine ⟨hloop.1.trans ?_, fun d => clockOf_congr ?_⟩
  · unfold flights
    rw [hdrives]
  · rw [hloop.2, hentries]

/-- A catch-up reply takes its request out of what is in flight, and offers its actions. -/
theorem catchUpAck_spec {peer : PeerId} (id : ℕ) (ack : CatchUpAck)
    (hname : e.driveNameByPeer env peer = some name) :
    (onResponse env e peer id (.catchUpAck ack)).1.flights name =
        e.drives[name]?.map (fun rt => rt.inFlight.erase id) ∧
      (onResponse env e peer id (.catchUpAck ack)).1.store =
        ack.actions.foldl (offered env) e.store := by
  unfold onResponse
  rw [hname]
  show (onCatchUpAck env _ name peer ack).1.flights name = _ ∧
    (onCatchUpAck env _ name peer ack).1.store = _
  generalize herased : (e.modifyDrive name fun rt =>
    { rt with inFlight := rt.inFlight.erase id }) = e₁
  have hflights : e₁.flights name = e.drives[name]?.map fun rt => rt.inFlight.erase id := by
    rw [← herased]
    unfold flights
    rw [getElem?_modifyDrive, if_pos rfl, Option.map_map]
    rfl
  have hstore : (applyRemoteActions env (some peer) e₁ ack.actions).1.1.store =
      ack.actions.foldl (offered env) e.store := by
    rw [store_applyRemoteActions, ← herased]
    rfl
  have hdrives := drives_applyRemoteActions env (some peer) ack.actions e₁
  have hnoted : ((applyRemoteActions env (some peer) e₁ ack.actions).1.1.noteLastClock env name
      ack).flights name = e₁.flights name := by
    refine (flights_modifyDrive (by exact fun _ _ => rfl)).trans ?_
    unfold flights
    rw [hdrives]
  unfold onCatchUpAck
  dsimp only
  split
  · exact ⟨(flights_modifyDrive (by exact fun _ _ => rfl)).trans (hnoted.trans hflights), hstore⟩
  · exact ⟨hnoted.trans hflights, hstore⟩

/-- **A sound tick that reports the drive keeps the promise.** -/
theorem trulySynced_tick {lastActivity : ℕ} (h : Tracks name (e, w))
    (hsound : Sound name env e w (.tick lastActivity))
    (hdone : name ∈ completes env e (.tick lastActivity)) :
    (∀ rt, (tick env e lastActivity).1.drives[name]? = some rt → ∀ id, id ∉ rt.inFlight) ∧
      ∀ (d : DocId) (c : VecClock), w.reported[d]? = some c →
        ((tick env e lastActivity).1.store.clockOf d).covers c = true := by
  obtain ⟨due, hmem, hdue⟩ := List.mem_map.mp hdone
  obtain ⟨hmem, hstatus⟩ := List.mem_filter.mp hmem
  obtain ⟨n, rt⟩ := due
  obtain rfl : n = name := hdue
  have hrt : e.drives[n]? = some rt := (mem_dueDrives.mp hmem).1
  obtain ⟨hidle, hgaps⟩ := hsound rt hmem (of_decide_eq_true hstatus)
  -- the drive is due once, with the runtime it has
  have hnone : ∀ rt', (n, rt') ∈ e.dueDrives env →
      gaps (Store.summary e.store) rt'.remoteClocks = [] := by
    intro rt' hmem'
    obtain rfl : rt = rt' := Option.some.inj (hrt.symm.trans (mem_dueDrives.mp hmem').1)
    exact hgaps
  obtain ⟨hflights, hclock⟩ := tick_spec lastActivity hnone
  refine ⟨fun rt' hrt' id => ?_, fun d c hc => ?_⟩
  · have hsame : rt'.inFlight = rt.inFlight := by
      unfold flights at hflights
      rw [hrt', hrt, Option.map_some, Option.map_some, Option.some.injEq] at hflights
      exact hflights
    rw [hsame]
    exact hidle id
  · obtain ⟨c', hc', hcov⟩ := h.upWith rt hrt d c hc
    rw [hclock]
    refine VecClock.covers_trans (covers_of_no_gap hc' fun gap hgap => ?_) hcov
    rw [hgaps] at hgap
    exact absurd hgap List.not_mem_nil

/-- **A sound catch-up reply that ends the exchange keeps the promise.** -/
theorem trulySynced_catchUpAck {peer : PeerId} {id : ℕ} {ack : CatchUpAck}
    (h : Tracks name (e, w)) (hsound : Sound name env e w (.response peer id (.catchUpAck ack)))
    (hdone : name ∈ completes env e (.response peer id (.catchUpAck ack))) :
    (∀ rt, (onResponse env e peer id (.catchUpAck ack)).1.drives[name]? = some rt →
      ∀ id, id ∉ rt.inFlight) ∧
      ∀ (d : DocId) (c : VecClock), w.reported[d]? = some c →
        ((onResponse env e peer id (.catchUpAck ack)).1.store.clockOf d).covers c = true := by
  obtain ⟨hname, hends⟩ := List.mem_filter.mp hdone
  rw [Option.mem_toList] at hname
  obtain ⟨rt, hrt, hends⟩ := (Option.any_eq_true _ _).mp hends
  have hreply := hsound hname
  obtain ⟨hflights, hstore⟩ := catchUpAck_spec id ack hname
  obtain ⟨hcount, -⟩ := takesIn_spec hreply.takesIn
  refine ⟨fun rt' hrt' id' => ?_, fun d c hc => ?_⟩
  · have hsame : rt'.inFlight = rt.inFlight.erase id := by
      unfold flights at hflights
      rw [hrt', hrt, Option.map_some, Option.map_some, Option.some.injEq] at hflights
      exact hflights
    have hempty : rt.inFlight.erase id = ∅ := by
      unfold finishes at hends
      rw [Bool.and_eq_true, Bool.and_eq_true] at hends
      exact Std.ExtTreeSet.isEmpty_iff.mp hends.1.2
    rw [hsame, hempty]
    exact Std.ExtTreeSet.not_mem_empty
  · rw [hstore]
    have hkeep : ((ack.actions.foldl (offered env) e.store).clockOf d).covers
        (e.store.clockOf d) = true := clockOf_foldl_offered d ack.actions e.store
    by_cases hown : d = ack.docId ∧ ack.actions ≠ []
    · -- the last action is ahead of the report, and it counts
      obtain ⟨rfl, hne⟩ := hown
      obtain ⟨a, hlast⟩ := Option.isSome_iff_exists.mp (List.getLast?_isSome.mpr hne)
      exact VecClock.covers_trans (hcount a (List.mem_of_getLast? hlast))
        (hreply.notBehind a hlast c hc)
    · -- there was no gap before
      obtain ⟨c', hc', hcov⟩ := h.upWith rt hrt d c hc
      refine VecClock.covers_trans (VecClock.covers_trans hkeep
        (covers_of_no_gap hc' fun gap hgap hd => ?_)) hcov
      obtain ⟨hdoc, hne⟩ := hreply.noGap rt hrt hends gap hgap
      exact hown ⟨hd ▸ hdoc, hne⟩

/-! ## Setting the status -/

/-- The drive, if it is there, is not synced. -/
def Unsynced (e : Engine) (name : String) : Prop :=
  ∀ rt, e.drives[name]? = some rt → rt.status ≠ .synced

theorem unsynced_of_shows {e' : Engine} (h : e.Unsynced name)
    (hsame : e'.shows name = e.shows name) : e'.Unsynced name := by
  intro rt' hrt'
  unfold shows at hsame
  rw [hrt'] at hsame
  obtain ⟨rt, hrt, hshown⟩ := Option.map_eq_some_iff.mp hsame.symm
  rw [show rt'.status = rt.status from (congrArg (fun y => y.2.2.2.2) hshown).symm]
  exact h rt hrt

theorem unsynced_modifyDrive {n : String} {f : DriveRuntime → DriveRuntime}
    (h : e.Unsynced name) (hf : ∀ rt, rt.status ≠ .synced → (f rt).status ≠ .synced) :
    (e.modifyDrive n f).Unsynced name := by
  intro rt hrt
  rw [getElem?_modifyDrive] at hrt
  split at hrt
  · obtain ⟨rt₀, hrt₀, rfl⟩ := Option.map_eq_some_iff.mp hrt
    exact hf rt₀ (h rt₀ hrt₀)
  · exact h rt hrt

/-- A drive that is registered is connecting, or paused. -/
theorem unsynced_addDriveInternal {drive : Drive} (hname : drive.name = name) :
    (addDriveInternal env e drive).1.Unsynced name := by
  have hinsert : ∀ new : DriveRuntime, new.status ≠ .synced →
      ({ e with drives := e.drives.insert drive.name new } : Engine).Unsynced name := by
    intro new hnew rt hrt
    subst hname
    replace hrt : (e.drives.insert drive.name new)[drive.name]? = some rt := hrt
    rw [Std.ExtTreeMap.getElem?_insert_self] at hrt
    rw [← Option.some.inj hrt]
    exact hnew
  have hguest : ∀ (e' : Engine) (peer : PeerId), e'.Unsynced name →
      (finishGuest env e' drive.name peer).1.Unsynced name := by
    intro e' peer h
    unfold finishGuest
    split
    · exact unsynced_modifyDrive h fun _ hne => hne
    · exact h
  have hopen : ∀ (e' : Engine) (peer : PeerId), e'.Unsynced name →
      (openIfConnected env e' drive.name peer).1.Unsynced name := by
    intro e' peer h
    unfold openIfConnected
    split
    · exact unsynced_of_shows h (shows_openHandshake _)
    · exact h
  unfold addDriveInternal
  dsimp only
  split
  · exact hinsert _ fun hc => nomatch hc
  · exact hopen _ _ (hguest _ _ (hinsert _ fun hc => nomatch hc))

theorem unsynced_added {i : Input} (hadds : adds e name i = true) :
    (turn env e i).1.Unsynced name := by
  cases i with
  | cmd c =>
    cases c with
    | addDrive drive => exact unsynced_addDriveInternal (beq_iff_eq.mp hadds)
    | join drive accept =>
      exact unsynced_modifyDrive (unsynced_addDriveInternal (beq_iff_eq.mp hadds))
        fun _ hne => hne
    | _ => exact absurd hadds Bool.false_ne_true
  | request peer msg =>
    cases msg with
    | hello h =>
      unfold adds at hadds
      rw [Bool.and_eq_true, Bool.and_eq_true, Option.any_eq_true] at hadds
      obtain ⟨⟨hban, hversion⟩, a, ha, htakes⟩ := hadds
      rw [Bool.and_eq_true] at htakes
      have hjoined : (acceptInvite env e peer h.accept).1.Unsynced name := by
        rw [ha]
        show (handleInviteAccept env e peer a).1.Unsynced name
        obtain ⟨⟨hno, hver⟩, hpin⟩ : (e.banned.contains peer = false ∧ a.verify = true) ∧
            (e.store.knownKeys[a.peerId]?).all (· == a.key) = true := by
          simpa [takes] using htakes.1
        obtain ⟨keys, hreg, -⟩ := registerPeerKey_ok hpin
        unfold handleInviteAccept
        rw [hno, hver, hreg]
        exact unsynced_addDriveInternal (beq_iff_eq.mp htakes.2)
      have hgreet : (greet env (acceptInvite env e peer h.accept).1 peer).1.Unsynced name := by
        unfold greet
        split
        · exact hjoined
        · refine unsynced_modifyDrive hjoined fun _ _ hc => ?_
          cases hc
      show (serveHello env e peer h).1.Unsynced name
      have hadm : Admitted e peer h := ⟨by simpa using hban, by simpa using hversion⟩
      unfold Unsynced
      rcases drives_serveHello hadm with hdrives | hdrives
      · rw [hdrives]
        exact hjoined
      · rw [hdrives]
        exact hgreet
    | _ => exact absurd hadds Bool.false_ne_true
  | _ => exact absurd hadds Bool.false_ne_true

/-- A drive that becomes synced is one the turn completes. -/
theorem completes_of_after {i : Input} {rt : DriveRuntime} (hrt : e.drives[name]? = some rt)
    (hbefore : rt.status ≠ .synced) (hstatus : (after env e name rt i).status = .synced) :
    name ∈ completes env e i := by
  cases i with
  | cmd c =>
    cases c with
    | setPaused n paused =>
      unfold after at hstatus
      dsimp only at hstatus
      split at hstatus
      · dsimp only at hstatus
        split at hstatus <;> cases hstatus
      · exact absurd hstatus hbefore
    | _ => exact absurd hstatus hbefore
  | tick lastActivity =>
    unfold after at hstatus
    dsimp only at hstatus
    split at hstatus
    · next hdue =>
      obtain ⟨⟨due, hmem, hname⟩, hconnecting⟩ := And.imp_left List.mem_map.mp hdue
      refine List.mem_map.mpr ⟨due, List.mem_filter.mpr ⟨hmem, ?_⟩, hname⟩
      have hget := (mem_dueDrives.mp hmem).1
      rw [hname] at hget
      rw [Option.some.inj (hget.symm.trans hrt)]
      exact decide_eq_true hconnecting
    · exact absurd hstatus hbefore
  | connectionClosed peer numEstablished =>
    unfold after at hstatus
    dsimp only at hstatus
    split at hstatus
    · dsimp only at hstatus
      split at hstatus <;> cases hstatus
    · exact absurd hstatus hbefore
  | request peer msg =>
    cases msg with
    | hello h =>
      replace hstatus : (if GreetsAs env e name peer h then rt.greeted env else rt).status =
        .synced := hstatus
      split at hstatus
      · cases hstatus
      · exact absurd hstatus hbefore
    | summary clocks =>
      unfold after at hstatus
      dsimp only at hstatus
      split at hstatus <;> exact absurd hstatus hbefore
    | _ => exact absurd hstatus hbefore
  | response peer id msg =>
    unfold after at hstatus
    dsimp only at hstatus
    split at hstatus
    · next hname =>
      cases msg with
      | helloAck ack =>
        replace hstatus : (if (e.pinResponder peer ack.pubkey).2.isOk = true then
          answered env ack rt else rt).status = .synced := hstatus
        unfold answered at hstatus
        dsimp only at hstatus
        split at hstatus
        · dsimp only at hstatus
          split at hstatus
          · exact absurd hstatus hbefore
          · cases hstatus
        · exact absurd hstatus hbefore
      | helloErr err => cases err <;> cases hstatus
      | catchUpAck ack =>
        replace hstatus : (if finishes ack id rt = true then DriveStatus.synced
          else rt.status) = .synced := hstatus
        split at hstatus
        · next hends =>
          refine List.mem_filter.mpr ⟨Option.mem_toList.mpr hname, ?_⟩
          rw [hrt]
          exact hends
        · exact absurd hstatus hbefore
      | _ => exact absurd hstatus hbefore
    · exact absurd hstatus hbefore
  | outboundFailure peer =>
    unfold after at hstatus
    dsimp only at hstatus
    split at hstatus
    · cases hstatus
    · exact absurd hstatus hbefore
  | _ => exact absurd hstatus hbefore

/-- Only the two handlers set the status. -/
theorem completes_of_sets {x : Env × Input} (h : SetsSynced name e x) :
    e.running = true ∧ name ∈ completes x.1 e x.2 := by
  cases hrun : e.running with
  | false =>
    obtain ⟨hdrives, hout⟩ := step_of_stopped (x := x) hrun
    rcases h with ⟨detail, hset⟩ | ⟨rt', hrt', hsynced, hbefore⟩
    · rw [hout] at hset
      exact absurd hset List.not_mem_nil
    · rw [hdrives] at hrt'
      exact absurd hsynced (hbefore rt' hrt')
  | true =>
    refine ⟨rfl, ?_⟩
    have hstep : e.step x = turn x.1 e x.2 := step_of_running hrun
    unfold SetsSynced at h
    rw [hstep] at h
    rcases h with ⟨detail, hset⟩ | ⟨rt', hrt', hsynced, hbefore⟩
    · exact warranted_turn x.1 e x.2 _ hset rfl
    · cases hadds : adds e name x.2 with
      | true => exact absurd hsynced (unsynced_added hadds rt' hrt')
      | false =>
        obtain ⟨rt, hrt, hshown⟩ := drive_turn hadds hrt'
        have hstatus : (after x.1 e name rt x.2).status = .synced :=
          (congrArg (fun y => y.2.2.2.2) hshown).symm.trans hsynced
        exact completes_of_after hrt (hbefore rt hrt) hstatus

/-- **A sound step that sets the status keeps the promise.** -/
theorem trulySynced_step {s : Engine × Watch} {x : Env × Input} (h : Tracks name s)
    (hsound : SoundStep name s x) (hset : SetsSynced name s.1 x) :
    TrulySynced name ((watched name).step s x).1 := by
  have hnext := tracks_step h hsound
  obtain ⟨e, w⟩ := s
  obtain ⟨env, i⟩ := x
  obtain ⟨hrun, hdone⟩ := completes_of_sets hset
  have hstate : ((watched name).step (e, w) (env, i)).1 =
      ((turn env e i).1, notes name e w (env, i)) := by
    rw [← show e.step (env, i) = turn env e i from step_of_running hrun]
    rfl
  -- neither of the two handlers registers a drive, or hears a clock
  have hkept : adds e name i = false → (told name env e w i).reported = w.reported →
      ((∀ rt, (turn env e i).1.drives[name]? = some rt → ∀ id, id ∉ rt.inFlight) ∧
        ∀ (d : DocId) (c : VecClock), w.reported[d]? = some c →
          ((turn env e i).1.store.clockOf d).covers c = true) →
      TrulySynced name ((watched name).step (e, w) (env, i)).1 := by
    intro hadds htold hpromise
    have hnow : (if e.running = false then w
        else if adds e name i then Watch.fresh else told name env e w i) =
          told name env e w i := by
      rw [show e.running = true from hrun, hadds]
      rfl
    have hnotes : (notes name e w (env, i)).reported = w.reported :=
      (congrArg Watch.reported hnow).trans htold
    refine ⟨?_, ?_, hnext.settled⟩
    · rw [hstate]
      exact hpromise.1
    · rw [hstate]
      show ∀ (d : DocId) (c : VecClock), (notes name e w (env, i)).reported[d]? = some c → _
      rw [hnotes]
      exact hpromise.2
  cases i with
  | tick lastActivity => exact hkept rfl rfl (trulySynced_tick h (hsound hrun rfl) hdone)
  | response peer id msg =>
    cases msg with
    | catchUpAck ack =>
      refine hkept rfl ?_ (trulySynced_catchUpAck h (hsound hrun rfl) hdone)
      show (if e.driveNameByPeer env peer = some name then _ else w).reported = _
      split <;> rfl
    | _ => exact absurd hdone List.not_mem_nil
  | _ => exact absurd hdone List.not_mem_nil

end

end Engine

/-! ## A tick in the middle of an exchange -/

section

open Sample

attribute [local instance] Sample.primitives

namespace Engine

/-- The drive a report says is synced. -/
def synced? : Effect → Option String
  | .event (.driveStatus name .synced _) => some name
  | _ => none

theorem setsSynced_of_reported {name : String} {e : Engine} {x : Env × Input}
    (h : name ∈ (e.step x).2.filterMap synced?) : SetsSynced name e x := by
  obtain ⟨o, ho, heq⟩ := List.mem_filterMap.mp h
  left
  cases o with
  | event ev =>
    cases ev with
    | driveStatus n status detail =>
      cases status with
      | synced =>
        obtain rfl : n = name := Option.some.inj heq
        exact ⟨detail, ho⟩
      | _ => exact nomatch heq
    | _ => exact nomatch heq
  | _ => exact nomatch heq

/-- Mallory's node, which has nothing, greets alice's. -/
def malloryGreets : List (Env × Input) :=
  [(calmEnv, .cmd (.addDrive malloryDrive)), (calmEnv, .request mallory.name (.hello malloryHello))]

/-- Alice has greeted mallory's node, is told of a document she does not have, and asks for it. -/
def aliceAsks : List (Env × Input) :=
  [(calmEnv, .cmd (.addDrive malloryDrive)), (calmEnv, .connectionEstablished mallory.name),
    (calmEnv, .response mallory.name 0 (.helloAck malloryAck))]

/-- The reply leaves the request for the missing document in flight, and the tick says SYNCED. -/
theorem aliceAsks_unsynced :
    "mallory" ∈ ((machine.run aliceEngine aliceAsks).step (calmEnv, .tick 0)).2.filterMap
        synced? ∧
      (((machine.run aliceEngine aliceAsks).step (calmEnv, .tick 0)).1.drives["mallory"]?.map
        fun rt => rt.inFlight.contains 1) = some true := by
  decide +kernel

end Engine

end

end PhReactor
