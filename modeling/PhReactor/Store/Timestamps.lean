/-
  The timestamps and counters of LOCAL actions (`next_ts`, `VecClock::tick`, `build_action`).

  `nextTs` is one above the larger of the wall clock and the mark `tsHint`.  The mark is meant to
  stand at or above everything the node has accepted, so that its next write wins over all of it.
  Three things pull it down:

  1. **An action that changes nothing** is accepted, logged and written to the WAL, but
     `finishApply` raises the mark only for actions that count.

  2. **A reopening** takes the mark from the persisted index, which is written at replays only, and
     from the actions the replay KEEPS.  A snapshot has emptied the log, and a replay drops what
     changes nothing.

  3. **Overflow.**  Both the mark and a document's counters take whatever value a peer has signed;
     above `u64::MAX` the sum wraps around.

  `Marked` rules the three out, step by step, and then local timestamps dominate through a whole
  lifetime (`local_ts_dominates`).  Overflow alone is the subject of the second half: as long as
  every value that comes from outside leaves room for the builds still to come (`Roomy`), no build
  wraps (`builds_never_wrap`).
-/
import PhReactor.Store.Lifetime

set_option linter.unusedSectionVars false

namespace PhReactor

section

/-- The largest `u64`. -/
def u64Max : ℕ := 2 ^ 64 - 1

theorem val_add_one {x : U64} (h : x.val < u64Max) : (x + 1).val = x.val + 1 := by
  apply Fin.val_add_one_of_lt'
  unfold u64Max at h
  omega

theorem lt_add_one {x : U64} (h : x.val < u64Max) : x < x + 1 := by
  rw [Fin.lt_def, val_add_one h]
  exact Nat.lt_succ_self _

variable [Primitives]

/-! ## What a step does to the mark -/

/-- An accepted action counts exactly when it changes the entry it meets. -/
theorem applied_of_ok {s : Inner} {io : Io} {a : Action} {r : ApplyResult}
    (h : (s.applyAction io a).2 = .ok r) :
    r.applied = changes s.models (s.entryFor a.docId) a := by
  have hfin : ∀ (t : Inner) (any del : Bool), (t.finishApply io a any del).2 = .ok r →
      r.applied = any := by
    intro t any del ht
    rcases t.finishApply_cases io a any del with ⟨⟨e, heq⟩, -⟩ | ⟨-, heq⟩
    · rw [heq] at ht
      exact nomatch ht
    · rw [heq] at ht
      rw [← Except.ok.inj ht]
  obtain ⟨m, hacc⟩ := Inner.accepted_of_isOk io (by rw [h]; rfl)
  unfold changes
  rw [hacc.model, Option.any_some]
  unfold Inner.applyAction at h
  rw [Inner.screen_ok.mpr hacc.toAdmits] at h
  dsimp only at h
  rw [show s.entries[a.docId]?.getD (Entry.new a.docId) = s.entryFor a.docId from rfl,
    hacc.precondition] at h
  dsimp only at h
  -- the space stamp of a first action does not reach the ops
  have hsame : SameDoc (if (s.entryFor a.docId).log.isEmpty = true
      then { s.entryFor a.docId with space := a.space } else s.entryFor a.docId)
      (s.entryFor a.docId) := by
    split <;> exact ⟨rfl, rfl⟩
  rw [← hsame.applied_eq m a]
  split at h
  · split at h
    · exact nomatch h
    · exact hfin _ _ _ h
  · exact hfin _ _ _ h

theorem tsHint_recorded (s : Inner) (io : Io) (a : Action) (any : Bool) :
    (s.recorded io a any).1.tsHint = if any then max s.tsHint a.ts else s.tsHint := by
  have hp : (s.persistAction io a).tsHint = s.tsHint := by
    unfold Inner.persistAction
    split <;> rfl
  have hpub : (if any then (s.persistAction io a).publish a else s.persistAction io a).tsHint =
      if any then max s.tsHint a.ts else s.tsHint := by
    cases any with
    | false => exact hp
    | true =>
      rw [if_pos rfl, if_pos rfl]
      unfold Inner.publish
      dsimp only
      split <;> rw [← hp]
  unfold Inner.recorded Inner.autoSnapshot
  generalize (if any then (s.persistAction io a).publish a else s.persistAction io a) = t at hpub ⊢
  rw [← hpub]
  split
  · unfold Inner.snapshot
    repeat' split
    all_goals rfl
  · rfl

theorem tsHint_finishApply (s : Inner) (io : Io) (a : Action) (any del : Bool) :
    (s.finishApply io a any del).1.tsHint = if any then max s.tsHint a.ts else s.tsHint := by
  have hindex : ∀ t : Inner, (t.indexName a.docId).tsHint = t.tsHint := by
    intro t
    unfold Inner.indexName
    repeat' split
    all_goals rfl
  have hemit : ∀ t : Inner, (t.emitChange a.docId a.ts (some a)).tsHint = t.tsHint := by
    intro t
    unfold Inner.emitChange
    split <;> rfl
  rw [← tsHint_recorded s io a any]
  rcases s.finishApply_cases io a any del with ⟨⟨e, h⟩, -⟩ | ⟨-, h⟩
  · rw [h]
  · rw [h]
    dsimp only
    split
    · rw [hemit, hindex]
    · rw [hindex]

/-- **The mark after an action**: raised to its timestamp if it counts, else as before. -/
theorem tsHint_applyAction (s : Inner) (io : Io) (a : Action) :
    s.tsHint ≤ (s.applyAction io a).1.tsHint ∧
      (s.applyAction io a).1.tsHint ≤ max s.tsHint a.ts ∧
      ((s.applyAction io a).2.isOk = true → changes s.models (s.entryFor a.docId) a = true →
        a.ts ≤ (s.applyAction io a).1.tsHint) := by
  have hkeep : ∀ (t : Inner) (err : String), s.applyAction io a = (t, .error err) →
      t.tsHint = s.tsHint →
      s.tsHint ≤ (s.applyAction io a).1.tsHint ∧
      (s.applyAction io a).1.tsHint ≤ max s.tsHint a.ts ∧
      ((s.applyAction io a).2.isOk = true → changes s.models (s.entryFor a.docId) a = true →
        a.ts ≤ (s.applyAction io a).1.tsHint) := by
    intro t err h ht
    rw [h, ht]
    exact ⟨le_rfl, le_max_left _ _, fun hok => (nomatch hok)⟩
  rcases s.applyAction_cases io a with
    ⟨r, -, h⟩ | ⟨m, r, -, -, h⟩ | ⟨m, msg, -, -, h⟩ | ⟨m, -, any, del, h⟩
  · exact hkeep _ _ h rfl
  · exact hkeep _ _ h rfl
  · exact hkeep _ _ h rfl
  · have hts : (s.applyAction io a).1.tsHint = if any then max s.tsHint a.ts else s.tsHint := by
      rw [h, tsHint_finishApply]
      rfl
    refine ⟨?_, ?_, fun hok hch => ?_⟩
    · rw [hts]
      split
      · exact le_max_left _ _
      · exact le_rfl
    · rw [hts]
      split
      · exact le_rfl
      · exact le_max_left _ _
    · -- the outcome tells which branch was taken
      obtain ⟨r, hr⟩ : ∃ r, (s.applyAction io a).2 = .ok r := by
        cases hres : (s.applyAction io a).2 with
        | error e => rw [hres] at hok; exact nomatch hok
        | ok r => exact ⟨r, rfl⟩
      have happ : r.applied = any := by
        rw [h] at hr
        rcases Inner.finishApply_cases (s.putEntry a.docId (s.settled a m)) io a any del with
          ⟨⟨e, heq⟩, -⟩ | ⟨-, heq⟩
        · rw [heq] at hr
          exact nomatch hr
        · rw [heq] at hr
          rw [← Except.ok.inj hr]
      rw [hts, ← happ, applied_of_ok hr, hch, if_pos rfl]
      exact le_max_right _ _

/-- Apart from actions and builds, no event moves the mark. -/
theorem tsHint_exec (s : Inner) (ev : Event) (ha : ∀ io a, ev ≠ .applyAction io a)
    (hn : ∀ now, ev ≠ .nextTs now) : (s.exec ev).tsHint = s.tsHint := by
  cases ev with
  | applyAction io a => exact absurd rfl (ha io a)
  | nextTs now => exact absurd rfl (hn now)
  | snapshot io id =>
    show (s.snapshot io id).1.tsHint = _
    unfold Inner.snapshot
    repeat' split
    all_goals rfl
  | adoptState st =>
    show (Inner.emitChange _ _ _ _).tsHint = _
    unfold Inner.emitChange
    split <;> rfl
  | registerPeerKey o k =>
    show (Store.registerPeerKey s o k).1.tsHint = _
    unfold Store.registerPeerKey
    repeat' split
    all_goals rfl
  | _ => rfl

/-! ## Local timestamps dominate -/

/-- The files remember a timestamp at or above that of `a`: in the index, or on an action that a
    replay with the models `r` keeps. -/
def Remembered (s : Inner) (r : ModelRegistry) (a : Action) : Prop :=
  a.ts ≤ s.disk.index.getD 0 ∨ ∃ d b, s.disk.alog[d]?.isSome = true ∧
    b ∈ ((s.withModels r).replayed d).log ∧ a.ts ≤ b.ts

/-- A step that does not pull the mark below an accepted action: accepted actions count, unless the
    mark is above them already; a timestamp fits into a `u64`; and a reopening finds the timestamps
    of the accepted actions on disk. -/
def Marked (s : Inner) (acc : List Action) : Happening → Prop
  | .event (.applyAction io a) => (s.applyAction io a).2.isOk = true →
      a.ts ≤ s.tsHint ∨ changes s.models (s.entryFor a.docId) a = true
  | .event (.nextTs now) => (max s.tsHint now).val < u64Max
  | .event _ => True
  | .reopen extra => ∀ a ∈ acc, Remembered s (loadedModels extra) a

theorem lt_nextTs {s : Inner} {now : U64} (h : (max s.tsHint now).val < u64Max) :
    s.tsHint < (s.nextTs now).2 ∧ (s.nextTs now).1.tsHint = (s.nextTs now).2 :=
  ⟨(le_max_left s.tsHint now).trans_lt (lt_add_one h), rfl⟩

/-- **Step lemma**: the mark stays at or above everything accepted. -/
theorem marked_happen {s : Inner} {acc : List Action} {h : Happening} (hP : Marked s acc h)
    (hi : ∀ a ∈ acc, a.ts ≤ s.tsHint) :
    ∀ a ∈ acc ++ h.acceptedBy s, a.ts ≤ (s.happen h).tsHint := by
  -- what was accepted before, and what is accepted now
  suffices hsteps : (∀ a ∈ acc, a.ts ≤ (s.happen h).tsHint) ∧
      ∀ a ∈ h.acceptedBy s, a.ts ≤ (s.happen h).tsHint by
    intro a ha
    rcases List.mem_append.mp ha with ha | ha
    · exact hsteps.1 a ha
    · exact hsteps.2 a ha
  constructor
  · intro a ha
    cases h with
    | reopen extra =>
      obtain ⟨hindex, hkept, -⟩ := le_tsHint_reopened s extra
      rcases hP a ha with hle | ⟨d, b, hd, hb, hle⟩
      · exact hle.trans hindex
      · exact hle.trans (hkept d hd b hb)
    | event ev =>
      refine (hi a ha).trans ?_
      by_cases happ : ∃ io b, ev = .applyAction io b
      · obtain ⟨io, b, rfl⟩ := happ
        exact (tsHint_applyAction s io b).1
      · by_cases hnext : ∃ now, ev = .nextTs now
        · obtain ⟨now, rfl⟩ := hnext
          obtain ⟨hlt, heq⟩ := lt_nextTs hP
          exact hlt.le.trans heq.ge
        · refine (tsHint_exec s ev ?_ ?_).ge
          · exact fun io b heq => happ ⟨io, b, heq⟩
          · exact fun now heq => hnext ⟨now, heq⟩
  · intro a ha
    obtain ⟨io, rfl, hok⟩ := mem_acceptedBy ha
    obtain ⟨hrise, -, hcounts⟩ := tsHint_applyAction s io a
    rcases hP hok with hle | hch
    · exact hle.trans hrise
    · exact hcounts hok hch

/-- The timestamp of a built action is the next one. -/
theorem buildAction_ok {s : Inner} {now : U64} {id : DocId} {model : ModelRef} {kind : String}
    {payload : Value} {action : Action}
    (h : (s.buildAction now id model kind payload).2 = .ok action) :
    action.ts = (s.nextTs now).2 ∧ action.origin = s.origin ∧ action.docId = id ∧
      ∃ e, s.entries[id]? = some e ∧ action.clock = e.clock.tick s.origin := by
  unfold Inner.buildAction Inner.nextTs at h
  dsimp only at h
  cases he : s.entries[id]? with
  | none => rw [he] at h; exact nomatch h
  | some e =>
    rw [he] at h
    rw [← Except.ok.inj h]
    exact ⟨rfl, rfl, rfl, e, rfl, rfl⟩

/-- **Local timestamps dominate everything accepted.**  In every lifetime whose steps are `Marked`,
    an action built in any state reached is above every action accepted so far, and wins against
    each of them by `(ts, origin)`. -/
theorem local_ts_dominates {key : SigningKey} {origin : Origin} {extra : List Model} {s : Inner}
    {acc : List Action} (hlife : Lifetime Marked (Store.fresh key origin extra) s acc) {now : U64}
    (hroom : Marked s acc (.event (.nextTs now))) {id : DocId} {model : ModelRef} {kind : String}
    {payload : Value} {action : Action}
    (hbuild : (s.buildAction now id model kind payload).2 = .ok action) :
    ∀ a ∈ acc, a.ts < action.ts ∧
      (toLex (a.ts, a.origin) : U64 ×ₗ Origin) < toLex (action.ts, action.origin) := by
  have hinv : ∀ a ∈ acc, a.ts ≤ s.tsHint := by
    clear hroom hbuild
    induction hlife with
    | start => exact fun a ha => absurd ha List.not_mem_nil
    | step hl h hen hP ih => exact marked_happen hP ih
  intro a ha
  have hlt : a.ts < action.ts := by
    rw [(buildAction_ok hbuild).1]
    exact (hinv a ha).trans_lt (lt_nextTs hroom).1
  exact ⟨hlt, Prod.Lex.toLex_lt_toLex.mpr (Or.inl hlt)⟩

/-! ## Builds that do not wrap -/

/-- One step of a node at work: a local action is built, or an event takes place. -/
inductive Move where
  | build (now : U64) (id : DocId) (model : ModelRef) (kind : String) (payload : Value)
  | event (ev : Event)

def Inner.move (s : Inner) : Move → Inner
  | .build now id model kind payload => (s.buildAction now id model kind payload).1
  | .event ev => s.exec ev

/-- The local action that the step builds, if any. -/
def Move.built (s : Inner) : Move → List Action
  | .build now id model kind payload =>
    (s.buildAction now id model kind payload).2.toOption.toList
  | .event _ => []

/-- Timestamps are drawn by builds only, and no state is adopted. -/
def Move.AtWork : Move → Prop
  | .event (.nextTs _) => False
  | .event (.adoptState _) => False
  | _ => True

/-- `k` more increments of `x` fit into a `u64`. -/
def Leaves (k : ℕ) (x : U64) : Prop := x.val + k ≤ u64Max

/-- What comes from outside leaves room for `k` builds: the wall clock at a build, and the timestamp
    and this node's own counter of an action that was not built here. -/
def Roomy (s : Inner) (built : List Action) (k : ℕ) (mv : Move) : Prop :=
  mv.AtWork ∧ match mv with
    | .build now .. => Leaves (k + 1) now
    | .event (.applyAction _ a) => a ∈ built ∨ (Leaves k a.ts ∧ Leaves k (a.clock.get s.origin))
    | .event _ => True

/-- A run from `s₀` to `s` that has built the actions `built` and may still build `k` more. -/
inductive Journey (P : Inner → List Action → ℕ → Move → Prop) (s₀ : Inner) :
    Inner → List Action → ℕ → Prop
  | start (k : ℕ) (hk : k ≤ u64Max) : Journey P s₀ s₀ [] k
  | build {s : Inner} {built : List Action} {k : ℕ} (hj : Journey P s₀ s built (k + 1)) (now : U64)
    (id : DocId) (model : ModelRef) (kind : String) (payload : Value)
    (hP : P s built k (.build now id model kind payload)) :
    Journey P s₀ (s.move (.build now id model kind payload))
      (built ++ Move.built s (.build now id model kind payload)) k
  | event {s : Inner} {built : List Action} {k : ℕ} (hj : Journey P s₀ s built k) (ev : Event)
    (hen : ev.Enabled s) (hP : P s built k (.event ev)) : Journey P s₀ (s.exec ev) built k

/-- Every counter the node will increment leaves room for `k` builds. -/
structure Room (s : Inner) (built : List Action) (k : ℕ) : Prop where
  hint : Leaves k s.tsHint
  clocks : ∀ d, Leaves k ((s.entryFor d).clock.get s.origin)
  builtTs : ∀ b ∈ built, Leaves k b.ts
  builtClock : ∀ b ∈ built, Leaves k (b.clock.get s.origin)

theorem Leaves.max {k : ℕ} {x y : U64} (hx : Leaves k x) (hy : Leaves k y) :
    Leaves k (max x y) := by
  rcases max_choice x y with h | h
  · rw [h]; exact hx
  · rw [h]; exact hy

theorem Leaves.of_le {k : ℕ} {x y : U64} (h : x ≤ y) (hy : Leaves k y) : Leaves k x :=
  (Nat.add_le_add_right (Fin.le_def.mp h) k).trans hy

theorem Leaves.add_one {k : ℕ} {x : U64} (h : Leaves (k + 1) x) :
    x.val < u64Max ∧ Leaves k (x + 1) := by
  unfold Leaves at h ⊢
  have hlt : x.val < u64Max := by omega
  rw [val_add_one hlt]
  omega

/-- The clock of an entry with one more action is the old one, joined with the action's or not. -/
theorem get_clock_appended_le (e : Entry) (m : Model) (a : Action) (o : Origin) :
    (appended e m a).clock.get o ≤ max (e.clock.get o) (a.clock.get o) := by
  rw [clock_appended]
  split
  · rw [VecClock.get_merge]
  · exact le_max_left _ _

theorem get_clock_settled_le (s : Inner) (a : Action) (m : Model) (o : Origin) :
    (s.settled a m).clock.get o ≤ max ((s.entryFor a.docId).clock.get o) (a.clock.get o) := by
  rw [clock_settled, ← clock_appended]
  exact get_clock_appended_le _ m a o

/-- A view's entry, or the blank one. -/
theorem entryFor_of_view {s : Inner} {d : DocId} {v : View} (h : s.view d = v) :
    s.entryFor d = v.entry.getD (Entry.new d) := by
  rw [← h]
  rfl

/-- **No event raises a document's counters above those of the action it applies.** -/
theorem get_clock_exec_le {s : Inner} {ev : Event} (hen : ev.Enabled s)
    (hno : ∀ st, ev ≠ .adoptState st) (d : DocId) (o : Origin) :
    ((s.exec ev).entryFor d).clock.get o ≤ (s.entryFor d).clock.get o ∨
      ∃ io a, ev = .applyAction io a ∧ ((s.exec ev).entryFor d).clock.get o ≤
        max ((s.entryFor d).clock.get o) (a.clock.get o) := by
  have hstep := docStep_exec s ev hen d
  generalize hv : (s.exec ev).view d = v at hstep
  rw [entryFor_of_view hv]
  cases hstep with
  | stay _ => exact Or.inl le_rfl
  | created sp hnew _ =>
    refine Or.inl ?_
    rw [entryFor_of_none hnew]
    exact le_rfl
  | @accepted io a m hd hacc =>
    subst hd
    refine Or.inr ⟨io, a, rfl, ?_⟩
    obtain ⟨l, hentry⟩ :=
      View.entry_finish (v := { s.view a.docId with entry := some (s.settled a m) }) rfl io a
    rw [hentry]
    exact get_clock_settled_le s a m o
  | @stuck io a m hd hacc _ =>
    subst hd
    exact Or.inr ⟨io, a, rfl, get_clock_appended_le _ m a o⟩
  | snapshot io =>
    refine Or.inl ?_
    obtain ⟨l, hentry⟩ := (s.view d).entry_snapshot io
    rw [hentry]
    cases he : s.entries[d]? with
    | none =>
      rw [entryFor_of_none he, show (s.view d).entry = none from he]
      exact le_rfl
    | some e =>
      rw [entryFor_eq he, show (s.view d).entry = some e from he]
      exact le_rfl
  | @adopted st hd => exact absurd rfl (hno st)

/-- **Step lemma, builds**: a build uses up one increment of the mark and of its document. -/
theorem room_build {s : Inner} {built : List Action} {k : ℕ} (h : Room s built (k + 1)) {now : U64}
    (hnow : Leaves (k + 1) now) (id : DocId) (model : ModelRef) (kind : String) (payload : Value) :
    Room (s.move (.build now id model kind payload))
      (built ++ Move.built s (.build now id model kind payload)) k := by
  have hfst : s.move (.build now id model kind payload) = (s.nextTs now).1 := buildAction_fst ..
  have hdrop : ∀ {x : U64}, Leaves (k + 1) x → Leaves k x := fun hx => by
    unfold Leaves at hx ⊢
    omega
  have hnext : Leaves k (s.nextTs now).2 := (h.hint.max hnow).add_one.2
  -- the built action carries the next timestamp and the next counter
  have hbuilt : ∀ b ∈ Move.built s (.build now id model kind payload),
      Leaves k b.ts ∧ Leaves k (b.clock.get s.origin) := by
    intro b hb
    replace hb : b ∈ (s.buildAction now id model kind payload).2.toOption.toList := hb
    cases hres : (s.buildAction now id model kind payload).2 with
    | error e => rw [hres] at hb; exact absurd hb List.not_mem_nil
    | ok action =>
      rw [hres] at hb
      obtain rfl : b = action := List.mem_singleton.mp hb
      obtain ⟨hts, -, -, e, he, hclock⟩ := buildAction_ok hres
      rw [hts, hclock, VecClock.get_tick, if_pos rfl]
      have hroom := h.clocks id
      rw [entryFor_eq he] at hroom
      exact ⟨hnext, hroom.add_one.2⟩
  rw [hfst]
  refine ⟨hnext, fun d => hdrop (h.clocks d), fun b hb => ?_, fun b hb => ?_⟩
  · rcases List.mem_append.mp hb with hb | hb
    · exact hdrop (h.builtTs b hb)
    · exact (hbuilt b hb).1
  · rcases List.mem_append.mp hb with hb | hb
    · exact hdrop (h.builtClock b hb)
    · exact (hbuilt b hb).2

/-- **Step lemma, events**: nothing from outside takes the room away. -/
theorem room_event {s : Inner} {built : List Action} {k : ℕ} (h : Room s built k) {ev : Event}
    (hen : ev.Enabled s) (hP : Roomy s built k (.event ev)) : Room (s.exec ev) built k := by
  obtain ⟨hwork, hP⟩ := hP
  have horigin := s.origin_exec ev
  have hno : ∀ st, ev ≠ .adoptState st := by
    rintro st rfl
    exact hwork
  -- an action that is applied was built here, or is roomy
  have hact : ∀ io a, ev = .applyAction io a → Leaves k a.ts ∧ Leaves k (a.clock.get s.origin) := by
    rintro io a rfl
    rcases hP with hb | hroom
    · exact ⟨h.builtTs a hb, h.builtClock a hb⟩
    · exact hroom
  refine ⟨?_, fun d => ?_, h.builtTs, ?_⟩
  · by_cases happ : ∃ io a, ev = .applyAction io a
    · obtain ⟨io, a, rfl⟩ := happ
      exact (h.hint.max (hact io a rfl).1).of_le (tsHint_applyAction s io a).2.1
    · rw [tsHint_exec s ev (fun io a heq => happ ⟨io, a, heq⟩)]
      · exact h.hint
      · rintro now rfl
        exact hwork
  · rw [horigin]
    rcases get_clock_exec_le hen hno d s.origin with hle | ⟨io, a, heq, hle⟩
    · exact (h.clocks d).of_le hle
    · exact ((h.clocks d).max (hact io a heq).2).of_le hle
  · rw [horigin]
    exact h.builtClock

theorem room_journey {key : SigningKey} {origin : Origin} {extra : List Model} {s : Inner}
    {built : List Action} {k : ℕ} (hj : Journey Roomy (Store.fresh key origin extra) s built k) :
    Room s built k := by
  induction hj with
  | start k hk =>
    have hkeys : (∅ : Std.ExtTreeMap DocId (List Action)).keys = [] := rfl
    have hzero : Leaves k (0 : U64) := by
      unfold Leaves
      simpa using hk
    refine ⟨?_, fun d => ?_, fun b hb => absurd hb List.not_mem_nil,
      fun b hb => absurd hb List.not_mem_nil⟩
    · rw [show (Store.fresh key origin extra).tsHint = 0 from by
        simp [Store.fresh, Store.openWithModels, Inner.replay, Store.emptyDisk, hkeys]]
      exact hzero
    · rw [entryFor_of_view (Store.fresh_view key origin extra d)]
      exact hzero
  | build hj now id model kind payload hP ih => exact room_build ih hP.2 id model kind payload
  | event hj ev hen hP ih => exact room_event ih hen hP

/-- **No build wraps.**  In every run from a new store in which everything from outside leaves room
    for the builds still to come, a build draws the timestamp just above the mark and the wall
    clock, and the counter just above its document's. -/
theorem builds_never_wrap {key : SigningKey} {origin : Origin} {extra : List Model} {s : Inner}
    {built : List Action} {k : ℕ}
    (hj : Journey Roomy (Store.fresh key origin extra) s built (k + 1)) {now : U64} {id : DocId}
    {model : ModelRef} {kind : String} {payload : Value}
    (hP : Roomy s built k (.build now id model kind payload)) {action : Action}
    (hbuild : (s.buildAction now id model kind payload).2 = .ok action) :
    (action.ts.val = (max s.tsHint now).val + 1 ∧ s.tsHint < action.ts ∧ now < action.ts) ∧
      (action.clock.get s.origin).val = ((s.entryFor id).clock.get s.origin).val + 1 ∧
      (s.entryFor id).clock.get s.origin < action.clock.get s.origin := by
  have hroom := room_journey hj
  obtain ⟨hts, -, -, e, he, hclock⟩ := buildAction_ok hbuild
  have hnext := (hroom.hint.max hP.2).add_one.1
  have hcount := (hroom.clocks id).add_one.1
  rw [entryFor_eq he] at hcount ⊢
  refine ⟨⟨?_, ?_, ?_⟩, ?_, ?_⟩
  · rw [hts]
    exact val_add_one hnext
  · rw [hts]
    exact (le_max_left s.tsHint now).trans_lt (lt_add_one hnext)
  · rw [hts]
    exact (le_max_right s.tsHint now).trans_lt (lt_add_one hnext)
  · rw [hclock, VecClock.get_tick, if_pos rfl]
    exact val_add_one hcount
  · rw [hclock, VecClock.get_tick, if_pos rfl]
    exact lt_add_one hcount

end

section

open Sample

attribute [local instance] Sample.primitives

/-- Alice's write is accepted, and her store opened again. -/
def keptLife : List Happening :=
  [.event (.applyAction Io.ok (aliceSets "title" "minutes" 3)), .reopen []]

theorem local_ts_dominates_kept :
    ∃ action, (((Store.fresh alice.key alice.name []).happenAll [] keptLife).1.buildAction 0 docId
        openRef "set" (Store.setPayload "title" (.string "agenda"))).2 = .ok action ∧
      ∀ a ∈ ((Store.fresh alice.key alice.name []).happenAll [] keptLife).2,
        a.ts < action.ts ∧
        (toLex (a.ts, a.origin) : U64 ×ₗ Origin) < toLex (action.ts, action.origin) := by
  have hfacts : changes (Store.fresh alice.key alice.name []).models
        ((Store.fresh alice.key alice.name []).entryFor docId) (aliceSets "title" "minutes" 3) =
          true ∧
      ((((Store.fresh alice.key alice.name []).happen
          (.event (.applyAction Io.ok (aliceSets "title" "minutes" 3)))).withModels
          (loadedModels [])).replayed docId).log = [aliceSets "title" "minutes" 3] ∧
      ((Store.fresh alice.key alice.name []).happen
        (.event (.applyAction Io.ok (aliceSets "title" "minutes" 3)))).disk.alog[docId]?.isSome =
          true ∧
      ((Store.fresh alice.key alice.name []).happenAll [] keptLife).1.tsHint = 3 ∧
      (((Store.fresh alice.key alice.name []).happenAll [] keptLife).1.buildAction 0 docId
        openRef "set" (Store.setPayload "title" (.string "agenda"))).2.isOk = true := by
    decide +kernel
  obtain ⟨hch, hlog, halog, hhint, hok⟩ := hfacts
  have hstart : Lifetime Marked (Store.fresh alice.key alice.name []) _ [] := Lifetime.start
  have hlife := (hstart.step
    (.event (.applyAction Io.ok (aliceSets "title" "minutes" 3))) trivial
      fun _ => Or.inr hch).step (.reopen []) trivial (by
        intro a ha
        refine Or.inr ⟨docId, aliceSets "title" "minutes" 3, halog, ?_, ?_⟩
        · rw [hlog]
          exact List.mem_singleton_self _
        · rw [List.nil_append] at ha
          obtain ⟨io, heq, -⟩ := mem_acceptedBy ha
          cases heq
          exact le_rfl)
  obtain ⟨action, hbuild⟩ : ∃ action, (((Store.fresh alice.key alice.name []).happenAll []
      keptLife).1.buildAction 0 docId openRef "set"
        (Store.setPayload "title" (.string "agenda"))).2 = .ok action := by
    cases hres : (((Store.fresh alice.key alice.name []).happenAll []
      keptLife).1.buildAction 0 docId openRef "set"
        (Store.setPayload "title" (.string "agenda"))).2 with
    | error e => rw [hres] at hok; exact nomatch hok
    | ok action => exact ⟨action, rfl⟩
  refine ⟨action, hbuild, ?_⟩
  refine local_ts_dominates hlife ?_ hbuild
  show (max ((Store.fresh alice.key alice.name []).happenAll [] keptLife).1.tsHint 0).val < u64Max
  rw [hhint]
  decide

/-- Bob is ahead of alice; his write is accepted and folded into a snapshot, and alice's store is
    opened again. -/
def forgottenLife : List Happening :=
  [.event (.registerPeerKey bob.name bob.key),
    .event (.applyAction Io.ok (act bob "open" "set" (Store.setPayload "title" (.string "draft"))
      5 [("bob", 1)] none)),
    .event (.snapshot Io.ok docId), .reopen []]

/-- **The mark is forgotten**: alice's next action is behind bob's, which she has accepted. -/
theorem local_ts_falls_behind :
    ¬ ∀ (s : Inner) (acc : List Action),
      Lifetime (fun _ _ _ => True) (Store.fresh alice.key alice.name []) s acc →
      ∀ (now : U64) (id : DocId) (model : ModelRef) (kind : String) (payload : Value)
        (action : Action), (s.buildAction now id model kind payload).2 = .ok action →
        ∀ a ∈ acc, a.ts < action.ts := by
  intro h
  have hfacts : (((Store.fresh alice.key alice.name []).happenAll [] forgottenLife).2.map
        Action.ts = [5]) ∧
      (((Store.fresh alice.key alice.name []).happenAll [] forgottenLife).1.buildAction 0 docId
        openRef "set" (Store.setPayload "title" (.string "agenda"))).2.map Action.ts = .ok 1 := by
    decide +kernel
  obtain ⟨hacc, hts⟩ := hfacts
  obtain ⟨a, ha, hfive⟩ : ∃ a ∈ ((Store.fresh alice.key alice.name []).happenAll []
      forgottenLife).2, a.ts = 5 := by
    apply List.mem_map.mp
    rw [hacc]
    exact List.mem_singleton_self _
  have hstart : Lifetime (fun _ _ _ => True) (Store.fresh alice.key alice.name []) _ [] :=
    Lifetime.start
  have hlife := Lifetime.happenAll forgottenLife hstart (by
      intro h hh s acc
      simp only [forgottenLife, List.mem_cons, List.not_mem_nil, or_false] at hh
      rcases hh with rfl | rfl | rfl | rfl <;> exact ⟨trivial, trivial⟩)
  cases hres : (((Store.fresh alice.key alice.name []).happenAll [] forgottenLife).1.buildAction 0
      docId openRef "set" (Store.setPayload "title" (.string "agenda"))).2 with
  | error e => rw [hres] at hts; exact nomatch hts
  | ok action =>
    rw [hres] at hts
    have hone : action.ts = 1 := Except.ok.inj hts
    have hlt := h _ _ hlife 0 docId openRef "set" _ action hres a ha
    rw [hone, hfive] at hlt
    exact absurd hlt (by decide)

/-- Bob's write carries the largest timestamp, and the largest counter for alice. -/
def bobOverflows : Action :=
  act bob "open" "set" (Store.setPayload "title" (.string "draft")) 18446744073709551615
    [("alice", 18446744073709551615), ("bob", 1)] none

/-- Alice's store after bob's write. -/
def overflownStore : Inner :=
  (Store.fresh alice.key alice.name []).execAll (pins [bob] ++ deliver [bobOverflows])

/-- **One action of a known peer makes both counters wrap**: alice's next action has timestamp and
    counter `0`. -/
theorem remote_values_wrap :
    ¬ ∀ (s : Inner) (built : List Action) (k : ℕ),
      Journey (fun _ _ _ mv => mv.AtWork) (Store.fresh alice.key alice.name []) s built k →
      ∀ (now : U64) (id : DocId) (model : ModelRef) (kind : String) (payload : Value)
        (action : Action), (s.buildAction now id model kind payload).2 = .ok action →
        s.tsHint < action.ts ∧
          (s.entryFor id).clock.get s.origin < action.clock.get s.origin := by
  intro h
  have hstart : Journey (fun _ _ _ mv => mv.AtWork) (Store.fresh alice.key alice.name []) _ [] 1 :=
    Journey.start 1 (by decide)
  have hj := (hstart.event
    (.registerPeerKey bob.name bob.key) trivial trivial).event
    (.applyAction Io.ok bobOverflows) trivial trivial
  have hfacts : (overflownStore.buildAction 7 docId openRef "set"
      (Store.setPayload "title" (.string "agenda"))).2.map
        (fun a => (a.ts, a.clock.get alice.name)) = .ok (0, 0) := by
    decide +kernel
  cases hres : (overflownStore.buildAction 7 docId openRef "set"
      (Store.setPayload "title" (.string "agenda"))).2 with
  | error e => rw [hres] at hfacts; exact nomatch hfacts
  | ok action =>
    rw [hres] at hfacts
    have hts : action.ts = 0 := congrArg Prod.fst (Except.ok.inj hfacts)
    have hlt := (h _ _ _ hj 7 docId openRef "set" _ action hres).1
    rw [hts] at hlt
    exact absurd hlt (Fin.not_lt_zero _)

/-- Bob's write leaves room for two builds. -/
def bobDrafts : Action :=
  act bob "open" "set" (Store.setPayload "title" (.string "draft")) 9 [("bob", 1)] none

def draftedStore : Inner :=
  (Store.fresh alice.key alice.name []).execAll (pins [bob] ++ deliver [bobDrafts])

theorem builds_never_wrap_drafted :
    ∃ action, (draftedStore.buildAction 7 docId openRef "set"
        (Store.setPayload "title" (.string "agenda"))).2 = .ok action ∧
      (action.ts.val = (max draftedStore.tsHint 7).val + 1 ∧ draftedStore.tsHint < action.ts ∧
        7 < action.ts) ∧
      (action.clock.get draftedStore.origin).val =
        ((draftedStore.entryFor docId).clock.get draftedStore.origin).val + 1 ∧
      (draftedStore.entryFor docId).clock.get draftedStore.origin <
        action.clock.get draftedStore.origin := by
  have hfacts : (draftedStore.buildAction 7 docId openRef "set"
        (Store.setPayload "title" (.string "agenda"))).2.isOk = true ∧
      bobDrafts.ts.val + 2 ≤ u64Max ∧ (bobDrafts.clock.get alice.name).val + 2 ≤ u64Max := by
    decide +kernel
  obtain ⟨hok, hts, hcount⟩ := hfacts
  have hstart : Journey Roomy (Store.fresh alice.key alice.name []) _ [] 2 :=
    Journey.start 2 (by decide)
  have hj := (hstart.event (.registerPeerKey bob.name bob.key) trivial ⟨trivial, trivial⟩).event
    (.applyAction Io.ok bobDrafts) trivial ⟨trivial, Or.inr ⟨hts, hcount⟩⟩
  cases hres : (draftedStore.buildAction 7 docId openRef "set"
      (Store.setPayload "title" (.string "agenda"))).2 with
  | error e => rw [hres] at hok; exact nomatch hok
  | ok action =>
    have hseven : Leaves 2 7 := by
      unfold Leaves
      decide
    exact ⟨action, rfl, builds_never_wrap hj ⟨trivial, hseven⟩ hres⟩

end

end PhReactor
