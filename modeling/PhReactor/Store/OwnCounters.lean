/-
  The counter a node gives its own actions.

  `buildAction` stamps a local action with the document's clock, one tick on, and leaves the
  document's clock alone: "the log append bumps the doc clock".  It does so only through the ops of
  the action, so an action that reduces to NO op leaves the counter where it was, and the next local
  action gets the same one again (`own_counter_repeats`).

  1. `LocalEvents s evs` are the events of local operations, one after the other: each action is
     applied in the state it was built in.

  2. `Met` is an accepted action with the state it met.  `Met.counted_iff`: its own counter is one
     above the document's, and the document's clock holds it afterwards, exactly when the action
     has an op and the counter is not at its largest value.

  3. In a run in which that is so of every accepted action, the own counters of a document strictly
     increase (`LocalEvents.increasing`); hence no two are equal.
-/
import PhReactor.Store.Failures
import PhReactor.Store.Timestamps

set_option linter.unusedSectionVars false

namespace PhReactor

section

variable [Primitives]

/-! ## Accepted actions and the states they met -/

/-- An accepted action, the state it met, and the outcome of its file writes. -/
structure Met where
  state : Inner
  io : Io
  action : Action

/-- The action an event has accepted, if any. -/
def Event.met (s : Inner) : Event → List Met
  | .applyAction io a => if s.accepts a then [⟨s, io, a⟩] else []
  | _ => []

/-- The actions accepted along a list of events. -/
def metAlong (s : Inner) : List Event → List Met
  | [] => []
  | ev :: evs => ev.met s ++ metAlong (s.exec ev) evs

namespace Met

/-- The node's counter in the document's clock, as the action finds it. -/
def before (x : Met) : U64 := (x.state.entryFor x.action.docId).clock.get x.state.origin

/-- The node's counter in the action's clock. -/
def own (x : Met) : U64 := x.action.clock.get x.state.origin

/-- The node's counter in the document's clock, as the action leaves it. -/
def after (x : Met) : U64 :=
  ((x.state.applyAction x.io x.action).1.entryFor x.action.docId).clock.get x.state.origin

/-- The action's own counter is one above the document's, and the document holds it afterwards. -/
def Counted (x : Met) : Prop := x.own.val = x.before.val + 1 ∧ x.after = x.own

/-- The action reduces to at least one op, and the counter it starts from is not the largest. -/
def Advances (x : Met) : Prop :=
  touchesIn x.state.models x.action = true ∧ x.before.val < u64Max

/-- The action was built in the state it met. -/
structure Built (x : Met) : Prop where
  accepted : x.state.accepts x.action = true
  clock : x.action.clock = (x.state.entryFor x.action.docId).clock.tick x.state.origin

end Met

/-- The clock of a document after an action has been accepted, whatever the call answers. -/
theorem clock_applyAction {s : Inner} {a : Action} {m : Model} (hacc : s.Accepted a m) (io : Io) :
    ((s.applyAction io a).1.entryFor a.docId).clock =
      if m.touches a then (s.entryFor a.docId).clock.merge a.clock
      else (s.entryFor a.docId).clock := by
  cases hstuck : s.refoldStuck a with
  | true =>
    obtain ⟨msg, heq⟩ := Inner.applyAction_stuck hacc hstuck io
    have hget : (s.putEntry a.docId (appended (s.entryFor a.docId) m a)).entries[a.docId]? =
        some (appended (s.entryFor a.docId) m a) := by simp [Inner.putEntry]
    rw [heq, entryFor_eq hget, clock_appended]
  | false =>
    have hview := view_applyAction_settled hacc hstuck io
    obtain ⟨l, hl⟩ := View.entry_finish
      (show View.entry { s.view a.docId with entry := some (s.settled a m) } = _ from rfl) io a
    rw [← hview] at hl
    rw [entryFor_eq (show (s.applyAction io a).1.entries[a.docId]? = _ from hl)]
    exact clock_settled s a m

theorem Met.own_eq {x : Met} (h : x.Built) : x.own = x.before + 1 := by
  unfold Met.own Met.before
  rw [h.clock, VecClock.get_tick, if_pos rfl]

/-- One above, in the arithmetic of `u64`: exact below the largest value. -/
theorem Met.own_val_iff {x : Met} (h : x.Built) :
    x.own.val = x.before.val + 1 ↔ x.before.val < u64Max := by
  rw [x.own_eq h]
  constructor
  · intro hval
    have hlt := (x.before + 1).isLt
    unfold u64Max
    omega
  · exact val_add_one

/-- What the action leaves in the document's clock. -/
theorem Met.after_eq {x : Met} (h : x.Built) :
    x.after = if touchesIn x.state.models x.action then max x.before x.own else x.before := by
  obtain ⟨m, hacc⟩ := Inner.accepts_iff.mp h.accepted
  unfold Met.after
  rw [clock_applyAction hacc, touchesIn_eq hacc.model]
  cases m.touches x.action with
  | true => exact VecClock.get_merge _ _ _
  | false => rfl

/-- **When an accepted action counts**: when it has an op and its counter does not wrap. -/
theorem Met.counted_iff {x : Met} (h : x.Built) : x.Counted ↔ x.Advances := by
  unfold Met.Counted Met.Advances
  rw [x.own_val_iff h]
  constructor
  · rintro ⟨hlt, hafter⟩
    refine ⟨?_, hlt⟩
    by_contra hno
    -- without an op the clock stays where it was, one below
    rw [x.after_eq h, if_neg hno] at hafter
    have hval := (x.own_val_iff h).mpr hlt
    rw [← hafter] at hval
    omega
  · rintro ⟨htouch, hlt⟩
    refine ⟨hlt, ?_⟩
    have hval := (x.own_val_iff h).mpr hlt
    rw [x.after_eq h, if_pos htouch]
    apply max_eq_right
    rw [Fin.le_def]
    omega

/-! ## Local operations, one after the other -/

/-- The events of local operations: a blank entry under a new id, a name bound, an action applied
    in the state it was built in (with the co-signatures collected for it). -/
inductive LocalEvents : Inner → List Event → Prop
  | nil (s : Inner) : LocalEvents s []
  | newEntry {s : Inner} {id : DocId} {sp : Option DocId} {evs : List Event}
    (hnew : s.entries[id]? = none) (rest : LocalEvents (s.exec (.newEntry id sp)) evs) :
    LocalEvents s (.newEntry id sp :: evs)
  | bindName {s : Inner} {name : String} {id : DocId} {evs : List Event}
    (rest : LocalEvents (s.exec (.bindName name id)) evs) : LocalEvents s (.bindName name id :: evs)
  | nextTs {s : Inner} {now : U64} {evs : List Event}
    (rest : LocalEvents (s.exec (.nextTs now)) evs) : LocalEvents s (.nextTs now :: evs)
  | apply {s : Inner} {now : U64} {id : DocId} {model : ModelRef} {kind : String}
    {payload : Value} {a : Action} {io : Io} {cs : List CoSig} {evs : List Event}
    (hbuilt : (s.buildAction now id model kind payload).2 = .ok a)
    (rest : LocalEvents
      ((s.exec (.nextTs now)).exec (.applyAction io { a with cosig := cs })) evs) :
    LocalEvents s (.nextTs now :: .applyAction io { a with cosig := cs } :: evs)

theorem LocalEvents.append {s : Inner} {l₁ l₂ : List Event} (h₁ : LocalEvents s l₁)
    (h₂ : LocalEvents (s.execAll l₁) l₂) : LocalEvents s (l₁ ++ l₂) := by
  induction h₁ with
  | nil s => exact h₂
  | newEntry hnew _ ih => exact .newEntry hnew (ih h₂)
  | bindName _ ih => exact .bindName (ih h₂)
  | nextTs _ ih => exact .nextTs (ih h₂)
  | apply hbuilt _ ih => exact .apply hbuilt (ih h₂)

/-- A local operation applies its action as it built it. -/
theorem localEvents_buildAndApply (s : Inner) (io : Io) (now : U64) (id : DocId) (model : ModelRef)
    (kind : String) (payload : Value) :
    LocalEvents s (buildAndApplyEvents s io now id model kind payload) := by
  unfold buildAndApplyEvents
  cases hres : (s.buildAction now id model kind payload).2 with
  | error e => exact .nextTs (.nil _)
  | ok a =>
    have hcs : a = { a with cosig := [] } := by
      unfold Inner.buildAction at hres
      dsimp only at hres
      split at hres
      · cases hres
      · rw [← Except.ok.inj hres]
        rfl
    dsimp only
    rw [hcs]
    exact .apply hres (.nil _)

theorem localEvents_setFields (io : Io) (now : ℕ → U64) (id : DocId) :
    ∀ (fields : List (String × Value)) (s : Inner) (i : ℕ),
      LocalEvents s (setFieldsEvents io now id s fields i)
  | [], s, _ => .nil s
  | (field, value) :: rest, s, i => by
    unfold setFieldsEvents
    refine (localEvents_buildAndApply ..).append ?_
    rw [← buildAndApply_fst]
    cases Store.buildAndApply s io (now i) id openRef "set" (Store.setPayload field value) with
    | mk t r =>
      cases r with
      | error e => exact .nil _
      | ok a => exact localEvents_setFields io now id rest t (i + 1)

theorem localEvents_create {s : Inner} {id : DocId} (hnew : s.entries[id]? = none) (io : Io)
    (now : U64) (sp : Option DocId) (model : ModelRef) (kind : String) (payload : Value) :
    LocalEvents s (createEvents s io now id sp model kind payload) :=
  .newEntry hnew (localEvents_buildAndApply ..)

theorem localEvents_createDocInSpace {s : Inner} {id : DocId} (hnew : s.entries[id]? = none)
    (io : Io) (now : U64) (name : String) (model : ModelRef) (payload : Value)
    (space : Option DocId) :
    LocalEvents s (createDocInSpaceEvents s io now id name model payload space) := by
  unfold createDocInSpaceEvents
  split
  · exact localEvents_create hnew io now space model "init" payload
  · exact .nil s

theorem localEvents_onNamed (s : Inner) (io : Io) (now : U64) (name : String) (model : ModelRef)
    (kind : String) (payload : Value) :
    LocalEvents s (onNamedEvents s io now name model kind payload) := by
  unfold onNamedEvents
  split
  · exact .nil s
  · exact localEvents_buildAndApply ..

theorem localEvents_createDoc {s : Inner} {id : DocId} (hnew : s.entries[id]? = none) (io : Io)
    (now : ℕ → U64) (name : String) (fields : Std.ExtTreeMap String Value) :
    LocalEvents s (createDocEvents s io now id name fields) := by
  unfold createDocEvents
  split
  · refine (localEvents_create hnew io (now 0) none openRef "create" _).append ?_
    have hfirst : s.execAll (createEvents s io (now 0) id none openRef "create"
        (Store.setPayload nameKey (.string name))) =
        (Store.buildAndApply (s.putEntry id (Entry.new id)) io (now 0) id openRef "create"
          (Store.setPayload nameKey (.string name))).1 := (buildAndApply_fst ..).symm
    rw [hfirst]
    cases Store.buildAndApply (s.putEntry id (Entry.new id)) io (now 0) id openRef "create"
        (Store.setPayload nameKey (.string name)) with
    | mk t r =>
      cases r with
      | error e => exact .nil _
      | ok a =>
        refine (localEvents_setFields io now id fields.toList t 1).append ?_
        split
        · exact .nil _
        · exact .bindName (.nil _)
  · exact .nil s

/-- A local operation: one of the calls that build an action and apply it, or the two halves of a
    proposal, with the co-signatures collected in between. -/
inductive LocalOp where
  | call (c : Call)
  | submit (io : Io) (now : U64) (name : String) (model : ModelRef) (kind : String)
      (payload : Value) (cosig : List CoSig)

/-- The calls that build an action and apply it. -/
def Call.isLocal : Call → Bool
  | .createDoc .. | .createDocInSpace .. | .createSpaceAt .. | .updateField .. | .deleteField ..
  | .deleteDoc .. | .applyLocalAction .. => true
  | _ => false

namespace LocalOp

/-- The events of a local operation. -/
def events (s : Inner) : LocalOp → List Event
  | .call c => c.events s
  | .submit io now name model kind payload cosig =>
    Call.events s (.buildLocalAction now name model kind payload) ++
      match (Store.buildLocalAction s now name model kind payload).2 with
      | .error _ => []
      | .ok a => [.applyAction io { a with cosig }]

/-- The operation is a local one, and a creating call draws a fresh id. -/
def Allowed (s : Inner) : LocalOp → Prop
  | .call c => c.isLocal = true ∧ c.FreshId s
  | .submit .. => True

end LocalOp

theorem localEvents_call {s : Inner} {c : Call} (hloc : c.isLocal = true) (hid : c.FreshId s) :
    LocalEvents s (c.events s) := by
  cases c with
  | createDoc io now id name fields => exact localEvents_createDoc hid io now name fields
  | createDocInSpace io now id name model payload space =>
    exact localEvents_createDocInSpace hid io now name model payload space
  | createSpaceAt io now id name payload =>
    show LocalEvents s (if s.entries.contains id then [] else _)
    split
    · exact .nil s
    · next hno =>
      refine localEvents_createDocInSpace ?_ io now name _ payload (some id)
      rw [Std.ExtTreeMap.contains_eq_isSome_getElem?] at hno
      exact Option.not_isSome_iff_eq_none.mp hno
  | updateField io now name field value => exact localEvents_onNamed ..
  | deleteField io now name field => exact localEvents_onNamed ..
  | deleteDoc io now name => exact localEvents_onNamed ..
  | applyLocalAction io now name model kind payload => exact localEvents_onNamed ..
  | buildLocalAction now name model kind payload => cases hloc
  | applySignedAction io a => cases hloc
  | applyRemoteAction io a => cases hloc
  | snapshot io id => cases hloc
  | adoptState st => cases hloc
  | registerPeerKey o k => cases hloc
  | addModel m => cases hloc
  | subscribeChanges => cases hloc
  | drainOutbound => cases hloc
  | connectOutbound => cases hloc

theorem localEvents_op {s : Inner} {op : LocalOp} (h : op.Allowed s) :
    LocalEvents s (op.events s) := by
  cases op with
  | call c => exact localEvents_call h.1 h.2
  | submit io now name model kind payload cosig =>
    unfold LocalOp.events Store.buildLocalAction
    dsimp only
    unfold Call.events
    dsimp only
    cases s.names[name]? with
    | none => exact .nil s
    | some id =>
      dsimp only
      cases hres : (s.buildAction now id model kind payload).2 with
      | error e => exact .nextTs (.nil _)
      | ok a => exact .apply hres (.nil _)

/-! ## The counters of a run -/

/-- A blank entry under a new id has the clock of a document that is not there. -/
theorem clock_newEntry {s : Inner} {id : DocId} (hnew : s.entries[id]? = none) (sp : Option DocId)
    (d : DocId) : ((s.exec (.newEntry id sp)).entryFor d).clock = (s.entryFor d).clock := by
  have hget : (s.exec (.newEntry id sp)).entries[d]? =
      if id = d then some { Entry.new id with space := sp } else s.entries[d]? := by
    show (s.entries.insert id { Entry.new id with space := sp })[d]? = _
    rw [Std.ExtTreeMap.getElem?_insert]
    simp
  by_cases hd : id = d
  · subst hd
    rw [if_pos rfl] at hget
    rw [entryFor_eq hget, entryFor_of_none hnew]
  · rw [if_neg hd] at hget
    unfold Inner.entryFor
    rw [hget]

/-- No counter falls when an action is applied. -/
theorem clock_applyAction_le (s : Inner) (io : Io) (a : Action) (d : DocId) (o : Origin) :
    (s.entryFor d).clock.get o ≤ ((s.applyAction io a).1.entryFor d).clock.get o := by
  by_cases hacc : a.docId = d ∧ s.accepts a = true
  · obtain ⟨rfl, hacc⟩ := hacc
    obtain ⟨m, hacc⟩ := Inner.accepts_iff.mp hacc
    rw [clock_applyAction hacc]
    split
    · rw [VecClock.get_merge]
      exact le_max_left _ _
    · exact le_refl _
  · -- another document's action, or one that is refused
    have hstep := docStep_applyAction s io a d
    have hno : ∀ m, a.docId = d → ¬ s.Accepted a m := fun m hd hm =>
      hacc ⟨hd, Inner.accepts_iff.mpr ⟨m, hm⟩⟩
    generalize hv : (s.applyAction io a).1.view d = v at hstep
    cases hstep with
    | stay _ => rw [entryFor_congr hv]
    | created sp hnew _ =>
      have hget : (s.applyAction io a).1.entries[d]? = some { Entry.new d with space := sp } :=
        congrArg View.entry hv
      rw [entryFor_eq hget, entryFor_of_none hnew]
    | accepted hd hm => exact absurd hm (hno _ hd)
    | stuck hd hm _ => exact absurd hm (hno _ hd)

/-- What the events of a local operation accept was built where it was applied. -/
theorem LocalEvents.built {s : Inner} {evs : List Event} (h : LocalEvents s evs) :
    ∀ x ∈ metAlong s evs, x.Built ∧ x.state.origin = s.origin := by
  induction h with
  | nil s => exact fun x hx => absurd hx List.not_mem_nil
  | newEntry hnew _ ih => exact ih
  | bindName _ ih => exact ih
  | nextTs _ ih => exact ih
  | @apply s now id model kind payload a io cs evs hbuilt _ ih =>
    intro x hx
    have horigin : ((s.exec (.nextTs now)).exec
        (.applyAction io { a with cosig := cs })).origin = s.origin := by
      rw [Inner.origin_exec, Inner.origin_exec]
    rcases List.mem_append.mp hx with hx | hx
    · exact absurd hx List.not_mem_nil
    rcases List.mem_append.mp hx with hx | hx
    · -- the action itself
      unfold Event.met at hx
      dsimp only at hx
      split at hx
      · next hacc =>
        obtain rfl := List.mem_singleton.mp hx
        obtain ⟨-, -, hdoc, e, he, hclock⟩ := buildAction_ok hbuilt
        refine ⟨⟨hacc, ?_⟩, rfl⟩
        show a.clock = ((s.exec (.nextTs now)).entryFor a.docId).clock.tick s.origin
        rw [hclock, hdoc, entryFor_eq (show (s.exec (.nextTs now)).entries[id]? = some e from he)]
      · exact absurd hx List.not_mem_nil
    · obtain ⟨hb, ho⟩ := ih x hx
      exact ⟨hb, ho.trans horigin⟩

/-- **Along local operations whose accepted actions all advance, the own counters of a document
    strictly increase**, from the counter the run starts with. -/
theorem LocalEvents.increasing {s : Inner} {evs : List Event} (h : LocalEvents s evs) :
    (∀ x ∈ metAlong s evs, x.Advances) →
    (∀ x ∈ metAlong s evs, (s.entryFor x.action.docId).clock.get s.origin < x.own) ∧
      (metAlong s evs).Pairwise fun x y => x.action.docId = y.action.docId → x.own < y.own := by
  induction h with
  | nil s => exact fun _ => ⟨fun x hx => absurd hx List.not_mem_nil, List.Pairwise.nil⟩
  | @newEntry s id sp evs hnew _ ih =>
    intro hadv
    obtain ⟨habove, hpair⟩ := ih hadv
    refine ⟨fun x hx => ?_, hpair⟩
    have hlt := habove x hx
    rw [clock_newEntry hnew] at hlt
    exact hlt
  | bindName _ ih => exact ih
  | nextTs _ ih => exact ih
  | @apply s now id model kind payload a io cs evs hbuilt hrest ih =>
    intro hadv
    have hall : LocalEvents s (.nextTs now :: .applyAction io { a with cosig := cs } :: evs) :=
      .apply hbuilt hrest
    have hmet : metAlong s (.nextTs now :: .applyAction io { a with cosig := cs } :: evs) =
        Event.met (s.exec (.nextTs now)) (.applyAction io { a with cosig := cs }) ++
          metAlong ((s.exec (.nextTs now)).exec (.applyAction io { a with cosig := cs })) evs := rfl
    have hbuiltAll := hall.built
    rw [hmet] at hadv hbuiltAll ⊢
    obtain ⟨habove, hpair⟩ := ih fun x hx => hadv x (List.mem_append_right _ hx)
    have horigin : ((s.exec (.nextTs now)).exec
        (.applyAction io { a with cosig := cs })).origin = s.origin := by
      rw [Inner.origin_exec, Inner.origin_exec]
    rw [horigin] at habove
    -- later actions lie above the counter this one leaves
    have hlater : ∀ y ∈ metAlong ((s.exec (.nextTs now)).exec
        (.applyAction io { a with cosig := cs })) evs,
        (s.entryFor y.action.docId).clock.get s.origin < y.own := fun y hy =>
      (clock_applyAction_le (s.exec (.nextTs now)) io { a with cosig := cs } _ _).trans_lt
        (habove y hy)
    have hhead : ∀ x ∈ Event.met (s.exec (.nextTs now)) (.applyAction io { a with cosig := cs }),
        x = ⟨s.exec (.nextTs now), io, { a with cosig := cs }⟩ := by
      intro x hx
      unfold Event.met at hx
      dsimp only at hx
      split at hx
      · exact List.mem_singleton.mp hx
      · exact absurd hx List.not_mem_nil
    constructor
    · intro x hx
      rcases List.mem_append.mp hx with hx' | hx'
      · have hval := (x.own_val_iff (hbuiltAll x hx).1).mpr (hadv x hx).2
        obtain rfl := hhead x hx'
        rw [Fin.lt_def]
        exact lt_of_lt_of_eq (Nat.lt_succ_self _) hval.symm
      · exact hlater x hx'
    · refine List.pairwise_append.mpr ⟨?_, hpair, ?_⟩
      · unfold Event.met
        dsimp only
        split
        · exact List.pairwise_singleton _ _
        · exact List.Pairwise.nil
      · intro x hx y hy hdoc
        have hcount := (x.counted_iff (hbuiltAll x (List.mem_append_left _ hx)).1).mpr
          (hadv x (List.mem_append_left _ hx))
        obtain rfl := hhead x hx
        have hlt := habove y hy
        rw [← hdoc] at hlt
        rw [← hcount.2]
        exact hlt

/-- The events of a sequence of local operations. -/
def opsEvents (s : Inner) : List LocalOp → List Event
  | [] => []
  | op :: ops => op.events s ++ opsEvents (s.execAll (op.events s)) ops

/-- Each operation of the sequence is allowed where it starts. -/
def OpsAllowed (s : Inner) : List LocalOp → Prop
  | [] => True
  | op :: ops => op.Allowed s ∧ OpsAllowed (s.execAll (op.events s)) ops

instance (s : Inner) : (c : Call) → Decidable (c.FreshId s)
  | .createDoc _ _ id _ _ => inferInstanceAs (Decidable (s.entries[id]? = none))
  | .createDocInSpace _ _ id _ _ _ _ => inferInstanceAs (Decidable (s.entries[id]? = none))
  | .createSpaceAt .. | .updateField .. | .deleteField .. | .deleteDoc .. | .applyLocalAction ..
  | .buildLocalAction .. | .applySignedAction .. | .applyRemoteAction .. | .snapshot ..
  | .adoptState .. | .registerPeerKey .. | .addModel .. | .subscribeChanges | .drainOutbound
  | .connectOutbound => isTrue trivial

instance (s : Inner) : (op : LocalOp) → Decidable (op.Allowed s)
  | .call _ => inferInstanceAs (Decidable (_ ∧ _))
  | .submit .. => isTrue trivial

instance decidableOpsAllowed : (ops : List LocalOp) → (s : Inner) → Decidable (OpsAllowed s ops)
  | [], _ => isTrue trivial
  | op :: ops, s =>
    haveI := decidableOpsAllowed ops (s.execAll (op.events s))
    inferInstanceAs (Decidable (_ ∧ _))

theorem localEvents_ops : ∀ (ops : List LocalOp) {s : Inner}, OpsAllowed s ops →
    LocalEvents s (opsEvents s ops)
  | [], s, _ => .nil s
  | _ :: ops, _, h => (localEvents_op h.1).append (localEvents_ops ops h.2)

/-- **When own counters are unique**: along any sequence of local operations, every accepted action
    carries the counter one above its document's, the document holds it afterwards, and no two
    accepted actions of one document carry the same one — exactly when every accepted action
    reduces to an op and starts below the largest counter. -/
theorem own_counters_unique_iff {s : Inner} {ops : List LocalOp} (h : OpsAllowed s ops) :
    ((∀ x ∈ metAlong s (opsEvents s ops), x.Counted) ∧
      (metAlong s (opsEvents s ops)).Pairwise fun x y =>
        x.action.docId = y.action.docId → x.own ≠ y.own) ↔
      ∀ x ∈ metAlong s (opsEvents s ops), x.Advances := by
  have hlocal := localEvents_ops ops h
  constructor
  · rintro ⟨hcount, -⟩ x hx
    exact (x.counted_iff (hlocal.built x hx).1).mp (hcount x hx)
  · intro hadv
    refine ⟨fun x hx => (x.counted_iff (hlocal.built x hx).1).mpr (hadv x hx), ?_⟩
    exact (hlocal.increasing hadv).2.imp fun hlt hdoc heq => absurd heq (hlt hdoc).ne

end

section

open Sample

attribute [local instance] Sample.primitives

/-- A model with a reducer that writes nothing. -/
def pingModel : Model :=
  .l1 (expectL1 (.object [("name", .string "ping"),
    ("reducers", .object [("ping", .object [("payload", .object []), ("writes", .object [])])]),
    ("version", .string "1")]))

/-- Alice creates her notes and pings them twice. -/
def pingOps : List LocalOp :=
  [.call (.createDoc Io.ok (fun _ => 7) docId "notes" ∅),
   .call (.applyLocalAction Io.ok 8 "notes" (ModelRef.new "ping" "1") "ping" (.object [])),
   .call (.applyLocalAction Io.ok 9 "notes" (ModelRef.new "ping" "1") "ping" (.object []))]

/-- **Two actions carry one counter**: the first ping has no op, so the second one gets its counter
    again. -/
theorem own_counter_repeats :
    ¬ ∀ (s : Inner) (ops : List LocalOp), OpsAllowed s ops →
      (∀ x ∈ metAlong s (opsEvents s ops), x.Counted) ∧
        (metAlong s (opsEvents s ops)).Pairwise fun x y =>
          x.action.docId = y.action.docId → x.own ≠ y.own := by
  intro h
  have hfacts : OpsAllowed (Store.fresh alice.key alice.name [pingModel]) pingOps ∧
      ((metAlong (Store.fresh alice.key alice.name [pingModel])
        (opsEvents (Store.fresh alice.key alice.name [pingModel]) pingOps)).map fun x =>
          (x.action.docId, x.own)) = [(docId, 1), (docId, 2), (docId, 2)] := by
    decide +kernel
  obtain ⟨hallowed, hmet⟩ := hfacts
  have hpair := (h _ _ hallowed).2
  have hpair : ([(docId, 1), (docId, 2), (docId, 2)] : List (DocId × U64)).Pairwise
      fun p q => p.1 = q.1 → p.2 ≠ q.2 := by
    rw [← hmet, List.pairwise_map]
    exact hpair
  exact absurd hpair (by decide)

/-- Alice creates her notes with a title, and changes it. -/
def titleOps : List LocalOp :=
  [.call (.createDoc Io.ok (fun _ => 7) docId "notes"
      ((∅ : Std.ExtTreeMap String Value).insert "title" (.string "plan"))),
   .call (.updateField Io.ok 8 "notes" "title" (.string "agenda"))]

theorem own_counters_unique_titles :
    ((metAlong (Store.fresh alice.key alice.name [])
      (opsEvents (Store.fresh alice.key alice.name []) titleOps)).map Met.own) = [1, 2, 3] ∧
    ((∀ x ∈ metAlong (Store.fresh alice.key alice.name [])
        (opsEvents (Store.fresh alice.key alice.name []) titleOps), x.Counted) ∧
      (metAlong (Store.fresh alice.key alice.name [])
        (opsEvents (Store.fresh alice.key alice.name []) titleOps)).Pairwise fun x y =>
          x.action.docId = y.action.docId → x.own ≠ y.own) := by
  have hfacts : OpsAllowed (Store.fresh alice.key alice.name []) titleOps ∧
      ((metAlong (Store.fresh alice.key alice.name [])
        (opsEvents (Store.fresh alice.key alice.name []) titleOps)).map Met.own) = [1, 2, 3] ∧
      ((metAlong (Store.fresh alice.key alice.name [])
        (opsEvents (Store.fresh alice.key alice.name []) titleOps)).all fun x =>
          touchesIn x.state.models x.action && decide (x.before.val < u64Max)) = true := by
    decide +kernel
  obtain ⟨hallowed, hown, hadv⟩ := hfacts
  refine ⟨hown, (own_counters_unique_iff hallowed).mpr fun x hx => ?_⟩
  have hx := List.all_eq_true.mp hadv x hx
  rw [Bool.and_eq_true] at hx
  exact ⟨hx.1, of_decide_eq_true hx.2⟩

end

end PhReactor
