/-
  A network of honest stores, and what their clocks say about each other.

  Nodes make actions, and accept the actions of others in any order, any number of times, or never:
  gossip loses and reorders, and catch-up delivers what somebody has in a log.  `Net` is the state
  of all nodes.  Two parts of it are for the proofs only: `archive`, every action of the document
  that some node has accepted, and `folded`, what each node's snapshots have taken out of its log.

  "Clock coverage means possession" fails as soon as an action overtakes an earlier one of the same
  origin that is then lost: the clock has its counter from the later one, no gap is visible, and
  catch-up sends nothing (`hidden_gap`).

  It holds in every run in which each node accepts an action only after everything its clock covers
  (`Causally`): then no clock has a hole (`NetInv`), and what is missing shows as a gap and is sent
  by catch-up (`coverage_means_possession`).
-/
import Mathlib.Logic.Function.Basic
import PhReactor.Sync.CatchUp

set_option linter.unusedSectionVars false

namespace PhReactor

section

variable [Primitives]

/-! ## What a node holds -/

/-- The actions of `d` that an event makes a store accept: at most one. -/
def acceptedOf (d : DocId) (s : Inner) : Event → List Action
  | .applyAction _ a => if a.docId = d ∧ s.accepts a then [a] else []
  | _ => []

/-- What the snapshots of `d` have taken out of the log, after an event: all of the log, and what
    the event accepted, when the log is empty afterwards. -/
def foldedStep (d : DocId) (s : Inner) (F : List Action) (ev : Event) : List Action :=
  if ((s.exec ev).entryFor d).log = [] then F ++ ((s.entryFor d).log ++ acceptedOf d s ev) else F

/-- The clock of `d` after taking in accepted actions. -/
def clockAfter (r : ModelRegistry) (c : VecClock) (l : List Action) : VecClock :=
  l.foldl (fun c a => if touchesIn r a then c.merge a.clock else c) c

/-- Nothing is lost between the log and what the snapshots have taken out of it. -/
theorem mem_foldedStep {F log acc log' : List Action}
    (h : (∀ b, b ∈ log' ↔ b ∈ log ++ acc) ∨ log' = []) (b : Action) :
    b ∈ (if log' = [] then F ++ (log ++ acc) else F) ++ log' ↔ b ∈ F ++ log ∨ b ∈ acc := by
  have hsplit : b ∈ F ++ (log ++ acc) ↔ b ∈ F ++ log ∨ b ∈ acc := by
    rw [← List.append_assoc, List.mem_append]
  by_cases hnil : log' = []
  · rw [if_pos hnil, hnil, List.append_nil]
    exact hsplit
  · rw [if_neg hnil, ← hsplit]
    rcases h with h | h
    · rw [List.mem_append, h b, ← List.mem_append]
    · exact absurd h hnil

theorem acceptedOf_accepted {s : Inner} {io : Io} {a : Action} {m : Model} (h : s.Accepted a m) :
    acceptedOf a.docId s (.applyAction io a) = [a] :=
  if_pos ⟨rfl, Inner.accepts_iff.mpr ⟨m, h⟩⟩

theorem acceptedOf_eq_nil {d : DocId} {s : Inner} {ev : Event}
    (h : ∀ io a, ev = .applyAction io a → a.docId = d → ∀ m, ¬ s.Accepted a m) :
    acceptedOf d s ev = [] := by
  cases ev with
  | applyAction io a =>
    refine if_neg ?_
    rintro ⟨hd, hacc⟩
    obtain ⟨m, hm⟩ := Inner.accepts_iff.mp hacc
    exact h io a rfl hd m hm
  | _ => rfl

/-- **What an event does to possession and clock**: it adds what it accepted, and joins its clock.
    Snapshots, refusals and a missing model change neither. -/
theorem possession_exec {d : DocId} {s : Inner} {F : List Action} {ev : Event}
    (hen : ev.Enabled s) (hno : ∀ st, ev = .adoptState st → st.doc.id ≠ d) :
    (∀ b, b ∈ foldedStep d s F ev ++ ((s.exec ev).entryFor d).log ↔
      b ∈ F ++ (s.entryFor d).log ∨ b ∈ acceptedOf d s ev) ∧
    (s.exec ev).clockOf d = clockAfter s.models (s.clockOf d) (acceptedOf d s ev) := by
  suffices h : ((∀ b, b ∈ ((s.exec ev).entryFor d).log ↔
      b ∈ (s.entryFor d).log ++ acceptedOf d s ev) ∨ ((s.exec ev).entryFor d).log = []) ∧
      (s.exec ev).clockOf d = clockAfter s.models (s.clockOf d) (acceptedOf d s ev) from
    ⟨fun b => mem_foldedStep h.1 b, h.2⟩
  have hstep := docStep_exec s ev hen d
  generalize hv : (s.exec ev).view d = v at hstep
  have hfor : (s.exec ev).entryFor d = v.entry.getD (Entry.new d) := by rw [← hv]; rfl
  unfold Inner.clockOf
  rw [hfor]
  -- an accepted action: the log gets it and the clock its clock, whatever a snapshot does next
  have haccept : ∀ (a : Action) (m : Model), a.docId = d → s.Accepted a m → ∀ e : Entry,
      (∀ b, b ∈ e.log ↔ b ∈ (s.entryFor d).log ∨ b = a) →
      e.clock = (if m.touches a then (s.entryFor d).clock.merge a.clock else (s.entryFor d).clock) →
      (∀ b, b ∈ e.log ↔ b ∈ (s.entryFor d).log ++ [a]) ∧
        e.clock = clockAfter s.models (s.entryFor d).clock [a] := by
    intro a m _ hacc e hlog hclock
    constructor
    · intro b; rw [hlog b, List.mem_append, List.mem_singleton]
    · have htouch : touchesIn s.models a = m.touches a := by
        unfold touchesIn; rw [hacc.model]; rfl
      rw [hclock]
      unfold clockAfter
      rw [List.foldl_cons, List.foldl_nil, htouch]
  cases hstep with
  | stay hnone =>
    rw [acceptedOf_eq_nil hnone, List.append_nil]
    exact ⟨Or.inl fun b => Iff.rfl, rfl⟩
  | created sp hnew hnone =>
    rw [acceptedOf_eq_nil fun io a hev _ => (hnone io a hev).2, entryFor_of_none hnew]
    exact ⟨Or.inr rfl, rfl⟩
  | @accepted io a m hd hacc =>
    subst hd
    rw [acceptedOf_accepted hacc]
    obtain ⟨hlog, hclock⟩ := haccept a m rfl hacc (s.settled a m) (fun b => mem_settled_log)
      (clock_settled s a m)
    rcases View.finish_cases { s.view a.docId with entry := some (s.settled a m) } io a rfl with
      ⟨hentry, -⟩ | ⟨-, hentry, -⟩
    · rw [hentry]; exact ⟨Or.inl hlog, hclock⟩
    · rw [hentry]; exact ⟨Or.inr rfl, hclock⟩
  | @stuck io a m hd hacc _ =>
    subst hd
    rw [acceptedOf_accepted hacc]
    obtain ⟨hlog, hclock⟩ := haccept a m rfl hacc (appended (s.entryFor a.docId) m a)
      (fun b => by rw [log_appended, List.mem_append, List.mem_singleton])
      (clock_appended (s.entryFor a.docId) m a)
    exact ⟨Or.inl hlog, hclock⟩
  | snapshot io =>
    have hnone : acceptedOf d s (.snapshot io d) = [] := rfl
    rw [hnone, List.append_nil]
    cases he : s.entries[d]? with
    | none =>
      rw [(s.view d).snapshot_of_none he, show (s.view d).entry = none from he, Inner.entryFor, he]
      exact ⟨Or.inr rfl, rfl⟩
    | some e =>
      rw [entryFor_eq he]
      rcases (s.view d).snapshot_cases io (show (s.view d).entry = some e from he) with
        ⟨hentry, -⟩ | ⟨-, hsnap⟩
      · rw [hentry]; exact ⟨Or.inl fun b => Iff.rfl, rfl⟩
      · rw [hsnap]; exact ⟨Or.inr rfl, rfl⟩
  | adopted hd => exact absurd hd (hno _ rfl)

/-! ## The network -/

/-- The nodes and, for the proofs, what their snapshots have folded in and every action of the
    document that some node has accepted. -/
structure Net (N : Type) where
  node : N → Inner
  folded : N → List Action
  archive : List Action

section Network

variable {N : Type} [DecidableEq N] (d : DocId)

/-- One node executes an event. -/
def Net.exec (net : Net N) (n : N) (ev : Event) : Net N where
  node := Function.update net.node n ((net.node n).exec ev)
  folded := Function.update net.folded n (foldedStep d (net.node n) (net.folded n) ev)
  archive := net.archive ++ acceptedOf d (net.node n) ev

/-- What node `n` has: in its log, or folded into its snapshot. -/
def Net.Has (net : Net N) (n : N) (b : Action) : Prop :=
  b ∈ net.folded n ++ ((net.node n).entryFor d).log

/-- The node made the action just now: its clock is the document's, one tick on (and the counter
    has not run out). -/
def MadeHere (s : Inner) (a : Action) : Prop :=
  a.origin = s.origin ∧ a.clock = (s.clockOf d).tick s.origin ∧
    ((s.clockOf d).get s.origin).val + 1 < 2 ^ 64

/-- The event of an honest node in a causal run.  An action of `d` that it accepts reduces to at
    least one op; it made the action just now, or got it from the network AFTER every action that
    the action's clock covers.  `d` is not adopted. -/
structure Causally (net : Net N) (n : N) (ev : Event) : Prop where
  enabled : ev.Enabled (net.node n)
  noAdoption : ∀ st, ev = .adoptState st → st.doc.id ≠ d
  touches : ∀ a ∈ acceptedOf d (net.node n) ev, touchesIn (net.node n).models a = true
  causal : ∀ a ∈ acceptedOf d (net.node n) ev, MadeHere d (net.node n) a ∨
    (a ∈ net.archive ∧ ∀ b ∈ net.archive, b.clock.get b.origin ≤ a.clock.get b.origin →
      net.Has d n b ∨ b = a)

/-- The network starts with fresh stores. -/
def Net.start (key : N → SigningKey) (origin : N → Origin) (extra : N → List Model) : Net N where
  node := fun n => Store.fresh (key n) (origin n) (extra n)
  folded := fun _ => []
  archive := []

/-- Runs of the network, each step of which meets the condition. -/
inductive CausalRun (key : N → SigningKey) (origin : N → Origin) (extra : N → List Model) :
    Net N → Prop
  | start : CausalRun key origin extra (Net.start key origin extra)
  | step {net : Net N} {n : N} {ev : Event} (h : CausalRun key origin extra net)
    (hc : Causally d net n ev) : CausalRun key origin extra (net.exec d n ev)

/-- What holds in every state of a causal run. -/
structure NetInv (origin : N → Origin) (net : Net N) : Prop where
  origins : ∀ n, (net.node n).origin = origin n
  archived : ∀ n b, net.Has d n b → b ∈ net.archive
  /-- A clock covers what its node has. -/
  covers : ∀ n b, net.Has d n b → ((net.node n).clockOf d).covers b.clock = true
  noHole : ∀ n, Lib.NoHole actionStamping {b | b ∈ net.archive} {b | net.Has d n b}
    ((net.node n).clockOf d).get
  /-- Nobody is ahead of a node at its own origin. -/
  ahead : ∀ n m, ((net.node m).clockOf d).get (origin n) ≤ ((net.node n).clockOf d).get (origin n)
  aheadOf : ∀ n, ∀ b ∈ net.archive, b.clock.get (origin n) ≤ ((net.node n).clockOf d).get (origin n)

variable {d} {key : N → SigningKey} {origin : N → Origin} {extra : N → List Model} {net : Net N}
  {n : N} {ev : Event}

theorem netInv_start : NetInv d origin (Net.start key origin extra) := by
  have hfor : ∀ n, (Store.fresh (key n) (origin n) (extra n)).entryFor d = Entry.new d :=
    fun n => entryFor_of_none (congrArg View.entry (Store.fresh_view ..))
  have hclock : ∀ n, ((Net.start key origin extra).node n).clockOf d = VecClock.empty := by
    intro n
    show ((Store.fresh (key n) (origin n) (extra n)).entryFor d).clock = _
    rw [hfor]
    rfl
  have hhas : ∀ n b, ¬ (Net.start key origin extra).Has d n b := by
    intro n b hb
    have hb : b ∈ [] ++ ((Store.fresh (key n) (origin n) (extra n)).entryFor d).log := hb
    rw [hfor] at hb
    exact absurd hb List.not_mem_nil
  refine ⟨fun n => Store.fresh_origin .., fun n b hb => absurd hb (hhas n b),
    fun n b hb => absurd hb (hhas n b), fun n b hb => absurd hb List.not_mem_nil, ?_,
    fun n b hb => absurd hb List.not_mem_nil⟩
  intro n m
  rw [hclock, hclock]

/-! ## One step -/

/-- The acting node. -/
theorem Net.exec_self (net : Net N) (n : N) (ev : Event) :
    (net.exec d n ev).node n = (net.node n).exec ev := Function.update_self ..

/-- Any other node. -/
theorem Net.exec_other (net : Net N) {n m : N} (ev : Event) (h : m ≠ n) :
    (net.exec d n ev).node m = net.node m ∧
      ∀ b, (net.exec d n ev).Has d m b ↔ net.Has d m b := by
  have hnode : (net.exec d n ev).node m = net.node m := Function.update_of_ne h _ _
  refine ⟨hnode, fun b => ?_⟩
  unfold Net.Has
  rw [hnode, show (net.exec d n ev).folded m = net.folded m from Function.update_of_ne h _ _]

theorem Net.has_exec_self (hc : Causally d net n ev) (b : Action) :
    (net.exec d n ev).Has d n b ↔ net.Has d n b ∨ b ∈ acceptedOf d (net.node n) ev := by
  have h := (possession_exec (F := net.folded n) hc.enabled hc.noAdoption).1 b
  unfold Net.Has
  rw [net.exec_self, show (net.exec d n ev).folded n = foldedStep d (net.node n) (net.folded n) ev
    from Function.update_self ..]
  exact h

/-- The event accepts nothing, or one action whose clock the node joins. -/
theorem acceptedOf_cases (d : DocId) (s : Inner) (ev : Event) :
    acceptedOf d s ev = [] ∨ ∃ a, acceptedOf d s ev = [a] := by
  cases ev with
  | applyAction io a =>
    show (if a.docId = d ∧ s.accepts a = true then [a] else []) = [] ∨
      ∃ a', (if a.docId = d ∧ s.accepts a = true then [a] else []) = [a']
    split
    · exact Or.inr ⟨a, rfl⟩
    · exact Or.inl rfl
  | _ => exact Or.inl rfl

theorem Net.clock_exec_self (hc : Causally d net n ev) :
    ((net.exec d n ev).node n).clockOf d =
      clockAfter (net.node n).models ((net.node n).clockOf d) (acceptedOf d (net.node n) ev) := by
  rw [net.exec_self]
  exact (possession_exec (F := net.folded n) hc.enabled hc.noAdoption).2

theorem NetInv.origin_exec (h : NetInv d origin net) (n m : N) (ev : Event) :
    ((net.exec d n ev).node m).origin = origin m := by
  by_cases hm : m = n
  · rw [hm, net.exec_self, Inner.origin_exec]
    exact h.origins n
  · rw [(net.exec_other (d := d) ev hm).1]
    exact h.origins m

/-- A step that accepts nothing. -/
theorem netInv_quiet (hc : Causally d net n ev) (hnone : acceptedOf d (net.node n) ev = [])
    (h : NetInv d origin net) : NetInv d origin (net.exec d n ev) := by
  have hclock : ∀ m, ((net.exec d n ev).node m).clockOf d = (net.node m).clockOf d := by
    intro m
    by_cases hm : m = n
    · rw [hm, Net.clock_exec_self hc, hnone]; rfl
    · rw [(net.exec_other (d := d) ev hm).1]
  have hhas : ∀ m b, (net.exec d n ev).Has d m b ↔ net.Has d m b := by
    intro m b
    by_cases hm : m = n
    · rw [hm, Net.has_exec_self hc, hnone]
      exact ⟨fun h => h.resolve_right List.not_mem_nil, Or.inl⟩
    · exact (net.exec_other ev hm).2 b
  have harch : (net.exec d n ev).archive = net.archive := by
    show net.archive ++ acceptedOf d (net.node n) ev = net.archive
    rw [hnone, List.append_nil]
  refine ⟨fun m => h.origin_exec n m ev, ?_, ?_, ?_, ?_, ?_⟩
  · intro m b hb; rw [harch]; exact h.archived m b ((hhas m b).mp hb)
  · intro m b hb; rw [hclock]; exact h.covers m b ((hhas m b).mp hb)
  · intro m b hb hle
    rw [hclock] at hle
    exact (hhas m b).mpr (h.noHole m b (harch ▸ hb) hle)
  · intro m m'; rw [hclock, hclock]; exact h.ahead m m'
  · intro m b hb; rw [hclock]; exact h.aheadOf m b (harch ▸ hb)

/-- The counter an action made here has at its own origin is new. -/
theorem MadeHere.lt {s : Inner} {a : Action} (h : MadeHere d s a) :
    (s.clockOf d).get s.origin < a.clock.get a.origin := by
  obtain ⟨ho, hclock, hroom⟩ := h
  rw [ho, hclock, VecClock.get_tick, if_pos rfl, Fin.lt_def, Fin.val_add_one_of_lt']
  · omega
  · exact hroom

/-- Elsewhere it is what the node has. -/
theorem MadeHere.get_of_ne {s : Inner} {a : Action} (h : MadeHere d s a) {o : Origin}
    (ho : o ≠ s.origin) : a.clock.get o = (s.clockOf d).get o := by
  rw [h.2.1, VecClock.get_tick, if_neg ho]

/-! The step that accepts an action `a`, piece by piece. -/

section Accept

variable {a : Action}

theorem mem_accept (hacc : acceptedOf d (net.node n) ev = [a]) :
    a ∈ acceptedOf d (net.node n) ev := by
  rw [hacc]
  exact List.mem_singleton_self a

theorem Net.clock_accept (hc : Causally d net n ev) (hacc : acceptedOf d (net.node n) ev = [a]) :
    ((net.exec d n ev).node n).clockOf d = ((net.node n).clockOf d).merge a.clock := by
  have ha := mem_accept hacc
  rw [Net.clock_exec_self hc, hacc]
  unfold clockAfter
  rw [List.foldl_cons, List.foldl_nil, hc.touches a ha, if_pos rfl]

theorem Net.clock_other (net : Net N) {n m : N} (ev : Event) (hm : m ≠ n) :
    ((net.exec d n ev).node m).clockOf d = (net.node m).clockOf d := by
  rw [(net.exec_other (d := d) ev hm).1]

theorem Net.has_accept (hc : Causally d net n ev) (hacc : acceptedOf d (net.node n) ev = [a])
    (b : Action) : (net.exec d n ev).Has d n b ↔ net.Has d n b ∨ b = a := by
  rw [Net.has_exec_self hc, hacc, List.mem_singleton]

theorem Net.archive_accept (hacc : acceptedOf d (net.node n) ev = [a]) :
    {b | b ∈ (net.exec d n ev).archive} = insert a {b | b ∈ net.archive} := by
  ext b
  show b ∈ net.archive ++ acceptedOf d (net.node n) ev ↔ _
  rw [hacc, List.mem_append, List.mem_singleton, Set.mem_insert_iff, or_comm]
  rfl

/-- No clock goes back. -/
theorem Net.clock_mono (hc : Causally d net n ev) (hacc : acceptedOf d (net.node n) ev = [a])
    (m : N) (o : Origin) : ((net.node m).clockOf d).get o ≤
      (((net.exec d n ev).node m).clockOf d).get o := by
  by_cases hm : m = n
  · rw [hm, Net.clock_accept hc hacc, VecClock.get_merge]; exact le_max_left _ _
  · rw [net.clock_other ev hm]

/-- Nobody is behind the accepted action at its own origin. -/
theorem NetInv.ahead_accept (hinj : Function.Injective origin) (hc : Causally d net n ev)
    (hacc : acceptedOf d (net.node n) ev = [a]) (h : NetInv d origin net) (m : N) :
    a.clock.get (origin m) ≤ (((net.exec d n ev).node m).clockOf d).get (origin m) := by
  have ha := mem_accept hacc
  by_cases hm : m = n
  · rw [hm, Net.clock_accept hc hacc, VecClock.get_merge]; exact le_max_right _ _
  · rcases hc.causal a ha with hmade | ⟨harchived, -⟩
    · have hne : origin m ≠ (net.node n).origin := by
        rw [h.origins n]
        exact fun heq => hm (hinj heq)
      rw [hmade.get_of_ne hne]
      exact (h.ahead m n).trans (Net.clock_mono hc hacc m _)
    · exact (h.aheadOf m a harchived).trans (Net.clock_mono hc hacc m _)

/-- The node that accepts has everything the action covers. -/
theorem NetInv.noHole_accept_self (hc : Causally d net n ev)
    (hacc : acceptedOf d (net.node n) ev = [a]) (h : NetInv d origin net) :
    Lib.NoHole actionStamping (insert a {b | b ∈ net.archive})
      {b | (net.exec d n ev).Has d n b} (((net.exec d n ev).node n).clockOf d).get := by
  have ha := mem_accept hacc
  have hhas := Net.has_accept hc hacc
  refine Lib.NoHole.archive_held (Lib.NoHole.deliver (p := a) (h.noHole n) ?_
    (fun b hb => (hhas b).mpr hb) fun o => ?_) ((hhas a).mpr (Or.inr rfl))
  · intro b hb hle
    rcases hc.causal a ha with hmade | ⟨-, hbefore⟩
    · -- the node holds whatever its own clock covers, and nobody is ahead of it at its origin
      refine Or.inl (h.noHole n b hb ?_)
      have hle : b.clock.get b.origin ≤ a.clock.get b.origin := hle
      show b.clock.get b.origin ≤ ((net.node n).clockOf d).get b.origin
      by_cases ho : b.origin = (net.node n).origin
      · rw [ho, h.origins n]
        exact h.aheadOf n b hb
      · rwa [hmade.get_of_ne ho] at hle
    · exact hbefore b hb hle
  · rw [Net.clock_accept hc hacc, VecClock.get_merge]
    exact le_rfl

/-- Any other node does not cover the action, or it was there already. -/
theorem NetInv.noHole_accept_other (hc : Causally d net n ev)
    (hacc : acceptedOf d (net.node n) ev = [a]) (h : NetInv d origin net) {m : N} (hm : m ≠ n) :
    Lib.NoHole actionStamping (insert a {b | b ∈ net.archive})
      {b | (net.exec d n ev).Has d m b} (((net.exec d n ev).node m).clockOf d).get := by
  have ha := mem_accept hacc
  have hkeep : Lib.NoHole actionStamping {b | b ∈ net.archive}
      {b | (net.exec d n ev).Has d m b} (((net.exec d n ev).node m).clockOf d).get := by
    rw [net.clock_other ev hm]
    exact fun b hb hle => ((net.exec_other ev hm).2 b).mpr (h.noHole m b hb hle)
  rcases hc.causal a ha with hmade | ⟨harchived, -⟩
  · -- a new counter, above anything the other node has seen
    refine hkeep.issue ?_
    show (((net.exec d n ev).node m).clockOf d).get a.origin < a.clock.get a.origin
    rw [net.clock_other ev hm]
    refine lt_of_le_of_lt ?_ hmade.lt
    rw [hmade.1, h.origins n]
    exact h.ahead n m
  · rw [Set.insert_eq_of_mem (show a ∈ {b | b ∈ net.archive} from harchived)]
    exact hkeep

/-- **A step that accepts an action.** -/
theorem netInv_accept (hinj : Function.Injective origin) (hc : Causally d net n ev)
    (hacc : acceptedOf d (net.node n) ev = [a]) (h : NetInv d origin net) :
    NetInv d origin (net.exec d n ev) := by
  have hself := Net.clock_accept hc hacc
  have hhas := Net.has_accept hc hacc
  have harch := Net.archive_accept hacc
  have hmono := Net.clock_mono hc hacc
  have hahead := h.ahead_accept hinj hc hacc
  refine ⟨fun m => h.origin_exec n m ev, ?_, ?_, ?_, ?_, ?_⟩
  · intro m b hb
    show b ∈ {b | b ∈ (net.exec d n ev).archive}
    rw [harch, Set.mem_insert_iff]
    by_cases hm : m = n
    · subst hm
      rcases (hhas b).mp hb with hb | hb
      · exact Or.inr (h.archived m b hb)
      · exact Or.inl hb
    · exact Or.inr (h.archived m b (((net.exec_other ev hm).2 b).mp hb))
  · intro m b hb
    by_cases hm : m = n
    · subst hm
      rw [hself]
      rcases (hhas b).mp hb with hb | rfl
      · exact VecClock.covers_trans (VecClock.covers_merge_left _ _) (h.covers m b hb)
      · exact VecClock.covers_merge_right _ _
    · rw [net.clock_other ev hm]
      exact h.covers m b (((net.exec_other ev hm).2 b).mp hb)
  · intro m
    rw [harch]
    by_cases hm : m = n
    · rw [hm]
      exact h.noHole_accept_self hc hacc
    · exact h.noHole_accept_other hc hacc hm
  · intro m m'
    by_cases hm : m' = n
    · subst hm
      rw [hself, VecClock.get_merge]
      exact max_le ((h.ahead m m').trans (hmono m _)) (hahead m)
    · rw [net.clock_other ev hm]
      exact (h.ahead m m').trans (hmono m _)
  · intro m b hb
    have hb : b ∈ {b | b ∈ (net.exec d n ev).archive} := hb
    rw [harch, Set.mem_insert_iff] at hb
    rcases hb with rfl | hb
    · exact hahead m
    · exact (h.aheadOf m b hb).trans (hmono m _)

end Accept

/-- **Run lemma** for the network. -/
theorem netInv_run (hinj : Function.Injective origin) (h : CausalRun d key origin extra net) :
    NetInv d origin net := by
  induction h with
  | start => exact netInv_start
  | @step net n ev _ hc ih =>
    rcases acceptedOf_cases d (net.node n) ev with hnone | ⟨a, ha⟩
    · exact netInv_quiet hc hnone ih
    · exact netInv_accept hinj hc ha ih

/-- **Clock coverage means possession**, in every state of a causal run of the network: if `A`'s
    clock covers `B`'s, every action in `B`'s live log is in `A`'s log or folded into `A`'s
    snapshot.  And an action of `B`'s log that `A` lacks is not covered by `A`'s clock, and `B`'s
    catch-up sends it. -/
theorem coverage_means_possession (hinj : Function.Injective origin)
    (hrun : CausalRun d key origin extra net) (A B : N) :
    (((net.node A).clockOf d).covers ((net.node B).clockOf d) = true →
      ∀ b ∈ ((net.node B).entryFor d).log,
        b ∈ ((net.node A).entryFor d).log ∨ b ∈ net.folded A) ∧
    ∀ b ∈ ((net.node B).entryFor d).log,
      b ∉ ((net.node A).entryFor d).log → b ∉ net.folded A →
      ((net.node A).clockOf d).covers ((net.node B).clockOf d) = false ∧
        b ∈ (Store.catchUp (net.node B) d ((net.node A).clockOf d)).2 := by
  have hinv := netInv_run hinj hrun
  have hpossess : ∀ b ∈ ((net.node B).entryFor d).log,
      ((net.node A).clockOf d).covers b.clock = true →
      b ∈ ((net.node A).entryFor d).log ∨ b ∈ net.folded A := by
    intro b hb hcov
    have hB : net.Has d B b := List.mem_append_right _ hb
    have hA : net.Has d A b :=
      (hinv.noHole A).mem_of_covers (hinv.archived B b hB) (VecClock.covers_iff.mp hcov)
    exact (List.mem_append.mp hA).symm
  have hcovers : ∀ b ∈ ((net.node B).entryFor d).log,
      ((net.node B).clockOf d).covers b.clock = true :=
    fun b hb => hinv.covers B b (List.mem_append_right _ hb)
  constructor
  · intro hcov b hb
    exact hpossess b hb (VecClock.covers_trans hcov (hcovers b hb))
  · intro b hb hlog hfolded
    have hgap : ¬ ((net.node A).clockOf d).covers b.clock = true := by
      intro hcov
      rcases hpossess b hb hcov with hA | hA
      · exact hlog hA
      · exact hfolded hA
    refine ⟨Bool.eq_false_iff.mpr fun hcov => hgap (VecClock.covers_trans hcov (hcovers b hb)), ?_⟩
    rw [catchUp_actions, List.mem_filter, Bool.not_eq_true']
    exact ⟨hb, Bool.eq_false_iff.mpr hgap⟩

end Network

end

section

open Sample

attribute [local instance] Sample.primitives

/-- Bob's node creates a document and sets a field: two actions, with the counters 1 and 2. -/
def authorStore : Inner :=
  let s := (Store.createDoc (Store.fresh bob.key bob.name []) Io.ok (fun _ => 10) docId "notes" ∅).1
  (Store.updateField s Io.ok 11 "notes" "title" (.string "x")).1

/-- Alice's node knows bob, and only the second action reaches it. -/
def lateStore : Inner :=
  (Store.fresh alice.key alice.name []).execAll
    (pins [bob] ++ deliver (authorStore.outbound.drop 1))

/-- Alice's clock covers bob's, although his first action is neither in her log nor in a snapshot;
    and his catch-up has nothing to send. -/
theorem hidden_gap :
    (lateStore.clockOf docId).covers (authorStore.clockOf docId) = true ∧
      (∃ b ∈ (authorStore.entryFor docId).log, b ∉ (lateStore.entryFor docId).log) ∧
      (lateStore.entryFor docId).log ≠ [] ∧ lateStore.disk.snap[docId]?.isNone = true ∧
      (Store.catchUp authorStore docId (lateStore.clockOf docId)).2 = [] := by
  decide +kernel

/-- Alice and bob. -/
def pairStart : Net Bool :=
  Net.start (fun n => if n then alice.key else bob.key)
    (fun n => if n then alice.name else bob.name) fun _ => []

/-- Bob pins alice's key, alice makes the group's `init`, and it reaches bob. -/
def pairEvents : List (Bool × Event) :=
  [(false, .registerPeerKey alice.name alice.key), (true, .applyAction Io.ok groupInit),
   (false, .applyAction Io.ok groupInit)]

def pairNet : Net Bool := pairEvents.foldl (fun net p => net.exec docId p.1 p.2) pairStart

theorem mem_acceptedOf {d : DocId} {s : Inner} {io : Io} {a b : Action}
    (h : a ∈ acceptedOf d s (.applyAction io b)) : a = b := by
  have h : a ∈ if b.docId = d ∧ s.accepts b = true then [b] else [] := h
  split at h
  · exact List.mem_singleton.mp h
  · exact absurd h List.not_mem_nil

theorem coverage_means_possession_delivered :
    ((pairNet.node false).clockOf docId).covers ((pairNet.node true).clockOf docId) = true ∧
      groupInit ∈ ((pairNet.node true).entryFor docId).log ∧
      (groupInit ∈ ((pairNet.node false).entryFor docId).log ∨
        groupInit ∈ pairNet.folded false) := by
  have hfacts : ((pairNet.node false).clockOf docId).covers ((pairNet.node true).clockOf docId) =
        true ∧
      groupInit ∈ ((pairNet.node true).entryFor docId).log := by
    decide +kernel
  have hmodels : ∀ n, touchesIn (pairStart.node n).models groupInit = true := by decide +kernel
  have harchive : ((pairStart.exec docId false (.registerPeerKey alice.name alice.key)).exec docId
      true (.applyAction Io.ok groupInit)).archive = [groupInit] := by decide +kernel
  have hmade : MadeHere docId (pairStart.node true) groupInit := by
    refine ⟨rfl, ?_, ?_⟩ <;> decide +kernel
  have hinj : Function.Injective fun n : Bool => if n then alice.name else bob.name := by
    unfold Function.Injective
    decide
  have hrun : CausalRun docId (fun n => if n then alice.key else bob.key)
      (fun n => if n then alice.name else bob.name) (fun _ => []) pairNet := by
    refine .step (.step (.step .start ⟨trivial, ?_, ?_, ?_⟩) ⟨trivial, ?_, ?_, ?_⟩)
      ⟨trivial, ?_, ?_, ?_⟩
    · exact fun st h => by cases h
    · exact fun a ha => absurd ha List.not_mem_nil
    · exact fun a ha => absurd ha List.not_mem_nil
    · exact fun st h => by cases h
    · intro a ha
      rw [mem_acceptedOf ha]
      exact hmodels true
    · intro a ha
      rw [mem_acceptedOf ha]
      exact Or.inl hmade
    · exact fun st h => by cases h
    · intro a ha
      rw [mem_acceptedOf ha]
      exact hmodels false
    · intro a ha
      rw [mem_acceptedOf ha]
      refine Or.inr ⟨?_, fun b hb _ => Or.inr ?_⟩
      · rw [harchive]; exact List.mem_singleton_self _
      · rw [harchive] at hb; exact List.mem_singleton.mp hb
  exact ⟨hfacts.1, hfacts.2,
    (coverage_means_possession hinj hrun false true).1 hfacts.1 groupInit hfacts.2⟩

end

end PhReactor
