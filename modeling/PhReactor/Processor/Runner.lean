/-
  The processor engine: the loop around the reactions (`src/processor.rs`).

  The loop takes the next change of the feed or the next command of the API, and is done with it
  before it looks again.  All the while the daemon works on the store, the API sends commands, and
  the daemon may be killed.  `step` is the loop and what surrounds it, `Note` what is seen of it.

  1. `processors.json` is written whole after every command and read at every start, so the specs
     of a start are those of the last write.  What the specs ARE needs no list: a finite table of
     names (`Registry`), where a spec that is replaced keeps the time of its creation.  The list is
     that table, sorted (`Kept`, `specs_are_kept`).

  2. A change goes to the specs as they are when it is taken: a command that arrives later, also
     while the reactions run, waits.  So the changes of the feed are taken in order, none twice and
     none left out, each fires the specs that match it and were there, and the API shows the last
     fifty of each (`every_change_fires_once`).
-/
import PhReactor.Lib.Keyed
import PhReactor.Lib.Machine
import PhReactor.Lib.Newest
import PhReactor.Reactions
import PhReactor.Store.ChangeFeed

set_option linter.unusedSectionVars false

namespace PhReactor.Runner

open Lib

/-! ## Specs, and their file -/

/-- A persisted, user-configurable processor. -/
structure StoredSpec extends ProcessorSpec where
  /-- Milliseconds since the epoch, when the spec was created. -/
  created : U64

/-- Commands the API sends to the running processor engine. -/
inductive RunnerCmd where
  /-- Add or replace a spec by name. -/
  | set (spec : StoredSpec)
  | remove (name : String)

/-- `processors.json`. -/
inductive SpecsFile where
  | missing
  /-- A part of a text, or no text at all. -/
  | malformed
  | holds (specs : List StoredSpec)

/-- A missing or malformed file is an empty list. -/
def loadSpecs : SpecsFile → List StoredSpec
  | .holds specs => specs
  | _ => []

/-- Best-effort. -/
def saveSpecs (w : FileWrite) (file : SpecsFile) (specs : List StoredSpec) : SpecsFile :=
  match w with
  | .ok => .holds specs
  | .failed => file
  | .torn => .malformed

/-- The reference subscription: pay an invoice when it is accepted. -/
def referenceSpec (now : U64) : StoredSpec where
  name := "pay-on-invoice-accepted"
  models := ["invoice"]
  actionKind := some "set-status"
  field := some "status"
  value := some (.string "accepted")
  reaction := .run "echo 'ph-reactor: invoice $PH_DOC accepted - payment due'"
  created := now

/-- The file of a start: on the first one the reference subscription is seeded. -/
def seeded (w : FileWrite) (now : U64) : SpecsFile → SpecsFile
  | .missing => saveSpecs w .missing [referenceSpec now]
  | file => file

abbrev specName (s : StoredSpec) : String := s.name

/-- Specs are kept by age. -/
def rank (s : StoredSpec) : U64 ×ₗ String := toLex (s.created, s.name)

def setSpec (specs : List StoredSpec) (spec : StoredSpec) : List StoredSpec :=
  let specs :=
    match entry specName specs spec.name with
    -- preserve the original creation time on an in-place update
    | some p => replaceFirst specName spec.name (fun _ => { spec with created := p.created }) specs
    | none => specs ++ [spec]
  specs.mergeSort fun a b => decide (rank a ≤ rank b)

def removeSpec (specs : List StoredSpec) (name : String) : List StoredSpec :=
  specs.filter fun s => decide (specName s ≠ name)

def RunnerCmd.apply (specs : List StoredSpec) : RunnerCmd → List StoredSpec
  | .set spec => setSpec specs spec
  | .remove name => removeSpec specs name

/-! ## Fires -/

/-- Which processor, and at which change. -/
structure Trigger where
  spec : String
  doc : String
  model : String
  /-- The action kind that triggered the fire, if any. -/
  action : Option String
  deriving DecidableEq

/-- A record of a processor firing. -/
structure Fire extends Trigger where
  detail : String
  ts : U64

def historyCap : ℕ := 50

/-- Record a fire; the oldest one goes. -/
def pushFire (history : Std.ExtTreeMap String (List Fire)) (fire : Fire) :
    Std.ExtTreeMap String (List Fire) :=
  let d := history[fire.spec]?.getD [] ++ [fire]
  history.insert fire.spec (if d.length > historyCap then d.tail else d)

/-- How a command ends. -/
inductive Exit where
  | exited (status : String)
  /-- There is no `sh`. -/
  | failed (e : String)
  | timedOut

def Exit.report (cmd : String) : Exit → String
  | .exited status => "ran: " ++ cmd ++ " (exit " ++ status ++ ")"
  | .failed e => "run failed: " ++ cmd ++ " (" ++ e ++ ")"
  | .timedOut => "run timed out: " ++ cmd

section

variable [Primitives]

/-- Run one spec's reaction: the store after it, and a one-line summary. -/
def react (s : Inner) (draw : Draw) (exit : Exit) (spec : ProcessorSpec) (change : DocChange) :
    Inner × String :=
  match perform s spec change with
  | .log message => (s, message)
  | .emit event => (s, event)
  | .run cmd _ _ => (s, exit.report cmd)
  | .skipped name => (s, "doc '" ++ name ++ "' already exists (skipped)")
  | .create name model payload =>
    let r := Store.createDocModel s draw name model payload
    (r.1,
      match r.2 with
      | .ok _ => "created '" ++ name ++ "'"
      | .error e => "create '" ++ name ++ "' failed: " ++ e)

/-- What a reaction does to the store is the dispatch at its turn. -/
theorem react_fst {s : Inner} {spec : ProcessorSpec} {change : DocChange}
    (h : spec.filter.matches change = true) (draw : Draw) (exit : Exit) :
    (react s draw exit spec change).1 = s.dispatchTo draw spec change := by
  unfold react Inner.dispatchTo
  rw [if_pos h]
  cases perform s spec change <;> rfl

/-! ## The loop -/

/-- The engine, the store it works on, and its file. -/
structure State where
  store : Inner
  file : SpecsFile
  specs : List StoredSpec
  history : Std.ExtTreeMap String (List Fire)
  /-- The commands that wait. -/
  commands : List RunnerCmd
  /-- Its place among the subscribers, and how many changes it has taken. -/
  slot : ℕ
  taken : ℕ
  /-- The change at hand, and the specs it has still to meet. -/
  dispatching : Option (DocChange × List StoredSpec)

/-- What it has been sent. -/
def State.feed (s : State) : List DocChange := s.store.subscribers[s.slot]?.getD []

/-- A new engine; it subscribes in its constructor. -/
def start (store : Inner) (file : SpecsFile) (now : U64) (w : FileWrite) : State where
  store := Store.subscribeChanges store
  file := seeded w now file
  specs := loadSpecs (seeded w now file)
  history := ∅
  commands := []
  slot := store.subscribers.length
  taken := 0
  dispatching := none

inductive Input where
  /-- Anything else that is done with the store. -/
  | call (c : Call)
  /-- The API sends a command. -/
  | send (cmd : RunnerCmd)
  /-- The loop takes a change. -/
  | take
  /-- The change meets the next spec. -/
  | react (draw : Draw) (exit : Exit) (now : U64)
  /-- The loop takes a command. -/
  | handle (w : FileWrite)
  /-- The daemon ends, wherever it is, and is started again. -/
  | restart (extra : List Model) (now : U64) (w : FileWrite)

inductive Note where
  | sent (cmd : RunnerCmd)
  | took (change : DocChange)
  | fired (fire : Fire)
  | handled (cmd : RunnerCmd) (w : FileWrite)
  | started (now : U64) (w : FileWrite)

/-- The trigger of a spec at a change. -/
def trigger (spec : StoredSpec) (change : DocChange) : Trigger :=
  ⟨spec.name, change.name, change.model.name, change.actionKind⟩

/-- The change meets a spec. -/
def meet (s : State) (draw : Draw) (exit : Exit) (now : U64) (change : DocChange)
    (spec : StoredSpec) (rest : List StoredSpec) : State × List Note :=
  if spec.filter.matches change then
    let r := react s.store draw exit spec.toProcessorSpec change
    let fire : Fire := ⟨trigger spec change, r.2, now⟩
    ({ s with
        store := r.1
        history := pushFire s.history fire
        dispatching := some (change, rest) }, [.fired fire])
  else ({ s with dispatching := some (change, rest) }, [])

def step (s : State) : Input → State × List Note
  | .call c => ({ s with store := c.exec s.store }, [])
  | .send cmd => ({ s with commands := s.commands ++ [cmd] }, [.sent cmd])
  | .take =>
    match s.dispatching, s.feed[s.taken]? with
    | none, some change =>
      ({ s with taken := s.taken + 1, dispatching := some (change, s.specs) }, [.took change])
    | _, _ => (s, [])
  | .react draw exit now =>
    match s.dispatching with
    | none => (s, [])
    | some (_, []) => ({ s with dispatching := none }, [])
    | some (change, spec :: rest) => meet s draw exit now change spec rest
  | .handle w =>
    match s.dispatching, s.commands with
    | none, cmd :: commands =>
      ({ s with
          specs := cmd.apply s.specs
          commands
          file := saveSpecs w s.file (cmd.apply s.specs) }, [.handled cmd w])
    | _, _ => (s, [])
  | .restart extra now w =>
    (start (s.store.happen (.reopen extra)) s.file now w, [.started now w])

def machine : Machine State Input Note := ⟨step⟩

/-- What is seen of a run. -/
def trace (s : State) (ins : List Input) : List Note := (machine.outputs s ins).flatten

/-- `ProcessorHandle::specs`: newest first. -/
def State.shownSpecs (s : State) : List StoredSpec := s.specs.reverse

/-- `ProcessorHandle::fires`: newest first. -/
def State.fires (s : State) (name : String) : List Fire := (s.history[name]?.getD []).reverse

end

/-! ## What the specs are -/

/-- The specs by name. -/
abbrev Registry := String → Option StoredSpec

namespace Registry

def empty : Registry := fun _ => none

/-- The spec that a name has is replaced, but for the time of its creation. -/
def apply (r : Registry) : RunnerCmd → Registry
  | .set spec =>
    Function.update r spec.name (some { spec with created := ((r spec.name).getD spec).created })
  | .remove name => Function.update r name none

/-- What a write leaves of the registry on disk. -/
def written (w : FileWrite) (saved : Option Registry) (r : Registry) : Option Registry :=
  match w with
  | .ok => some r
  | .failed => saved
  | .torn => some empty

end Registry

/-- The registry in memory, and the one on disk, if there is one. -/
structure Books where
  live : Registry
  saved : Option Registry

namespace Books

/-- A start reads the disk, where the first one finds the reference subscription. -/
def restart (b : Books) (now : U64) (w : FileWrite) : Books :=
  let saved := b.saved.or
    (Registry.written w none (Registry.empty.apply (.set (referenceSpec now))))
  ⟨saved.getD .empty, saved⟩

def note (b : Books) : Note → Books
  | .handled cmd w => ⟨b.live.apply cmd, Registry.written w b.saved (b.live.apply cmd)⟩
  | .started now w => b.restart now w
  | _ => b

end Books

/-- Names are distinct, and the specs sorted by age. -/
structure Listed (specs : List StoredSpec) : Prop where
  distinct : Distinct specName specs
  sorted : specs.Pairwise fun a b => rank a ≤ rank b

/-- The file holds this registry, as a sorted list. -/
structure SpecsFile.Holds (file : SpecsFile) (saved : Option Registry) : Prop where
  missing : file = .missing ↔ saved = none
  listed : Listed (loadSpecs file)
  entry_eq : ∀ name, entry specName (loadSpecs file) name = (saved.getD .empty) name

/-- **The specs are the registry, sorted**, in memory and on disk. -/
structure Kept (s : State) (b : Books) : Prop where
  listed : Listed s.specs
  entry_eq : ∀ name, entry specName s.specs name = b.live name
  file : s.file.Holds b.saved

variable {specs : List StoredSpec} {file : SpecsFile} {saved : Option Registry} {r : Registry}
  {s : State} {b : Books}

theorem listed_nil : Listed [] := ⟨List.nodup_nil, List.Pairwise.nil⟩

theorem Listed.setSpec (h : Listed specs) (spec : StoredSpec) : Listed (setSpec specs spec) := by
  have hsort : ∀ l : List StoredSpec,
      (l.mergeSort fun a b => decide (rank a ≤ rank b)).Pairwise fun a b => rank a ≤ rank b := by
    intro l
    have hsorted := @List.pairwise_mergeSort _ (fun a b : StoredSpec => decide (rank a ≤ rank b))
      (fun a b c hab hbc => by
        simp only [decide_eq_true_eq] at hab hbc ⊢
        exact hab.trans hbc)
      (fun a b => by
        simp only [Bool.or_eq_true, decide_eq_true_eq]
        exact le_total _ _) l
    exact hsorted.imp fun hab => of_decide_eq_true hab
  refine ⟨Distinct.perm ?_ (List.mergeSort_perm _ _).symm, hsort _⟩
  cases hold : entry specName specs spec.name with
  | none => exact h.distinct.concat hold
  | some p =>
    have hname : ∀ x : StoredSpec, specName x = spec.name →
        specName { spec with created := p.created } = spec.name := fun _ _ => rfl
    exact h.distinct.replaceFirst hname

theorem entry_setSpec (h : Listed specs) (spec : StoredSpec) (name : String) :
    entry specName (setSpec specs spec) name =
      Function.update (entry specName specs) spec.name
        (some { spec with created := ((entry specName specs spec.name).getD spec).created })
        name := by
  have hdistinct := (h.setSpec spec).distinct
  unfold setSpec at hdistinct ⊢
  dsimp only at hdistinct ⊢
  rw [← entry_perm hdistinct (List.mergeSort_perm _ _)]
  cases hold : entry specName specs spec.name with
  | none =>
    dsimp only
    rw [entry_concat hold, Function.update_apply]
    rfl
  | some p =>
    have hname : ∀ x : StoredSpec, specName x = spec.name →
        specName { spec with created := p.created } = spec.name := fun _ _ => rfl
    dsimp only
    rw [entry_replaceFirst hname, hold, Function.update_apply]
    rfl

theorem Listed.apply (h : Listed specs) (cmd : RunnerCmd) : Listed (cmd.apply specs) := by
  cases cmd with
  | set spec => exact h.setSpec spec
  | remove name => exact ⟨h.distinct.filter _, h.sorted.filter _⟩

theorem entry_apply (h : Listed specs) (hr : ∀ name, entry specName specs name = r name)
    (cmd : RunnerCmd) (name : String) :
    entry specName (cmd.apply specs) name = r.apply cmd name := by
  obtain rfl : entry specName specs = r := funext hr
  cases cmd with
  | set spec => exact entry_setSpec h spec name
  | remove gone =>
    refine entry_filter_ne.trans ?_
    rw [← Function.update_apply]
    rfl

/-- A write. -/
theorem SpecsFile.Holds.save (h : file.Holds saved) (w : FileWrite) (hl : Listed specs)
    (hr : ∀ name, entry specName specs name = r name) :
    (saveSpecs w file specs).Holds (Registry.written w saved r) := by
  cases w with
  | ok => exact ⟨by simp [saveSpecs, Registry.written], hl, hr⟩
  | failed => exact h
  | torn => exact ⟨by simp [saveSpecs, Registry.written], listed_nil, fun _ => rfl⟩

/-- A start. -/
theorem kept_start [Primitives] (h : file.Holds b.saved) (store : Inner) (now : U64)
    (w : FileWrite) : Kept (start store file now w) (b.restart now w) := by
  have hseed : (seeded w now file).Holds (b.restart now w).saved := by
    unfold Books.restart
    dsimp only
    cases hsaved : b.saved with
    | none =>
      rw [hsaved] at h
      obtain rfl := h.missing.mpr rfl
      refine h.save w ⟨List.nodup_singleton _, List.pairwise_singleton _ _⟩ fun name => ?_
      refine entry_cons.trans ?_
      show _ = Function.update (fun _ => none) (referenceSpec now).name
        (some (referenceSpec now)) name
      rw [Function.update_apply]
      simp [eq_comm]
    | some r =>
      have hthere : file ≠ .missing := fun hmissing => by
        have hnone := h.missing.mp hmissing
        rw [hsaved] at hnone
        exact absurd hnone (by simp)
      have hsame : seeded w now file = file := by
        cases file with
        | missing => exact absurd rfl hthere
        | malformed => rfl
        | holds specs => rfl
      rw [hsame]
      rw [hsaved] at h
      exact h
  exact ⟨hseed.listed, hseed.entry_eq, hseed⟩

section

variable [Primitives]

theorem trace_concat (s : State) (ins : List Input) (i : Input) :
    trace s (ins ++ [i]) = trace s ins ++ (step (machine.run s ins) i).2 := by
  unfold trace
  rw [Machine.outputs_concat, List.flatten_concat]
  rfl

/-- Two states with the same specs and file. -/
theorem Kept.congr (h : Kept s b) {t : State} (hspecs : t.specs = s.specs)
    (hfile : t.file = s.file) : Kept t b := by
  refine ⟨?_, ?_, ?_⟩
  · rw [hspecs]
    exact h.listed
  · rw [hspecs]
    exact h.entry_eq
  · rw [hfile]
    exact h.file

/-- **One step** of the loop, as the books have it. -/
theorem Kept.step (h : Kept s b) (i : Input) :
    Kept (step s i).1 ((step s i).2.foldl Books.note b) := by
  cases i with
  | call c => exact h.congr rfl rfl
  | send cmd => exact h.congr rfl rfl
  | take =>
    unfold Runner.step
    dsimp only
    split
    · exact h.congr rfl rfl
    · exact h
  | react draw exit now =>
    unfold Runner.step
    dsimp only
    split
    · exact h
    · exact h.congr rfl rfl
    · unfold meet
      split
      · exact h.congr rfl rfl
      · exact h.congr rfl rfl
  | handle w =>
    unfold Runner.step
    dsimp only
    split
    · next cmd commands hidle hwaiting =>
      have hlisted := h.listed.apply cmd
      have hentry := entry_apply h.listed h.entry_eq cmd
      exact ⟨hlisted, hentry, h.file.save w hlisted hentry⟩
    · exact h
  | restart extra now w => exact kept_start h.file _ now w

theorem kept_run (hfile : file.Holds saved) (store : Inner) (now : U64) (w : FileWrite)
    (ins : List Input) :
    Kept (machine.run (start store file now w) ins)
      ((trace (start store file now w) ins).foldl Books.note
        (Books.restart ⟨.empty, saved⟩ now w)) := by
  induction ins using List.reverseRecOn with
  | nil => exact kept_start (b := ⟨.empty, saved⟩) hfile store now w
  | append_singleton ins i ih =>
    rw [Machine.run_concat, trace_concat, List.foldl_append]
    exact ih.step i

/-- Where the disk has what the memory has, a start finds the same specs, in the same order. -/
theorem Kept.specs_restart (h : Kept s b) (hsaved : b.saved = some b.live) (extra : List Model)
    (now : U64) (w : FileWrite) : (Runner.step s (.restart extra now w)).1.specs = s.specs := by
  have hnext : Kept (Runner.step s (.restart extra now w)).1 (b.restart now w) :=
    kept_start h.file _ now w
  have hlive : (b.restart now w).live = b.live := by
    unfold Books.restart
    rw [hsaved]
    rfl
  refine eq_of_entry (fun x hx y hy hxy hyx => ?_) hnext.listed.distinct h.listed.distinct
    hnext.listed.sorted h.listed.sorted fun name => ?_
  · have hrank : rank x = rank y := le_antisymm hxy hyx
    have hname : specName x = specName y := congrArg (fun r => (ofLex r).2) hrank
    have hx' := hnext.listed.distinct.entry_eq hx
    have hy' := hnext.listed.distinct.entry_eq hy
    rw [hname] at hx'
    exact Option.some.inj (hx'.symm.trans hy')
  · rw [hnext.entry_eq, hlive, h.entry_eq]

/-- From `s` to `t` the subscribers were sent more, and others may have joined. -/
def Grows (s t : Inner) : Prop :=
  ∃ l rest, t.subscribers = (s.subscribers.map fun sent => sent ++ l) ++ rest

theorem Grows.of_eq {s t : Inner} (h : t.subscribers = s.subscribers) : Grows s t :=
  ⟨[], [], by simp [h]⟩

theorem Grows.trans {s t u : Inner} (h : Grows s t) (h' : Grows t u) : Grows s u := by
  obtain ⟨l, rest, hsent⟩ := h
  obtain ⟨l', rest', hsent'⟩ := h'
  refine ⟨l ++ l', rest.map (fun sent => sent ++ l') ++ rest', ?_⟩
  rw [hsent', hsent]
  simp

theorem grows_emitChange (s : Inner) (id : DocId) (ts : U64) (a : Option Action) :
    Grows s (s.emitChange id ts a) := by
  cases he : s.entries[id]? with
  | none =>
    refine .of_eq ?_
    unfold Inner.emitChange
    rw [he]
  | some e =>
    rw [emitChange_eq he]
    exact ⟨[changeOf id e ts a], [], (List.append_nil _).symm⟩

theorem grows_exec (s : Inner) (ev : Event) : Grows s (s.exec ev) := by
  cases ev with
  | applyAction io a =>
    show Grows s (s.applyAction io a).1
    rcases s.applyAction_cases io a with
      ⟨r, -, heq⟩ | ⟨m, r, -, -, heq⟩ | ⟨m, msg, -, -, heq⟩ | ⟨m, -, any, del, heq⟩
    · rw [heq]
      exact .of_eq rfl
    · rw [heq]
      exact .of_eq rfl
    · rw [heq]
      exact .of_eq rfl
    · rw [heq]
      have hrecorded := (recorded_frame (s.putEntry a.docId (s.settled a m)) io a any).2
      rcases Inner.finishApply_cases (s.putEntry a.docId (s.settled a m)) io a any del with
        ⟨⟨msg, hend⟩, -⟩ | ⟨-, hend⟩
      · rw [hend]
        exact .of_eq hrecorded
      · rw [hend]
        have hindex : Grows s (((s.putEntry a.docId (s.settled a m)).recorded io a any).1.indexName
            a.docId) := .of_eq ((subscribers_indexName _ _).trans hrecorded)
        dsimp only
        split
        · exact hindex.trans (grows_emitChange ..)
        · exact hindex
  | adoptState st =>
    have hput : Grows s (s.putEntry st.doc.id (adopted (s.entryFor st.doc.id) st)) := .of_eq rfl
    exact hput.trans (grows_emitChange ..)
  | subscribeChanges => exact ⟨[], [[]], by simp [Inner.exec, Store.subscribeChanges]⟩
  | snapshot io id => exact .of_eq (subscribers_snapshot s io id)
  | registerPeerKey o k =>
    refine .of_eq ?_
    show (Store.registerPeerKey s o k).1.subscribers = s.subscribers
    unfold Store.registerPeerKey
    repeat' split
    all_goals rfl
  | newEntry id sp => exact .of_eq rfl
  | nextTs now => exact .of_eq rfl
  | bindName name id => exact .of_eq rfl
  | addModel m => exact .of_eq rfl
  | drainOutbound => exact .of_eq rfl
  | connectOutbound => exact .of_eq rfl

/-- **Whatever is done with the store**, a subscriber keeps what it was sent. -/
theorem grows_call (s : Inner) (c : Call) : Grows s (c.exec s) := by
  rw [c.exec_eq]
  unfold Inner.execAll
  induction c.events s generalizing s with
  | nil => exact .of_eq rfl
  | cons ev evs ih => exact (grows_exec s ev).trans (ih _)

theorem grows_react (s : Inner) (draw : Draw) (exit : Exit) (spec : ProcessorSpec)
    (change : DocChange) : Grows s (react s draw exit spec change).1 := by
  unfold react
  cases perform s spec change with
  | create name model payload =>
    exact grows_call s (.createDocInSpace draw.io draw.now draw.id name model payload none)
  | _ => exact .of_eq rfl

/-! ## What is done with the changes -/

/-- The triggers that a change is due. -/
def due (specs : List StoredSpec) (change : DocChange) : List Trigger :=
  (specs.filter fun spec => spec.filter.matches change).map fun spec => trigger spec change

/-- The triggers that are due after these notes: a change meets the specs that are there when it is
    taken. -/
def dueOf (specs : List StoredSpec) : List Note → List Trigger
  | [] => []
  | .handled cmd _ :: notes => dueOf (cmd.apply specs) notes
  | .took change :: notes => due specs change ++ dueOf specs notes
  | _ :: notes => dueOf specs notes

def Note.sent? : Note → Option RunnerCmd
  | .sent cmd => some cmd
  | _ => none

def Note.handled? : Note → Option RunnerCmd
  | .handled cmd _ => some cmd
  | _ => none

def Note.took? : Note → Option DocChange
  | .took change => some change
  | _ => none

def Note.fired? : Note → Option Fire
  | .fired fire => some fire
  | _ => none

def specsAfter (specs : List StoredSpec) (notes : List Note) : List StoredSpec :=
  (notes.filterMap Note.handled?).foldl RunnerCmd.apply specs

/-- The triggers still due for the change at hand. -/
def State.pending (s : State) : List Trigger := s.dispatching.elim [] fun d => due d.2 d.1

/-- The fires of one spec. -/
def firesOf (name : String) (notes : List Note) : List Fire :=
  (notes.filterMap Note.fired?).filter fun fire => fire.spec == name

/-- The account of one life of the engine: `s₀` is its start. -/
structure Accounts (s₀ : State) (notes : List Note) (s : State) : Prop where
  subscribed : s.slot < s.store.subscribers.length
  taken : s.taken ≤ s.feed.length
  took : notes.filterMap Note.took? = s.feed.take s.taken
  commands : notes.filterMap Note.handled? ++ s.commands = notes.filterMap Note.sent?
  specs : s.specs = specsAfter s₀.specs notes
  fired : (notes.filterMap Note.fired?).map Fire.toTrigger ++ s.pending = dueOf s₀.specs notes
  history : ∀ name, s.history[name]?.getD [] = newest historyCap (firesOf name notes)

variable {s₀ t : State} {notes : List Note}

theorem specsAfter_append (specs : List StoredSpec) (notes later : List Note) :
    specsAfter specs (notes ++ later) = specsAfter (specsAfter specs notes) later := by
  unfold specsAfter
  rw [List.filterMap_append, List.foldl_append]

theorem dueOf_append (specs : List StoredSpec) (notes later : List Note) :
    dueOf specs (notes ++ later) = dueOf specs notes ++ dueOf (specsAfter specs notes) later := by
  induction notes generalizing specs with
  | nil => rfl
  | cons note notes ih =>
    cases note with
    | took change =>
      show due specs change ++ dueOf specs (notes ++ later) = due specs change ++ _ ++ _
      rw [ih, List.append_assoc]
      rfl
    | handled cmd w => exact ih _
    | sent cmd => exact ih _
    | fired fire => exact ih _
    | started now w => exact ih _

theorem filterMap_concat {β : Type} (f : Note → Option β) (notes : List Note) (note : Note) :
    (notes ++ [note]).filterMap f = notes.filterMap f ++ (f note).toList := by
  rw [List.filterMap_append]
  cases h : f note <;> simp [h]

theorem firesOf_concat_of_none (name : String) (notes : List Note) {note : Note}
    (h : note.fired? = none) : firesOf name (notes ++ [note]) = firesOf name notes := by
  unfold firesOf
  rw [filterMap_concat, h, Option.toList_none, List.append_nil]

theorem firesOf_concat (name : String) (notes : List Note) (fire : Fire) :
    firesOf name (notes ++ [.fired fire]) =
      firesOf name notes ++ if fire.spec = name then [fire] else [] := by
  unfold firesOf
  rw [List.filterMap_append, List.filter_append]
  by_cases h : fire.spec = name <;> simp [Note.fired?, h]

/-- What a bounded history shows after one more fire. -/
theorem getD_pushFire {history : Std.ExtTreeMap String (List Fire)}
    (h : ∀ name, history[name]?.getD [] = newest historyCap (firesOf name notes)) (fire : Fire)
    (name : String) : (pushFire history fire)[name]?.getD [] =
      newest historyCap (firesOf name (notes ++ [.fired fire])) := by
  rw [firesOf_concat]
  unfold pushFire
  dsimp only
  rw [Std.ExtTreeMap.getElem?_insert]
  by_cases hname : fire.spec = name
  · subst hname
    rw [if_pos rfl, newest_concat, ← h fire.spec, if_pos Std.ReflCmp.compare_self,
      Option.getD_some]
    have hheld : (history[fire.spec]?.getD []).length ≤ historyCap := by
      rw [h fire.spec, length_newest]
      exact Nat.min_le_left ..
    generalize history[fire.spec]?.getD [] = held at hheld
    unfold newest
    rw [List.length_append, List.length_singleton]
    split
    · next hfull =>
      have hone : held.length + 1 - historyCap = 1 := by omega
      rw [hone, List.drop_one]
    · next hfree =>
      have hzero : held.length + 1 - historyCap = 0 := by omega
      rw [hzero, List.drop_zero]
  · have hcompare : compare fire.spec name ≠ .eq := fun heq =>
      hname (Std.LawfulEqCmp.eq_of_compare heq)
    rw [if_neg hcompare, if_neg hname, List.append_nil]
    exact h name

/-- The store grows, and the loop does not move. -/
theorem Accounts.grow (h : Accounts s₀ notes s) {t : State} (hstore : Grows s.store t.store)
    (hslot : t.slot = s.slot) (htaken : t.taken = s.taken) :
    t.slot < t.store.subscribers.length ∧ t.taken ≤ t.feed.length ∧
      t.feed.take t.taken = s.feed.take s.taken := by
  obtain ⟨l, rest, hsent⟩ := hstore
  have hfeed : t.feed = s.feed ++ l := by
    unfold State.feed
    have hbound := h.subscribed
    rw [hsent, hslot, List.getElem?_append_left (by rw [List.length_map]; exact hbound),
      List.getElem?_map, List.getElem?_eq_getElem hbound]
    rfl
  refine ⟨?_, ?_, ?_⟩
  · rw [hsent, hslot, List.length_append, List.length_map]
    exact Nat.lt_of_lt_of_le h.subscribed (Nat.le_add_right ..)
  · rw [hfeed, htaken, List.length_append]
    exact Nat.le_trans h.taken (Nat.le_add_right ..)
  · rw [hfeed, htaken, List.take_append_of_le_length h.taken]

/-- The loop rests, and only the store has grown. -/
theorem Accounts.rests (h : Accounts s₀ notes s) (hstore : Grows s.store t.store)
    (hslot : t.slot = s.slot) (htaken : t.taken = s.taken) (hcommands : t.commands = s.commands)
    (hspecs : t.specs = s.specs) (hpending : t.pending = s.pending)
    (hhistory : t.history = s.history) : Accounts s₀ notes t := by
  obtain ⟨hsub, hle, htake⟩ := h.grow hstore hslot htaken
  refine ⟨hsub, hle, htake.symm ▸ h.took, ?_, hspecs.trans h.specs, ?_, ?_⟩
  · rw [hcommands]
    exact h.commands
  · rw [hpending]
    exact h.fired
  · rw [hhistory]
    exact h.history

/-- **The change meets a spec.** -/
theorem Accounts.meet {change : DocChange} {spec : StoredSpec} {rest : List StoredSpec}
    (h : Accounts s₀ notes s) (hat : s.dispatching = some (change, spec :: rest)) (draw : Draw)
    (exit : Exit) (now : U64) :
    Accounts s₀ (notes ++ (Runner.meet s draw exit now change spec rest).2)
      (Runner.meet s draw exit now change spec rest).1 := by
  have hpending : s.pending = due (spec :: rest) change := by
    unfold State.pending
    rw [hat]
    rfl
  have hfired := h.fired
  rw [hpending] at hfired
  unfold Runner.meet
  by_cases hmatch : spec.filter.matches change = true
  · rw [if_pos hmatch]
    have hdue : due (spec :: rest) change = trigger spec change :: due rest change := by
      simp [due, hmatch]
    rw [hdue] at hfired
    have hgrows := grows_react s.store draw exit spec.toProcessorSpec change
    obtain ⟨hsub, hle, htake⟩ := h.grow (t := { s with
      store := (react s.store draw exit spec.toProcessorSpec change).1 }) hgrows rfl rfl
    refine ⟨hsub, hle, ?_, ?_, ?_, ?_, fun name => getD_pushFire h.history _ name⟩
    · rw [List.filterMap_append]
      exact (List.append_nil _).trans (h.took.trans htake.symm)
    · rw [List.filterMap_append, List.filterMap_append]
      show notes.filterMap Note.handled? ++ [] ++ s.commands = notes.filterMap Note.sent? ++ []
      rw [List.append_nil, List.append_nil]
      exact h.commands
    · rw [specsAfter_append]
      exact h.specs
    · rw [dueOf_append, List.filterMap_append, List.map_append, ← hfired]
      simp [Note.fired?, State.pending, dueOf]
  · rw [if_neg hmatch]
    have hdue : due (spec :: rest) change = due rest change := by
      simp [due, hmatch]
    have hrests : Accounts s₀ notes { s with dispatching := some (change, rest) } :=
      h.rests (.of_eq rfl) rfl rfl rfl rfl (hdue.symm.trans hpending.symm) rfl
    exact (List.append_nil notes).symm ▸ hrests

theorem pending_of_idle (h : s.dispatching = none) : s.pending = [] := by
  unfold State.pending
  rw [h]
  rfl

/-- Whether the daemon is killed in this step. -/
def Input.isRestart : Input → Bool
  | .restart .. => true
  | _ => false

/-- **One step** of a life. -/
theorem Accounts.step (h : Accounts s₀ notes s) {i : Input} (hi : i.isRestart = false) :
    Accounts s₀ (notes ++ (Runner.step s i).2) (Runner.step s i).1 := by
  cases i with
  | restart extra now w => exact absurd hi Bool.true_eq_false.mp
  | call c =>
    show Accounts s₀ (notes ++ []) _
    rw [List.append_nil]
    exact h.rests (grows_call s.store c) rfl rfl rfl rfl rfl rfl
  | send cmd =>
    show Accounts s₀ (notes ++ [.sent cmd]) { s with commands := s.commands ++ [cmd] }
    refine ⟨h.subscribed, h.taken, ?_, ?_, ?_, ?_, fun name => ?_⟩
    · rw [List.filterMap_append]
      exact (List.append_nil _).trans h.took
    · rw [List.filterMap_append, List.filterMap_append, ← h.commands]
      simp [Note.handled?, Note.sent?]
    · rw [specsAfter_append]
      exact h.specs
    · rw [dueOf_append, List.filterMap_append, List.map_append]
      show _ ++ [] ++ s.pending = _ ++ []
      rw [List.append_nil, List.append_nil]
      exact h.fired
    · rw [firesOf_concat_of_none name notes rfl]
      exact h.history name
  | take =>
    unfold Runner.step
    dsimp only
    split
    · next change hidle hnext =>
      refine ⟨h.subscribed, ?_, ?_, ?_, ?_, ?_, fun name => ?_⟩
      · exact (List.getElem?_eq_some_iff.mp hnext).1
      · show _ = s.feed.take (s.taken + 1)
        rw [List.filterMap_append, h.took, List.take_add_one, hnext]
        rfl
      · rw [List.filterMap_append, List.filterMap_append]
        show _ ++ [] ++ s.commands = _ ++ []
        rw [List.append_nil, List.append_nil]
        exact h.commands
      · rw [specsAfter_append]
        exact h.specs
      · have hfired := h.fired
        rw [pending_of_idle hidle, List.append_nil] at hfired
        rw [dueOf_append, List.filterMap_append, List.map_append, ← h.specs]
        show _ ++ [] ++ due s.specs change = _ ++ (due s.specs change ++ [])
        rw [List.append_nil, List.append_nil, hfired]
      · rw [firesOf_concat_of_none name notes rfl]
        exact h.history name
    · rw [List.append_nil]
      exact h
  | react draw exit now =>
    unfold Runner.step
    dsimp only
    split
    · rw [List.append_nil]
      exact h
    · next change hat =>
      have hpending : s.pending = [] := by
        unfold State.pending
        rw [hat]
        rfl
      rw [List.append_nil]
      exact h.rests (.of_eq rfl) rfl rfl rfl rfl hpending.symm rfl
    · next change spec rest hat => exact h.meet hat draw exit now
  | handle w =>
    unfold Runner.step
    dsimp only
    split
    · next cmd commands hidle hwaiting =>
      refine ⟨h.subscribed, h.taken, ?_, ?_, ?_, ?_, fun name => ?_⟩
      · rw [List.filterMap_append]
        exact (List.append_nil _).trans h.took
      · rw [List.filterMap_append, List.filterMap_append, ← h.commands, hwaiting]
        simp [Note.handled?, Note.sent?]
      · rw [specsAfter_append, ← h.specs]
        rfl
      · rw [dueOf_append, List.filterMap_append, List.map_append]
        show _ ++ [] ++ State.pending { s with } = _ ++ []
        rw [List.append_nil, List.append_nil]
        exact h.fired
      · rw [firesOf_concat_of_none name notes rfl]
        exact h.history name
    · rw [List.append_nil]
      exact h

theorem accounts_start (store : Inner) (file : SpecsFile) (now : U64) (w : FileWrite) :
    Accounts (start store file now w) [] (start store file now w) := by
  refine ⟨?_, Nat.zero_le _, rfl, rfl, rfl, rfl, fun name => ?_⟩
  · show store.subscribers.length < (store.subscribers ++ [[]]).length
    rw [List.length_append]
    exact Nat.lt_succ_self _
  · show (∅ : Std.ExtTreeMap String (List Fire))[name]?.getD [] = _
    rw [Std.ExtTreeMap.getElem?_empty]
    rfl

theorem accounts_run (store : Inner) (file : SpecsFile) (now : U64) (w : FileWrite)
    {ins : List Input} (hlife : ∀ i ∈ ins, i.isRestart = false) :
    Accounts (start store file now w) (trace (start store file now w) ins)
      (machine.run (start store file now w) ins) := by
  induction ins using List.reverseRecOn with
  | nil => exact accounts_start store file now w
  | append_singleton ins i ih =>
    rw [Machine.run_concat, trace_concat]
    have hpast := ih fun j hj => hlife j (List.mem_append_left _ hj)
    exact hpast.step (hlife i (List.mem_append_right _ (List.mem_singleton_self _)))

/-- **Every change fires once.**  In every run of the engine until the daemon ends, however its
    turns fall between the calls on the store and the commands of the API: the changes it has taken
    are the first ones it was sent, in order; so are the commands; a change has fired the specs that
    matched it when it was taken, each once and in order, but for those the change at hand has still
    to meet; and the API shows the last fifty fires of each spec, newest first. -/
theorem every_change_fires_once (store : Inner) (file : SpecsFile) (now : U64) (w : FileWrite)
    {ins : List Input} (hlife : ∀ i ∈ ins, i.isRestart = false) :
    (trace (start store file now w) ins).filterMap Note.took? =
      (machine.run (start store file now w) ins).feed.take
        (machine.run (start store file now w) ins).taken ∧
    (trace (start store file now w) ins).filterMap Note.handled? ++
        (machine.run (start store file now w) ins).commands =
      (trace (start store file now w) ins).filterMap Note.sent? ∧
    ((trace (start store file now w) ins).filterMap Note.fired?).map Fire.toTrigger ++
        (machine.run (start store file now w) ins).pending =
      dueOf (start store file now w).specs (trace (start store file now w) ins) ∧
    ∀ name, (machine.run (start store file now w) ins).fires name =
      (newest historyCap (firesOf name (trace (start store file now w) ins))).reverse := by
  have h := accounts_run store file now w hlife
  exact ⟨h.took, h.commands, h.fired, fun name => congrArg List.reverse (h.history name)⟩

end

/-! ### Examples -/

section

attribute [local instance] Sample.primitives

open Sample

/-- Tell of every change of the notes. -/
def tellSpec : StoredSpec where
  name := "tell"
  models := []
  actionKind := none
  field := some "title"
  value := none
  reaction := .emit "changed $doc"
  created := 7

def aliceStore : Inner := Store.fresh alice.key alice.name []

/-- A spec is sent and handled; a document is created and named, and its change taken; the spec is
    removed while the reactions run. -/
def tellRun : List Input :=
  [.send (.set tellSpec), .handle .ok,
    .call (.createDoc Io.ok (fun _ => 20) 5 "notes"
      ((∅ : Std.ExtTreeMap String Value).insert "title" (.string "a"))),
    .take, .send (.remove "tell"), .react ⟨Io.ok, 30, 5⟩ (.exited "0") 31,
    .react ⟨Io.ok, 30, 5⟩ (.exited "0") 32, .react ⟨Io.ok, 30, 5⟩ (.exited "0") 33, .handle .torn]

theorem every_change_fires_once_tell :
    (trace (start aliceStore .missing 3 .ok) tellRun).filterMap Note.took? =
      (machine.run (start aliceStore .missing 3 .ok) tellRun).feed.take
        (machine.run (start aliceStore .missing 3 .ok) tellRun).taken ∧
    (trace (start aliceStore .missing 3 .ok) tellRun).filterMap Note.handled? ++
        (machine.run (start aliceStore .missing 3 .ok) tellRun).commands =
      (trace (start aliceStore .missing 3 .ok) tellRun).filterMap Note.sent? ∧
    ((trace (start aliceStore .missing 3 .ok) tellRun).filterMap Note.fired?).map
        Fire.toTrigger ++ (machine.run (start aliceStore .missing 3 .ok) tellRun).pending =
      dueOf (start aliceStore .missing 3 .ok).specs
        (trace (start aliceStore .missing 3 .ok) tellRun) ∧
    ∀ name, (machine.run (start aliceStore .missing 3 .ok) tellRun).fires name =
      (newest historyCap
        (firesOf name (trace (start aliceStore .missing 3 .ok) tellRun))).reverse :=
  every_change_fires_once aliceStore .missing 3 .ok (by decide)

end

end PhReactor.Runner
