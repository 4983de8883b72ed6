/-
  What a click in the tray does (`src/tray/mod.rs`).

  The host draws a layout it fetched, and a click names an item by its id.  The daemon looks the id
  up in the menu it has NOW, which every status snapshot replaces.  The event carries no revision,
  so nothing says which menu the id was read from.

  1. `Session` is the tray with its host: what was last fetched, and the clicks so far, each with
     what it dispatched.  The turns are the updates, the host's calls and its clicks, in any order.

  2. The menu is always the one of the present snapshot (`Session.Built`), so `about_to_show`
     rebuilds it without changing it, and a click does what its place says in that snapshot.

  3. `clicks_right_iff`: the clicks of a run all did what they showed exactly when each of them
     found at its place what was there in the snapshot of the layout, or nothing.

  4. That is the case after a fetch of the whole menu as long as no snapshot changes its shape: peer
     or none, the number of groups, the drives with their pauses (`clicks_right_of_sameShape`).
-/
import PhReactor.Daemon.Config
import PhReactor.Lib.CarefulRun
import PhReactor.Tray.Menu

namespace PhReactor.Tray

attribute [local instance] u32NeZero

/-! ## The tray -/

/-- The commands that the tray sends. -/
inductive Command where
  | drive (cmd : ConfigCommand)
  | quit

structure TrayState where
  snapshot : StatusSnapshot
  menu : MenuItem
  /-- Bumped whenever the menu is rebuilt. -/
  revision : U32
  /-- What was sent to the command loop. -/
  commands : List Command
  /-- The URLs that were opened. -/
  opened : List String

namespace TrayState

def start (snap : StatusSnapshot) : TrayState := ⟨snap, buildMenu snap, 1, [], []⟩

variable (st : TrayState)

/-- Rebuilds the menu from the current snapshot. -/
def rebuild : TrayState := { st with menu := buildMenu st.snapshot, revision := st.revision + 1 }

/-- A new snapshot arrives. -/
def update (snap : StatusSnapshot) : TrayState := { st with snapshot := snap }.rebuild

/-- Executes a menu action: sends the command, or opens the console if its URL is known. -/
def dispatchAction : Action → TrayState
  | .togglePause name toPaused =>
    let cmd : ConfigCommand := if toPaused then .pauseDrive name else .resumeDrive name
    { st with commands := st.commands ++ [.drive cmd] }
  | .removeDrive name => { st with commands := st.commands ++ [.drive (.removeDrive name)] }
  | .openConsole =>
    if st.snapshot.url.isEmpty then st else { st with opened := st.opened ++ [st.snapshot.url] }
  | .quit => { st with commands := st.commands ++ [.quit] }

/-- `DbusMenu::event`.  The `i32` of the event and the `u32` of an item are the same bits. -/
def event (id : U32) (eventId : String) : TrayState :=
  if eventId ≠ "clicked" then st
  else
    match actionForId st.menu id with
    | some action => st.dispatchAction action
    | none => st

end TrayState

/-- The commands that an action sends. -/
def Action.commands : Action → List Command
  | .togglePause name toPaused =>
    [.drive (if toPaused then .pauseDrive name else .resumeDrive name)]
  | .removeDrive name => [.drive (.removeDrive name)]
  | .openConsole => []
  | .quit => [.quit]

theorem dispatchAction_spec (st : TrayState) (action : Action) :
    (st.dispatchAction action).snapshot = st.snapshot ∧ (st.dispatchAction action).menu = st.menu ∧
      (st.dispatchAction action).commands = st.commands ++ action.commands := by
  cases action with
  | togglePause name toPaused => exact ⟨rfl, rfl, rfl⟩
  | removeDrive name => exact ⟨rfl, rfl, rfl⟩
  | quit => exact ⟨rfl, rfl, rfl⟩
  | openConsole =>
    unfold TrayState.dispatchAction
    dsimp only
    split
    · exact ⟨rfl, rfl, (List.append_nil _).symm⟩
    · exact ⟨rfl, rfl, (List.append_nil _).symm⟩

/-! ## The tray and its host -/

/-- A layout that the host fetched, with the menu and the snapshot it was cut from. -/
structure Fetch where
  layout : LayoutItem
  menu : MenuItem
  snapshot : StatusSnapshot

/-- The layout has an item with that id, and the action of the item is `action`. -/
def Fetch.Shows (f : Fetch) (id : U32) (action : Action) : Prop :=
  id ∈ f.layout.ids ∧ actionForId f.menu id = some action

/-- A click, with what the host had fetched by then and what was dispatched. -/
structure Click where
  id : U32
  fetched : Option Fetch
  dispatched : Option Action

/-- **The click did what the menu showed**: what was dispatched is the action of the item with that
    id in the layout last fetched, and a click on `Remove` touched no other drive. -/
structure Click.Right (c : Click) : Prop where
  shown : ∀ action, c.dispatched = some action → ∃ f, c.fetched = some f ∧ f.Shows c.id action
  remove : ∀ f name, c.fetched = some f → f.Shows c.id (.removeDrive name) →
    c.dispatched = none ∨ c.dispatched = some (.removeDrive name)

structure Session where
  tray : TrayState
  fetched : Option Fetch
  clicks : List Click

inductive Turn where
  | update (snap : StatusSnapshot)
  | aboutToShow (id : U32)
  | getLayout (parent : U32) (depth : Int) (filter : List String)
  | event (id : U32) (eventId : String)

namespace Session

def start (snap : StatusSnapshot) : Session := ⟨.start snap, none, []⟩

def step (s : Session) : Turn → Session
  | .update snap => { s with tray := s.tray.update snap }
  | .aboutToShow _ => { s with tray := s.tray.rebuild }
  | .getLayout parent depth filter =>
    match layout s.tray.menu parent depth filter with
    | some layout => { s with fetched := some ⟨layout, s.tray.menu, s.tray.snapshot⟩ }
    | none => s
  | .event id eventId =>
    { s with
      tray := s.tray.event id eventId
      clicks :=
        if eventId ≠ "clicked" then s.clicks
        else s.clicks ++ [⟨id, s.fetched, actionForId s.tray.menu id⟩] }

/-- The turns are possible in any order. -/
def turn (s : Session) (t : Turn) : Option Session := some (s.step t)

/-- At the place of the click there is nothing now, or what was there in the snapshot of the layout
    last fetched, and that layout has the place. -/
def InPlace (s : Session) (id : U32) : Prop :=
  slotAt s.tray.snapshot id = none ∨
    ∃ f, s.fetched = some f ∧ id ∈ f.layout.ids ∧ slotAt f.snapshot id = slotAt s.tray.snapshot id

/-- The condition on a turn: a click is in place. -/
def Counted (s : Session) : Turn → Prop
  | .event id eventId => eventId = "clicked" → s.InPlace id
  | _ => True

/-- Every menu is the one of its snapshot. -/
structure Built (s : Session) : Prop where
  now : s.tray.menu = buildMenu s.tray.snapshot
  fetched : ∀ f, s.fetched = some f → f.menu = buildMenu f.snapshot

theorem built_start (snap : StatusSnapshot) : (start snap).Built :=
  ⟨rfl, fun f hf => by cases hf⟩

theorem event_menu (st : TrayState) (id : U32) (eventId : String) :
    (st.event id eventId).snapshot = st.snapshot ∧ (st.event id eventId).menu = st.menu := by
  unfold TrayState.event
  split
  · exact ⟨rfl, rfl⟩
  · cases actionForId st.menu id with
    | none => exact ⟨rfl, rfl⟩
    | some action => exact ⟨(dispatchAction_spec st action).1, (dispatchAction_spec st action).2.1⟩

/-- A fetch changes what the host has, or fails. -/
theorem step_getLayout (s : Session) (parent : U32) (depth : Int) (filter : List String) :
    s.step (.getLayout parent depth filter) = s ∨
      ∃ layout, s.step (.getLayout parent depth filter) =
        { s with fetched := some ⟨layout, s.tray.menu, s.tray.snapshot⟩ } := by
  unfold step
  dsimp only
  cases layout s.tray.menu parent depth filter with
  | none => exact Or.inl rfl
  | some l => exact Or.inr ⟨l, rfl⟩

variable {s : Session}

/-- **Step lemma**: every turn leaves the menu that of the snapshot. -/
theorem Built.step (h : s.Built) (t : Turn) : (s.step t).Built := by
  cases t with
  | update snap => exact ⟨rfl, h.fetched⟩
  | aboutToShow id => exact ⟨rfl, h.fetched⟩
  | getLayout parent depth filter =>
    obtain hstep | ⟨layout, hstep⟩ := step_getLayout s parent depth filter
    · rw [hstep]
      exact h
    · rw [hstep]
      refine ⟨h.now, fun f hf => ?_⟩
      rw [← Option.some.inj hf]
      exact h.now
  | event id eventId =>
    obtain ⟨hsnap, hmenu⟩ := event_menu s.tray id eventId
    refine ⟨?_, h.fetched⟩
    show (s.tray.event id eventId).menu = buildMenu (s.tray.event id eventId).snapshot
    rw [hsnap, hmenu]
    exact h.now

/-- A rebuild for `about_to_show` finds nothing new. -/
theorem Built.rebuild_menu (h : s.Built) : s.tray.rebuild.menu = s.tray.menu := h.now.symm

/-- **A click is right exactly when it is in place.** -/
theorem Built.right_iff (h : s.Built) (id : U32) :
    (⟨id, s.fetched, actionForId s.tray.menu id⟩ : Click).Right ↔ s.InPlace id := by
  have hnow : actionForId s.tray.menu id = slotAt s.tray.snapshot id := by
    rw [h.now, actionForId_buildMenu]
  have hthen : ∀ f, s.fetched = some f → actionForId f.menu id = slotAt f.snapshot id := by
    intro f hf
    rw [h.fetched f hf, actionForId_buildMenu]
  constructor
  · intro hright
    cases hslot : slotAt s.tray.snapshot id with
    | none => exact Or.inl hslot
    | some action =>
      obtain ⟨f, hf, hid, hact⟩ := hright.shown action (hnow.trans hslot)
      exact Or.inr ⟨f, hf, hid, by rw [← hthen f hf, hact, hslot]⟩
  · rintro (hnone | ⟨f, hf, hid, hslot⟩)
    · have hnot : actionForId s.tray.menu id = none := hnow.trans hnone
      refine ⟨fun action hact => ?_, fun f name _ _ => Or.inl hnot⟩
      rw [show actionForId s.tray.menu id = some action from hact] at hnot
      cases hnot
    · have hsame : actionForId s.tray.menu id = actionForId f.menu id := by
        rw [hnow, hthen f hf, hslot]
      refine ⟨fun action hact => ⟨f, hf, hid, hsame ▸ hact⟩, fun f' name hf' hshows => Or.inr ?_⟩
      obtain rfl := Option.some.inj (hf.symm.trans hf')
      exact hsame.trans hshows.2

/-- Some click did not do what the menu showed. -/
def Misled (s : Session) : Prop := ∃ c ∈ s.clicks, ¬ c.Right

/-- A turn only adds to the clicks. -/
theorem clicks_step (s : Session) (t : Turn) : s.clicks <+: (s.step t).clicks := by
  cases t with
  | update snap => exact List.prefix_refl _
  | aboutToShow id => exact List.prefix_refl _
  | getLayout parent depth filter =>
    have hsame : (s.step (.getLayout parent depth filter)).clicks = s.clicks := by
      obtain hstep | ⟨layout, hstep⟩ := step_getLayout s parent depth filter <;> rw [hstep]
    exact hsame ▸ List.prefix_refl s.clicks
  | event id eventId =>
    show s.clicks <+: if eventId ≠ "clicked" then s.clicks else _
    split
    · exact List.prefix_refl _
    · exact List.prefix_append _ _

/-- **Step lemma**: a turn misleads exactly when it is a click out of place. -/
theorem Built.misled_step (h : s.Built) (hnot : ¬ s.Misled) (t : Turn) :
    ¬ (s.step t).Misled ↔ s.Counted t := by
  have hsame : (s.step t).clicks = s.clicks → ¬ (s.step t).Misled := by
    intro heq hmisled
    unfold Misled at hmisled
    rw [heq] at hmisled
    exact hnot hmisled
  cases t with
  | update snap => exact iff_of_true (hsame rfl) trivial
  | aboutToShow id => exact iff_of_true (hsame rfl) trivial
  | getLayout parent depth filter =>
    refine iff_of_true (hsame ?_) trivial
    obtain hstep | ⟨layout, hstep⟩ := step_getLayout s parent depth filter <;> rw [hstep]
  | event id eventId =>
    by_cases hclick : eventId = "clicked"
    · have hclicks : (s.step (.event id eventId)).clicks =
          s.clicks ++ [⟨id, s.fetched, actionForId s.tray.menu id⟩] :=
        if_neg (not_not.mpr hclick)
      rw [show s.Counted (.event id eventId) ↔ s.InPlace id from
        ⟨fun himp => himp hclick, fun hplace _ => hplace⟩, ← h.right_iff id]
      unfold Misled
      rw [hclicks]
      constructor
      · intro hno
        by_contra hwrong
        exact hno ⟨_, List.mem_append_right _ List.mem_cons_self, hwrong⟩
      · rintro hright ⟨c, hc, hwrong⟩
        rcases List.mem_append.mp hc with hc | hc
        · exact hnot ⟨c, hc, hwrong⟩
        · rw [List.mem_singleton.mp hc] at hwrong
          exact hwrong hright
    · exact iff_of_true (hsame (if_pos hclick)) fun heq => absurd heq hclick

/-- **Run lemma**: the commands sent are those of the actions dispatched, in the order of the
    clicks. -/
theorem commands_step (hsent : s.tray.commands =
    (s.clicks.filterMap Click.dispatched).flatMap Action.commands) (t : Turn) :
    (s.step t).tray.commands =
      ((s.step t).clicks.filterMap Click.dispatched).flatMap Action.commands := by
  cases t with
  | update snap => exact hsent
  | aboutToShow id => exact hsent
  | getLayout parent depth filter =>
    obtain hstep | ⟨layout, hstep⟩ := step_getLayout s parent depth filter <;>
    · rw [hstep]
      exact hsent
  | event id eventId =>
    show (s.tray.event id eventId).commands = ((if eventId ≠ "clicked" then s.clicks
      else s.clicks ++ [⟨id, s.fetched, actionForId s.tray.menu id⟩]).filterMap _).flatMap _
    unfold TrayState.event
    by_cases hclick : eventId ≠ "clicked"
    · rw [if_pos hclick, if_pos hclick]
      exact hsent
    · rw [if_neg hclick, if_neg hclick, List.filterMap_append, List.flatMap_append, ← hsent]
      cases hact : actionForId s.tray.menu id with
      | none => exact (List.append_nil _).symm
      | some action =>
        show (s.tray.dispatchAction action).commands = _
        rw [(dispatchAction_spec s.tray action).2.2]
        show _ = _ ++ (action.commands ++ [])
        rw [List.append_nil]

/-- **Run lemma**: nothing misled exactly when every click was in place. -/
theorem not_misled_iff {snap : StatusSnapshot} {turns : List Turn}
    (h : Lib.CarefulRun turn (fun _ _ => True) (start snap) turns s) :
    ¬ s.Misled ↔ Lib.CarefulRun turn Counted (start snap) turns s := by
  refine Lib.CarefulRun.iff_of_trap (I := Built) (built_start snap)
    (fun ⟨c, hc, _⟩ => absurd hc List.not_mem_nil) ?_ ?_ ?_ h
  · intro s t s' hs hstep
    rw [← Option.some.inj hstep]
    exact hs.step t
  · intro s t s' hs hnot hstep
    rw [← Option.some.inj hstep]
    exact hs.misled_step hnot t
  · intro s t s' _ hmisled hstep
    rw [← Option.some.inj hstep]
    obtain ⟨c, hc, hwrong⟩ := hmisled
    exact ⟨c, (clicks_step s t).subset hc, hwrong⟩

theorem not_misled : ¬ s.Misled ↔ ∀ c ∈ s.clicks, c.Right := by
  unfold Misled
  constructor
  · intro hnone c hc
    by_contra hwrong
    exact hnone ⟨c, hc, hwrong⟩
  · rintro hall ⟨c, hc, hwrong⟩
    exact hwrong (hall c hc)

/-- A click on a layout that was fetched whole, before any change of shape. -/
def Fresh (s : Session) : Turn → Prop
  | .event _ _ => ∃ f filter, s.fetched = some f ∧
      f.layout = build (buildMenu f.snapshot) (-1) filter ∧ SameShape f.snapshot s.tray.snapshot
  | _ => True

theorem Fresh.counted {t : Turn} (h : s.Fresh t) : s.Counted t := by
  cases t with
  | event id eventId =>
    obtain ⟨f, filter, hf, hlayout, hshape⟩ := h
    intro _
    cases hslot : slotAt s.tray.snapshot id with
    | none => exact Or.inl hslot
    | some action =>
      have hthen : slotAt f.snapshot id = some action := by rw [hshape.slotAt_eq, hslot]
      refine Or.inr ⟨f, hf, ?_, by rw [hthen, hslot]⟩
      rw [hlayout]
      exact mem_ids_of_slotAt hthen filter
  | _ => trivial

/-- **While the shape of the menu stays**, every click on a menu fetched whole does what it
    showed. -/
theorem clicks_right_of_sameShape {snap : StatusSnapshot} {turns : List Turn}
    (h : Lib.CarefulRun turn Fresh (start snap) turns s) : ∀ c ∈ s.clicks, c.Right :=
  not_misled.mp ((not_misled_iff (h.mono fun _ _ _ => trivial)).mpr
    (h.mono fun _ _ hfresh => hfresh.counted))

end Session

/-- **Tray clicks.**  In every run of the tray and its host, the clicks all did what the menu showed
    exactly when each of them was in place: counted off the present snapshot, its id stood for
    nothing, or for what it stood for in the snapshot of the layout last fetched.  And the commands
    sent are those of the actions that the clicks dispatched. -/
theorem clicks_right_iff (snap : StatusSnapshot) (turns : List Turn) (s : Session)
    (h : Lib.CarefulRun Session.turn (fun _ _ => True) (Session.start snap) turns s) :
    ((∀ c ∈ s.clicks, c.Right) ↔
      Lib.CarefulRun Session.turn Session.Counted (Session.start snap) turns s) ∧
    s.tray.commands = (s.clicks.filterMap Click.dispatched).flatMap Action.commands := by
  refine ⟨Session.not_misled.symm.trans (Session.not_misled_iff h), ?_⟩
  exact h.invariant (I := fun _ s => s.tray.commands =
    (s.clicks.filterMap Click.dispatched).flatMap Action.commands) rfl
    fun past s t s' hsent _ hstep => by
      rw [← Option.some.inj hstep]
      exact Session.commands_step hsent t

/-! ## A drive goes away -/

/-- A running reactor with these drives, all synced. -/
def withDrives (names : List String) : StatusSnapshot where
  version := "1.0.0"
  reactor := ⟨true, true, none⟩
  drives := names.map fun name => ⟨name, false, "synced"⟩
  groups := []
  url := "http://127.0.0.1:4002"

/-- The host fetches the menu, and the user removes the first drive. -/
def removesVault : List Turn := [.getLayout 0 (-1) [], .event 8 "clicked"]

theorem run_removesVault : Lib.CarefulRun Session.turn Session.Counted
    (Session.start (withDrives ["vault", "cold"])) removesVault
      ((Session.start (withDrives ["vault", "cold"])).step (.getLayout 0 (-1) []) |>.step
        (.event 8 "clicked")) := by
  have hfetch : Lib.CarefulRun Session.turn Session.Counted
      (Session.start (withDrives ["vault", "cold"])) [.getLayout 0 (-1) []] _ :=
    Lib.CarefulRun.start.next trivial rfl
  refine hfetch.next (fun _ => Or.inr ⟨_, rfl, ?_, rfl⟩) rfl
  have hslot : slotAt (withDrives ["vault", "cold"]) 8 = some (.removeDrive "vault") := by decide
  exact mem_ids_of_slotAt hslot []

theorem vault_removed :
    ((Session.start (withDrives ["vault", "cold"])).step
      (.getLayout 0 (-1) []) |>.step (.event 8 "clicked")).clicks ≠ [] ∧
      ∀ c ∈ ((Session.start (withDrives ["vault", "cold"])).step
        (.getLayout 0 (-1) []) |>.step (.event 8 "clicked")).clicks, c.Right :=
  ⟨List.cons_ne_nil _ _,
    (clicks_right_iff _ removesVault _ (run_removesVault.mono fun _ _ _ => trivial)).1.mpr
      run_removesVault⟩

/-- The drive `vault` goes away between the fetch and the click. -/
def vaultGone : List Turn :=
  [.getLayout 0 (-1) [], .update (withDrives ["cold"]), .event 8 "clicked"]

theorem run_vaultGone : Lib.CarefulRun Session.turn (fun _ _ => True)
    (Session.start (withDrives ["vault", "cold"])) vaultGone
      ((Session.start (withDrives ["vault", "cold"])).step (.getLayout 0 (-1) []) |>.step
        (.update (withDrives ["cold"])) |>.step (.event 8 "clicked")) :=
  ((Lib.CarefulRun.start.next trivial rfl).next trivial rfl).next trivial rfl

/-- **The wrong drive is removed**: the menu shows `Remove` under `vault`, and `cold` is gone. -/
theorem wrong_drive_removed :
    ¬ ∀ (snap : StatusSnapshot) (turns : List Turn) (s : Session),
      Lib.CarefulRun Session.turn (fun _ _ => True) (Session.start snap) turns s →
      ∀ c ∈ s.clicks, c.Right := by
  intro h
  have hright := h _ _ _ run_vaultGone _ List.mem_cons_self
  have hnow : actionForId (buildMenu (withDrives ["cold"])) 8 = some (.removeDrive "cold") := by
    rw [actionForId_buildMenu]
    decide
  have hthen : actionForId (buildMenu (withDrives ["vault", "cold"])) 8 =
      some (.removeDrive "vault") := by
    rw [actionForId_buildMenu]
    decide
  obtain ⟨f, hf, -, hshown⟩ := hright.shown (.removeDrive "cold") hnow
  obtain rfl := Option.some.inj hf
  have hsame := hthen.symm.trans hshown
  exact absurd hsame (by decide)

end PhReactor.Tray
