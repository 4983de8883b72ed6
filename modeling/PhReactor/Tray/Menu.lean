/-
  The menu of the tray (`src/tray/menu.rs`, `src/tray/dbusmenu.rs`).

  `buildMenu` turns a status snapshot into a tree of items.  An item gets its id from a counter that
  starts anew with every build, so an id is a POSITION: it says how many items came before.

  1. The tree is built and searched as the source does it: `buildMenu`, `find`, `actionForId`, and
     `layout`, which is what a host is given to draw.

  2. `slots` lists what the items of a menu offer, in the order in which they get their ids.  The id
     of the drives' header is taken even when there is no drive, and then no item has it.

  3. `actionForId_buildMenu` reads a menu off that list: the id counts the slots.  The counter is a
     `u32` and starts over after the last, but the first item with an id is the one it counts to
     (`find?_numbered`).

  4. Snapshots of one shape have the same slots (`SameShape`), and the whole layout shows every item
     that offers something (`mem_ids_of_slotAt`).
-/
import Mathlib.Algebra.Group.Nat.Defs
import Mathlib.Order.Basic
import Std.Data.ExtTreeMap

namespace PhReactor.Tray

abbrev U32 := Fin (2 ^ 32)

theorem u32NeZero : @NeZero Nat Zero.ofOfNat0 (2 ^ 32) := inferInstance

attribute [local instance] u32NeZero

/-! ## Snapshots -/

/-- A group as the tray shows it. -/
structure GroupSummary where
  name : String
  members : ℕ
  messages : ℕ

structure DriveStatusEntry where
  name : String
  paused : Bool
  /-- One of: synced, connecting, paused, offline, requires-auth, error. -/
  status : String

structure ReactorStatus where
  running : Bool
  healthy : Bool
  peerId : Option String

/-- What the menu reads of the daemon's observable state. -/
structure StatusSnapshot where
  version : String
  reactor : ReactorStatus
  drives : List DriveStatusEntry
  groups : List GroupSummary
  /-- The URL of the console. -/
  url : String

/-! ## Items -/

/-- Actions the tray can dispatch to the daemon's command channel. -/
inductive Action where
  | togglePause (name : String) (toPaused : Bool)
  | removeDrive (name : String)
  | openConsole
  | quit
  deriving DecidableEq

inductive Kind where
  | text
  | separator
  deriving DecidableEq

/-- A menu node. -/
structure MenuItem where
  id : U32
  kind : Kind
  label : String
  enabled : Bool
  visible : Bool
  icon : Option String
  /-- What clicking this item does. -/
  action : Option Action
  children : List MenuItem

def text (id : U32) (label : String) : MenuItem where
  id
  kind := .text
  label
  enabled := true
  visible := true
  icon := none
  action := none
  children := []

def header (id : U32) (label : String) : MenuItem := { text id label with enabled := false }

def separator (id : U32) : MenuItem :=
  { text id "" with kind := .separator, enabled := false }

/-- The `n`-th id: the counter is a `u32`. -/
def nthId (n : ℕ) : U32 := Fin.ofNat _ n

/-! ## Labels -/

/-- A peer id is too long for a menu.  Peer ids are base58, so their bytes are their characters. -/
def shortPeer (peer : String) : String :=
  if peer.utf8ByteSize ≤ 20 then peer
  else String.ofList (peer.toList.take 12) ++ "…" ++
    String.ofList (peer.toList.drop (peer.length - 6))

/-- What the reactor is doing. -/
def stateLine (snap : StatusSnapshot) : String :=
  if !snap.reactor.running then "stopped"
  else if !snap.reactor.healthy then "starting…"
  else if snap.drives.isEmpty then "no drives"
  else if snap.drives.all fun d => d.paused then "paused"
  else if snap.drives.any fun d => d.status == "connecting" then "connecting…"
  else if snap.drives.any fun d => d.status == "synced" then "synced"
  else "offline"

def plural (n : ℕ) (one many : String) : String := toString n ++ " " ++ if n = 1 then one else many

def groupLine (g : GroupSummary) : String :=
  plural g.members "member" "members" ++ ", " ++ plural g.messages "message" "messages"

def driveIcon (status : String) : String :=
  if status = "synced" then "network-transmit-receive"
  else if status = "connecting" then "network-transmit"
  else if status = "paused" then "media-playback-pause"
  else if status = "offline" then "network-offline"
  else "dialog-error"

/-! ## Building -/

/-- The items of the groups, from the counter on, and the counter after them. -/
def groupItems : List GroupSummary → ℕ → List MenuItem × ℕ
  | [], ids => ([], ids)
  | g :: groups, ids =>
    let item :=
      { header (nthId (ids + 1)) (g.name ++ " — " ++ groupLine g) with icon := some "system-users" }
    let (items, ids) := groupItems groups (ids + 1)
    (item :: items, ids)

/-- The item of a drive, with its two entries: three ids. -/
def driveItem (d : DriveStatusEntry) (ids : ℕ) : MenuItem :=
  let pause :=
    { text (nthId (ids + 2)) (if d.paused then "Resume" else "Pause") with
      action := some (.togglePause d.name (!d.paused)) }
  let remove :=
    { text (nthId (ids + 3)) "Remove" with action := some (.removeDrive d.name) }
  { header (nthId (ids + 1)) (d.name ++ " — " ++ d.status) with
    icon := some (driveIcon d.status)
    children := [pause, remove] }

def driveItems : List DriveStatusEntry → ℕ → List MenuItem × ℕ
  | [], ids => ([], ids)
  | d :: drives, ids =>
    let (items, after) := driveItems drives (ids + 3)
    (driveItem d ids :: items, after)

/-- The title, the peer, and the console between two separators. -/
def topItems (snap : StatusSnapshot) : List MenuItem × ℕ :=
  let title := header (nthId 1) ("ph-reactor " ++ snap.version ++ " — " ++ stateLine snap)
  let (items, ids) : List MenuItem × ℕ :=
    match snap.reactor.peerId with
    | some peer => ([title, header (nthId 2) (shortPeer peer)], 2)
    | none => ([title], 1)
  let console :=
    { text (nthId (ids + 2)) "Open console…" with
      icon := some "applications-internet"
      action := some .openConsole }
  (items ++ [separator (nthId (ids + 1)), console, separator (nthId (ids + 3))], ids + 3)

/-- The groups, if there are any. -/
def teamItems (groups : List GroupSummary) (ids : ℕ) : List MenuItem × ℕ :=
  if groups.isEmpty then ([], ids)
  else
    let (children, after) := groupItems groups (ids + 1)
    ([{ header (nthId (ids + 1)) "Teams" with children }], after)

/-- The drives, if there are any.  The id of their header is taken in any case. -/
def drivesItems (drives : List DriveStatusEntry) (ids : ℕ) : List MenuItem × ℕ :=
  let (children, after) := driveItems drives (ids + 1)
  if children.isEmpty then ([], after)
  else
    ([{ header (nthId (ids + 1)) "Drives" with children }, separator (nthId (after + 1))],
      after + 1)

/-- Builds the menu. -/
def buildMenu (snap : StatusSnapshot) : MenuItem :=
  let (top, ids) := topItems snap
  let (teams, ids) := teamItems snap.groups ids
  let (drives, ids) := drivesItems snap.drives ids
  let quit :=
    { text (nthId (ids + 1)) "Quit ph-reactor" with
      icon := some "application-exit"
      action := some .quit }
  { text 0 "ph-reactor" with children := top ++ teams ++ drives ++ [quit] }

/-! ## Searching -/

mutual
/-- Finds an item by id anywhere in the tree. -/
def find (root : MenuItem) (id : U32) : Option MenuItem :=
  match root with
  | ⟨i, _, _, _, _, _, _, children⟩ => if i = id then some root else findIn children id

def findIn (items : List MenuItem) (id : U32) : Option MenuItem :=
  match items with
  | [] => none
  | item :: rest =>
    match find item id with
    | some found => some found
    | none => findIn rest id
end

/-- The action carried by the item with `id`, if any. -/
def actionForId (root : MenuItem) (id : U32) : Option Action :=
  (find root id).bind fun item => if item.enabled then item.action else none

/-! ## Layouts -/

inductive PropValue where
  | str (s : String)
  | bool (b : Bool)
  deriving DecidableEq

/-- One node of the layout that a host draws. -/
structure LayoutItem where
  id : U32
  props : Std.ExtTreeMap String PropValue
  children : List LayoutItem

/-- The item properties the host wants.  Defaults are omitted. -/
def propsOf (item : MenuItem) (filter : List String) : Std.ExtTreeMap String PropValue :=
  let put (props : Std.ExtTreeMap String PropValue) (key : String) (needed : Bool)
      (value : PropValue) : Std.ExtTreeMap String PropValue :=
    if needed && (filter.isEmpty || filter.contains key) then props.insert key value else props
  match item.kind with
  | .separator => put ∅ "type" true (.str "separator")
  | .text =>
    let props := put ∅ "label" true (.str item.label)
    let props := put props "enabled" (!item.enabled) (.bool false)
    let props := put props "visible" (!item.visible) (.bool false)
    let props :=
      match item.icon with
      | some icon => put props "icon-name" true (.str icon)
      | none => props
    put props "children-display" (!item.children.isEmpty) (.str "submenu")

mutual
/-- The layout of an item, `depth` levels below it; `-1` means every level. -/
def build (item : MenuItem) (depth : Int) (filter : List String) : LayoutItem :=
  match item with
  | ⟨id, _, _, _, _, _, _, children⟩ =>
    ⟨id, propsOf item filter,
      if depth = 0 then [] else buildIn children (if depth = -1 then -1 else depth - 1) filter⟩

/-- The layouts of the visible items. -/
def buildIn (items : List MenuItem) (depth : Int) (filter : List String) : List LayoutItem :=
  match items with
  | [] => []
  | item :: rest =>
    if item.visible then build item depth filter :: buildIn rest depth filter
    else buildIn rest depth filter
end

/-- Builds the layout for the subtree rooted at `parent`. -/
def layout (root : MenuItem) (parent : U32) (depth : Int) (filter : List String) :
    Option LayoutItem := (find root parent).map fun item => build item depth filter

mutual
/-- The ids a layout shows. -/
def LayoutItem.ids : LayoutItem → List U32
  | ⟨id, _, children⟩ => id :: idsIn children

def idsIn : List LayoutItem → List U32
  | [] => []
  | item :: rest => item.ids ++ idsIn rest
end

/-! ## What the items offer -/

/-- What a click on an item is answered with. -/
def MenuItem.offered (item : MenuItem) : Option Action := if item.enabled then item.action else none

mutual
/-- The ids of a tree in the order in which it is searched, with what the items offer. -/
def MenuItem.offers (item : MenuItem) : List (U32 × Option Action) :=
  match item with
  | ⟨id, _, _, _, _, _, _, children⟩ => (id, item.offered) :: offersIn children

def offersIn : List MenuItem → List (U32 × Option Action)
  | [] => []
  | item :: rest => item.offers ++ offersIn rest
end

mutual
theorem find_offered (root : MenuItem) (id : U32) :
    (find root id).map MenuItem.offered = (root.offers.find? fun p => p.1 = id).map Prod.snd := by
  match root with
  | ⟨i, kind, label, enabled, visible, icon, action, children⟩ =>
    rw [find, MenuItem.offers, List.find?_cons]
    by_cases h : i = id
    · rw [if_pos h, decide_eq_true h]
      rfl
    · rw [if_neg h, decide_eq_false h]
      exact findIn_offered children id

theorem findIn_offered (items : List MenuItem) (id : U32) :
    (findIn items id).map MenuItem.offered = ((offersIn items).find? fun p => p.1 = id).map
      Prod.snd := by
  match items with
  | [] => rfl
  | item :: rest =>
    have hitem := find_offered item id
    rw [findIn, offersIn, List.find?_append]
    cases hfind : find item id with
    | some found =>
      rw [hfind] at hitem
      obtain ⟨p, hp, -⟩ := Option.map_eq_some_iff.mp hitem.symm
      rw [hp, Option.some_or, ← hp]
      exact hitem
    | none =>
      rw [hfind] at hitem
      rw [Option.map_eq_none_iff.mp hitem.symm, Option.none_or]
      exact findIn_offered rest id
end

theorem actionForId_eq (root : MenuItem) (id : U32) :
    actionForId root id = ((root.offers.find? fun p => p.1 = id).map Prod.snd).join := by
  rw [← find_offered]
  unfold actionForId MenuItem.offered
  cases find root id <;> rfl

@[simp] theorem offersIn_append (items items' : List MenuItem) :
    offersIn (items ++ items') = offersIn items ++ offersIn items' := by
  induction items with
  | nil => rfl
  | cons item items ih => rw [List.cons_append, offersIn, offersIn, ih, List.append_assoc]

/-! ## Counting -/

/-- Slots with the ids they get, the counter at `n` for the first. -/
def numbered (n : ℕ) : List (Option Action) → List (U32 × Option Action)
  | [] => []
  | slot :: slots => (nthId n, slot) :: numbered (n + 1) slots

theorem numbered_append (l l' : List (Option Action)) : ∀ n,
    numbered n (l ++ l') = numbered n l ++ numbered (n + l.length) l' := by
  induction l with
  | nil => exact fun n => rfl
  | cons slot l ih =>
    intro n
    rw [List.cons_append, numbered, numbered, ih, List.cons_append, List.length_cons,
      Nat.add_assoc, Nat.add_comm 1]

/-- An id that the counter has not passed yet is the one it counts to. -/
theorem nthId_eq_iff {n : ℕ} {id : U32} (h : n ≤ id.val) : nthId n = id ↔ n = id.val := by
  unfold nthId
  rw [Fin.ext_iff, Fin.val_ofNat, Nat.mod_eq_of_lt (Nat.lt_of_le_of_lt h id.isLt)]

/-- **An id counts the slots.** -/
theorem find?_numbered (id : U32) : ∀ (slots : List (Option Action)) (n : ℕ), n ≤ id.val →
    (numbered n slots).find? (fun p => p.1 = id) = (slots[id.val - n]?).map fun s => (id, s) := by
  intro slots
  induction slots with
  | nil => exact fun n _ => rfl
  | cons slot slots ih =>
    intro n hn
    rw [numbered, List.find?_cons]
    by_cases heq : nthId n = id
    · have hval := (nthId_eq_iff hn).mp heq
      rw [decide_eq_true heq, heq, hval, Nat.sub_self]
      rfl
    · have hne : n ≠ id.val := fun h => heq ((nthId_eq_iff hn).mpr h)
      have hsub : id.val - n = id.val - (n + 1) + 1 := by omega
      rw [decide_eq_false heq, ih (n + 1) (by omega), hsub, List.getElem?_cons_succ]

/-! ## The slots of a menu -/

def driveSlots (d : DriveStatusEntry) : List (Option Action) :=
  [none, some (.togglePause d.name (!d.paused)), some (.removeDrive d.name)]

def topSlots (snap : StatusSnapshot) : List (Option Action) :=
  none :: (if snap.reactor.peerId.isSome then [none] else []) ++ [none, some .openConsole, none]

def teamSlots (groups : List GroupSummary) : List (Option Action) :=
  if groups.isEmpty then [] else none :: groups.map fun _ => none

/-- The header comes first, whether or not it is in the menu. -/
def drivesSlots (drives : List DriveStatusEntry) : List (Option Action) :=
  none :: if drives.isEmpty then [] else drives.flatMap driveSlots ++ [none]

/-- **What the items of a menu offer**, in the order of their ids, the root first. -/
def slots (snap : StatusSnapshot) : List (Option Action) :=
  none :: topSlots snap ++ teamSlots snap.groups ++ drivesSlots snap.drives ++ [some .quit]

/-- What the item with that id offers, counted off the snapshot. -/
def slotAt (snap : StatusSnapshot) (id : U32) : Option Action := ((slots snap)[id.val]?).join

theorem groupItems_spec : ∀ (groups : List GroupSummary) (ids : ℕ),
    offersIn (groupItems groups ids).1 = numbered (ids + 1) (groups.map fun _ => none) ∧
      (groupItems groups ids).2 = ids + groups.length := by
  intro groups
  induction groups with
  | nil => exact fun ids => ⟨rfl, rfl⟩
  | cons g groups ih =>
    intro ids
    obtain ⟨hoffers, hids⟩ := ih (ids + 1)
    constructor
    · show (nthId (ids + 1), none) :: ([] ++ offersIn (groupItems groups (ids + 1)).1) = _
      rw [hoffers]
      rfl
    · show (groupItems groups (ids + 1)).2 = _
      rw [hids, List.length_cons]
      omega

theorem driveItems_spec : ∀ (drives : List DriveStatusEntry) (ids : ℕ),
    offersIn (driveItems drives ids).1 = numbered (ids + 1) (drives.flatMap driveSlots) ∧
      (driveItems drives ids).2 = ids + (drives.flatMap driveSlots).length ∧
      (driveItems drives ids).1.isEmpty = drives.isEmpty := by
  intro drives
  induction drives with
  | nil => exact fun ids => ⟨rfl, rfl, rfl⟩
  | cons d drives ih =>
    intro ids
    obtain ⟨hoffers, hids, -⟩ := ih (ids + 3)
    refine ⟨?_, ?_, rfl⟩
    · show (driveItem d ids).offers ++ offersIn (driveItems drives (ids + 3)).1 = _
      rw [hoffers]
      rfl
    · show (driveItems drives (ids + 3)).2 = _
      rw [hids, List.flatMap_cons, List.length_append]
      show _ = ids + (3 + _)
      omega

theorem topItems_spec (snap : StatusSnapshot) :
    offersIn (topItems snap).1 = numbered 1 (topSlots snap) ∧
      (topItems snap).2 = (topSlots snap).length := by
  unfold topItems topSlots
  cases snap.reactor.peerId with
  | none => exact ⟨rfl, rfl⟩
  | some peer => exact ⟨rfl, rfl⟩

theorem teamItems_spec (groups : List GroupSummary) (ids : ℕ) :
    offersIn (teamItems groups ids).1 = numbered (ids + 1) (teamSlots groups) ∧
      (teamItems groups ids).2 = ids + (teamSlots groups).length := by
  unfold teamItems teamSlots
  by_cases hempty : groups.isEmpty = true
  · rw [if_pos hempty, if_pos hempty]
    exact ⟨rfl, rfl⟩
  · rw [if_neg hempty, if_neg hempty]
    obtain ⟨hoffers, hids⟩ := groupItems_spec groups (ids + 1)
    constructor
    · show (nthId (ids + 1), none) :: offersIn (groupItems groups (ids + 1)).1 ++ [] = _
      rw [hoffers, List.append_nil]
      rfl
    · show (groupItems groups (ids + 1)).2 = _
      rw [hids, List.length_cons, List.length_map]
      omega

/-- Where there are drives, their slots are numbered through. -/
theorem drivesItems_spec {drives : List DriveStatusEntry} (hdrives : drives.isEmpty = false)
    (ids : ℕ) : offersIn (drivesItems drives ids).1 = numbered (ids + 1) (drivesSlots drives) ∧
      (drivesItems drives ids).2 = ids + (drivesSlots drives).length := by
  obtain ⟨hoffers, hids, hempty⟩ := driveItems_spec drives (ids + 1)
  unfold drivesItems drivesSlots
  dsimp only
  rw [hempty, hdrives, if_neg Bool.false_ne_true, if_neg Bool.false_ne_true]
  constructor
  · show ((nthId (ids + 1), none) :: offersIn (driveItems drives (ids + 1)).1) ++
      [(nthId ((driveItems drives (ids + 1)).2 + 1), none)] = _
    rw [hoffers, hids, numbered, numbered_append, List.cons_append, Nat.add_right_comm (ids + 1)]
    rfl
  · show (driveItems drives (ids + 1)).2 + 1 = _
    rw [hids, List.length_cons, List.length_append, List.length_singleton]
    omega

/-- The slots before the drives. -/
theorem offers_buildMenu (snap : StatusSnapshot) : (buildMenu snap).offers =
    numbered 0 (none :: topSlots snap ++ teamSlots snap.groups) ++
      offersIn (drivesItems snap.drives
        ((topSlots snap).length + (teamSlots snap.groups).length)).1 ++
      [(nthId ((drivesItems snap.drives
        ((topSlots snap).length + (teamSlots snap.groups).length)).2 + 1), some .quit)] := by
  obtain ⟨htop, htopIds⟩ := topItems_spec snap
  obtain ⟨hteam, hteamIds⟩ := teamItems_spec snap.groups (topSlots snap).length
  have hunfold : (buildMenu snap).offers = (0, none) :: offersIn ((topItems snap).1 ++
      (teamItems snap.groups (topItems snap).2).1 ++
      (drivesItems snap.drives (teamItems snap.groups (topItems snap).2).2).1 ++
      [{ text (nthId ((drivesItems snap.drives
          (teamItems snap.groups (topItems snap).2).2).2 + 1)) "Quit ph-reactor" with
        icon := some "application-exit"
        action := some .quit }]) := rfl
  rw [hunfold, htopIds, hteamIds, offersIn_append, offersIn_append, offersIn_append, htop, hteam,
    numbered_append, numbered, List.length_cons]
  simp only [Nat.zero_add]
  rfl

/-- An id that is left out: no item has it, and the next slot keeps its place. -/
theorem find?_numbered_gap (l : List (Option Action)) (last : Option Action) (id : U32) :
    (((numbered 0 l ++ [(nthId (l.length + 1), last)]).find? fun p => p.1 = id).map Prod.snd).join =
      ((l ++ [none, last])[id.val]?).join := by
  rw [List.find?_append, find?_numbered id l 0 (Nat.zero_le _), Nat.sub_zero]
  by_cases hlt : id.val < l.length
  · rw [List.getElem?_append_left hlt, List.getElem?_eq_getElem hlt]
    rfl
  · rw [List.getElem?_append_right (by omega), List.getElem?_eq_none (by omega), Option.map_none,
      Option.none_or, List.find?_singleton]
    have hid := id.isLt
    by_cases hnext : id.val = l.length + 1
    · have hnth : nthId (l.length + 1) = id := (nthId_eq_iff (by omega)).mpr hnext.symm
      rw [hnth, hnext, decide_eq_true rfl, Nat.add_sub_cancel_left]
      rfl
    · -- one past the last id there is, the counter starts over
      have hnth : nthId (l.length + 1) ≠ id := by
        unfold nthId
        rw [Ne, Fin.ext_iff, Fin.val_ofNat]
        omega
      rw [decide_eq_false hnth]
      obtain h | h : id.val - l.length = 0 ∨ 2 ≤ id.val - l.length := by omega
      · rw [h]
        rfl
      · rw [List.getElem?_eq_none (by simpa using h)]
        rfl

/-- **What a menu does when an item is clicked**, counted off the snapshot it was built from. -/
theorem actionForId_buildMenu (snap : StatusSnapshot) (id : U32) :
    actionForId (buildMenu snap) id = slotAt snap id := by
  rw [actionForId_eq, offers_buildMenu]
  unfold slotAt slots
  have hlength : (none :: topSlots snap ++ teamSlots snap.groups).length =
      (topSlots snap).length + (teamSlots snap.groups).length + 1 := by
    rw [List.length_append, List.length_cons]
    omega
  cases hdrives : snap.drives.isEmpty with
  | true =>
    rw [List.isEmpty_iff.mp hdrives]
    have hgap := find?_numbered_gap (none :: topSlots snap ++ teamSlots snap.groups) (some .quit) id
    rw [hlength] at hgap
    have hnil : ∀ ids, drivesItems [] ids = ([], ids + 1) := fun ids => rfl
    rw [hnil, offersIn, List.append_nil, show drivesSlots [] = [none] from rfl,
      List.append_assoc _ [none]]
    exact hgap
  | false =>
    obtain ⟨hoffers, hids⟩ := drivesItems_spec hdrives
      ((topSlots snap).length + (teamSlots snap.groups).length)
    have hall : numbered 0 (none :: topSlots snap ++ teamSlots snap.groups ++
        drivesSlots snap.drives ++ [some .quit]) =
        numbered 0 (none :: topSlots snap ++ teamSlots snap.groups) ++
          offersIn (drivesItems snap.drives
            ((topSlots snap).length + (teamSlots snap.groups).length)).1 ++
          [(nthId ((drivesItems snap.drives
            ((topSlots snap).length + (teamSlots snap.groups).length)).2 + 1), some .quit)] := by
      rw [numbered_append, numbered_append, hoffers, hids, hlength, List.length_append, hlength,
        Nat.zero_add, Nat.zero_add, Nat.add_right_comm _ 1]
      rfl
    rw [← hall, find?_numbered id _ 0 (Nat.zero_le _), Nat.sub_zero, Option.map_map]
    exact congrArg Option.join Option.map_id'

/-! ## Menus of one shape -/

/-- The two snapshots give menus that differ in their texts only. -/
structure SameShape (snap snap' : StatusSnapshot) : Prop where
  peer : snap.reactor.peerId.isSome = snap'.reactor.peerId.isSome
  groups : snap.groups.length = snap'.groups.length
  drives : (snap.drives.map fun d => (d.name, d.paused)) =
    snap'.drives.map fun d => (d.name, d.paused)

theorem SameShape.slotAt_eq {snap snap' : StatusSnapshot} (h : SameShape snap snap') (id : U32) :
    slotAt snap id = slotAt snap' id := by
  have hteams : ∀ groups : List GroupSummary,
      teamSlots groups =
        List.replicate (if groups.length = 0 then 0 else groups.length + 1) none := by
    intro groups
    unfold teamSlots
    cases groups with
    | nil => rfl
    | cons g groups =>
      show none :: none :: groups.map (fun _ => none) = _
      rw [List.map_const']
      rfl
  have hdrives : ∀ drives : List DriveStatusEntry, drivesSlots drives =
      none :: if (drives.map fun d => (d.name, d.paused)).isEmpty then []
        else ((drives.map fun d => (d.name, d.paused)).flatMap fun p =>
          [none, some (.togglePause p.1 (!p.2)), some (.removeDrive p.1)]) ++ [none] := by
    intro drives
    rw [List.isEmpty_map, List.flatMap_map]
    rfl
  unfold slotAt slots topSlots
  rw [h.peer, hteams, hteams, h.groups, hdrives, hdrives, h.drives]

/-! ## Whole layouts -/

mutual
/-- Every item of the tree is shown. -/
def MenuItem.allVisible (item : MenuItem) : Bool :=
  match item with
  | ⟨_, _, _, _, visible, _, _, children⟩ => visible && allVisibleIn children

def allVisibleIn : List MenuItem → Bool
  | [] => true
  | item :: rest => item.allVisible && allVisibleIn rest
end

theorem allVisibleIn_append (items items' : List MenuItem) :
    allVisibleIn (items ++ items') = (allVisibleIn items && allVisibleIn items') := by
  induction items with
  | nil => rfl
  | cons item items ih => rw [List.cons_append, allVisibleIn, allVisibleIn, ih, Bool.and_assoc]

theorem allVisibleIn_groupItems : ∀ (groups : List GroupSummary) (ids : ℕ),
    allVisibleIn (groupItems groups ids).1 = true := by
  intro groups
  induction groups with
  | nil => exact fun ids => rfl
  | cons g groups ih => exact fun ids => ih (ids + 1)

theorem allVisibleIn_driveItems : ∀ (drives : List DriveStatusEntry) (ids : ℕ),
    allVisibleIn (driveItems drives ids).1 = true := by
  intro drives
  induction drives with
  | nil => exact fun ids => rfl
  | cons d drives ih => exact fun ids => ih (ids + 3)

/-- Nothing in a menu is hidden. -/
theorem allVisible_buildMenu (snap : StatusSnapshot) : (buildMenu snap).allVisible = true := by
  have htop : allVisibleIn (topItems snap).1 = true := by
    unfold topItems
    cases snap.reactor.peerId <;> rfl
  have hteams : ∀ ids, allVisibleIn (teamItems snap.groups ids).1 = true := by
    intro ids
    unfold teamItems
    split
    · rfl
    · show (true && allVisibleIn (groupItems snap.groups (ids + 1)).1 && true) = true
      rw [allVisibleIn_groupItems]
      rfl
  have hdrives : ∀ ids, allVisibleIn (drivesItems snap.drives ids).1 = true := by
    intro ids
    unfold drivesItems
    dsimp only
    split
    · rfl
    · show (true && allVisibleIn (driveItems snap.drives (ids + 1)).1 && true) = true
      rw [allVisibleIn_driveItems]
      rfl
  show (true && allVisibleIn ((topItems snap).1 ++ (teamItems snap.groups (topItems snap).2).1 ++
    (drivesItems snap.drives (teamItems snap.groups (topItems snap).2).2).1 ++ [_])) = true
  rw [allVisibleIn_append, allVisibleIn_append, allVisibleIn_append, htop, hteams, hdrives]
  rfl

mutual
/-- A layout of every level shows the whole tree, if nothing is hidden. -/
theorem ids_build (item : MenuItem) (filter : List String) (h : item.allVisible = true) :
    (build item (-1) filter).ids = item.offers.map Prod.fst := by
  match item with
  | ⟨id, kind, label, enabled, visible, icon, action, children⟩ =>
    rw [MenuItem.allVisible, Bool.and_eq_true] at h
    rw [build, LayoutItem.ids, MenuItem.offers, List.map_cons, if_neg (by decide), if_pos rfl,
      idsIn_buildIn children filter h.2]

theorem idsIn_buildIn (items : List MenuItem) (filter : List String)
    (h : allVisibleIn items = true) :
    idsIn (buildIn items (-1) filter) = (offersIn items).map Prod.fst := by
  match items with
  | [] => rfl
  | item :: rest =>
    rw [allVisibleIn, Bool.and_eq_true] at h
    have hvisible : item.visible = true := by
      obtain ⟨id, kind, label, enabled, visible, icon, action, children⟩ := item
      have hitem := h.1
      rw [MenuItem.allVisible, Bool.and_eq_true] at hitem
      exact hitem.1
    rw [buildIn, if_pos hvisible, idsIn, offersIn, List.map_append, ids_build item filter h.1,
      idsIn_buildIn rest filter h.2]
end

/-- What `GetLayout` answers for the root and every level. -/
theorem layout_root (snap : StatusSnapshot) (filter : List String) :
    layout (buildMenu snap) 0 (-1) filter = some (build (buildMenu snap) (-1) filter) := rfl

/-- **The whole layout shows every item that offers something.** -/
theorem mem_ids_of_slotAt {snap : StatusSnapshot} {id : U32} {action : Action}
    (h : slotAt snap id = some action) (filter : List String) :
    id ∈ (build (buildMenu snap) (-1) filter).ids := by
  rw [← actionForId_buildMenu, actionForId_eq] at h
  rw [ids_build _ filter (allVisible_buildMenu snap)]
  cases hfind : (buildMenu snap).offers.find? fun p => p.1 = id with
  | none =>
    rw [hfind] at h
    cases h
  | some p =>
    have hid := List.find?_some hfind
    exact List.mem_map.mpr ⟨p, List.mem_of_find?_eq_some hfind, of_decide_eq_true hid⟩

end PhReactor.Tray
