/-
  Migrating a `group@1` document to a space with chats and a drive (`src/settings/migrate.rs`).

  1. `planFor` reads a group's row; `Plan.describe` is the dry run; `applyOne` is the execution.
     The announced counts are those of the plan (`announced_describe`).

  2. `applyOne` deletes the group, creates the space under its name, a chat for every channel and a
     drive.  What each creation finds depends on those before it: `Progress` says what is there
     after some of them, and `progress_step` what one more does.

  3. Hence, from the state BEFORE: a run goes through exactly if `GoesThrough`, it leaves the
     documents of the plan if it does, and the group is gone in any case (`applyOne_outcome`).

  A draw for each call: its id is used by the calls that make one up.
-/
import PhReactor.Query
import PhReactor.Sample
import PhReactor.Store.Authoring
import PhReactor.Store.TamperEvidence

set_option linter.unusedSectionVars false

namespace PhReactor

/-! ## The plan -/

/-- What migrating one group would do. -/
structure Plan where
  group : String
  groupId : String
  spaceId : DocId
  members : List String
  managers : List String
  /-- Document name, channel name, message count. -/
  chats : List (String × String × ℕ)
  driveItems : List Value
  driveDoc : String

namespace DocRow

/-- An array field of a row. -/
def arr (d : DocRow) (k : String) : List Value := ((d.fields[k]?).bind Value.asArray?).getD []

/-- The strings of an array field. -/
def strs (d : DocRow) (k : String) : List String := (d.arr k).filterMap Value.asStr?

/-- The channels that get a chat. -/
def channelNames (d : DocRow) : List String :=
  if (d.arr "channels").isEmpty then ["general"]
  else (d.arr "channels").filterMap fun c => (c.get? "name").bind Value.asStr?

/-- The number of messages that is announced for a channel. -/
def messageCount (d : DocRow) (chan : String) : ℕ :=
  let n := (d.strs "msg_channel").countP fun c => c == chan
  -- a group whose messages predate channel tagging has them all in `general`
  if (d.strs "msg_channel").isEmpty && chan == "general" then (d.strs "msg_text").length else n

end DocRow

section

variable [Primitives]

/-- A stable id derived from `seed`: the first 16 bytes of its SHA-256. -/
def derivedId (seed : String) : DocId :=
  Fin.ofNat _ ((Primitives.sha256 (strBytes seed)).val / 2 ^ 128)

/-- `plan_for`.  A row has a name, so there is a plan for it. -/
def planFor (d : DocRow) (groupId : String) : Plan where
  group := d.name
  groupId := groupId
  spaceId := derivedId ("space:" ++ groupId)
  members := d.strs "members"
  managers := d.strs "managers"
  chats := d.channelNames.map fun chan => (d.name ++ "-" ++ chan, chan, d.messageCount chan)
  driveItems := d.arr "drive"
  driveDoc := d.name ++ "-drive"

/-- The plans of a node: of every group, or of the one that is asked for. -/
def plans (s : Inner) (group : Option String) : List Plan :=
  ((queryDocs s "group" none).filter fun d => group.all fun g => d.name == g).filterMap fun d =>
    (Store.get s d.name).map fun doc => planFor d (Store.docIdText doc.id)

namespace Plan

/-- The dry run. -/
def describe (p : Plan) : Value :=
  .object [
    ("creates", .object [
      ("chats", .array (p.chats.map fun (doc, chan, n) => .object [("channel", .string chan),
        ("doc", .string doc), ("messages", .number (.posInt (Fin.ofNat _ n)))])),
      ("drive", .object [("doc", .string p.driveDoc),
        ("items", .number (.posInt (Fin.ofNat _ p.driveItems.length)))]),
      ("space", .object [("id", .string (Store.docIdText p.spaceId)),
        ("managers", .array (p.managers.map .string)), ("members", .array (p.members.map .string)),
        ("name", .string p.group), ("visibility", .string "protected")])]),
    ("deletes", .object [("doc", .string p.group),
      ("why", .string "the space takes this name; the group's action log stays on disk")]),
    ("group", .string p.group),
    ("groupDocId", .string p.groupId),
    ("notes", .array [
      .string ("The new space is protected: members only. That is the closest tier " ++
        "to what a group was, and it cannot be changed afterwards."),
      .string ("Messages are carried over as content, not as signed history: each " ++
        "becomes a line in the new chat document, authored by whoever is " ++
        "running this migration. The original signatures stay in the group's " ++
        "log, which is not deleted.")])]

/-- The chats of a dry run, read back: document, channel and count. -/
def announced (dryRun : Value) : List (Option String × Option String × Option U64) :=
  ((((dryRun.get? "creates").bind (Value.get? · "chats")).bind Value.asArray?).getD []).map
    fun c => ((c.get? "doc").bind Value.asStr?, (c.get? "channel").bind Value.asStr?,
      (c.get? "messages").bind Value.asU64?)

/-- **What the dry run announces** is what the plan says. -/
theorem announced_describe (p : Plan) : announced p.describe =
    p.chats.map fun c => (some c.1, some c.2.1, some (Fin.ofNat _ c.2.2)) := by
  show (p.chats.map _).map _ = _
  rw [List.map_map]
  rfl

end Plan

/-! ## The execution -/

/-- The `init` payload of a chat. -/
def chatPayload (doc chan : String) : Value :=
  .object [("channel", .string chan), ("name", .string doc)]

/-- The `init` payload of a drive. -/
def drivePayload (doc : String) : Value := .object [("name", .string doc)]

/-- `apply_one`'s loop over the chats. -/
def createChats (s : Inner) (w : ℕ → Draw) (space : DocId) :
    List (String × String × ℕ) → ℕ → Inner × Except String Unit
  | [], _ => (s, .ok ())
  | (doc, chan, _) :: rest, i =>
    match Store.createDocInSpace s (w i).io (w i).now (w i).id doc (ModelRef.new "chat" "1")
        (chatPayload doc chan) (some space) with
    | (s, .error e) => (s, .error ("could not create chat '" ++ doc ++ "': " ++ e))
    | (s, .ok _) => createChats s w space rest (i + 1)

/-- `apply_one`'s space. -/
def createSpace (s : Inner) (w : Draw) (p : Plan) : Inner × Except String DocId :=
  Store.createSpaceAt s w.io w.now p.spaceId p.group
    (spacePayload p.group "protected" p.members p.managers)

/-- `apply_one`'s drive. -/
def createDrive (s : Inner) (w : Draw) (p : Plan) : Inner × Except String DocId :=
  Store.createDocInSpace s w.io w.now w.id p.driveDoc (ModelRef.new "drive" "1")
    (drivePayload p.driveDoc) (some p.spaceId)

/-- What `apply_one` creates, once the group is gone. -/
def createAll (s : Inner) (w : ℕ → Draw) (p : Plan) : Inner × Except String Unit :=
  match createSpace s (w 1) p with
  | (s, .error e) => (s, .error ("could not create the space: " ++ e))
  | (s, .ok _) =>
    match createChats s w p.spaceId p.chats 2 with
    | (s, .error e) => (s, .error e)
    | (s, .ok ()) =>
      match createDrive s (w (2 + p.chats.length)) p with
      | (s, .error e) => (s, .error ("could not create drive '" ++ p.driveDoc ++ "': " ++ e))
      | (s, .ok _) => (s, .ok ())

/-- Is the group's name that of the new space already. -/
def Plan.stands (p : Plan) (s : Inner) : Bool :=
  (Store.get s p.group).map Doc.id == some p.spaceId

/-- `apply_one`. -/
def applyOne (s : Inner) (w : ℕ → Draw) (p : Plan) : Inner × Except String Unit :=
  -- a second run finds the space already there and stops
  if p.stands s then (s, .ok ())
  else
    match Store.deleteDoc s (w 0).io (w 0).now p.group with
    | (s, .error e) => (s, .error ("could not retire the group document: " ++ e))
    | (s, .ok _) => createAll s w p

/-! ## What a run finds on its way -/

/-- The documents a plan creates in the space. -/
def Plan.created (p : Plan) : List String := p.chats.map Prod.fst ++ [p.driveDoc]

/-- A live document of that name, in that space. -/
def InSpace (s : Inner) (name : String) (space : DocId) : Prop :=
  ∃ id e, s.names[name]? = some id ∧ s.entries[id]? = some e ∧ e.deleted = false ∧
    e.space = some space

/-- The group is live under its name. -/
structure GroupStands (s : Inner) (p : Plan) (gid : DocId) (e : Entry) : Prop where
  named : s.names[p.group]? = some gid
  here : s.entries[gid]? = some e
  live : e.deleted = false
  id : e.doc.id = gid

/-- How many draws a run takes. -/
def Plan.draws (p : Plan) : ℕ := p.chats.length + 3

/-- The ids that a run makes up are new. -/
structure FreshDraws (w : ℕ → Draw) (p : Plan) (gid : DocId) : Prop where
  distinct : ∀ i < p.draws, ∀ j < i, (w i).id ≠ (w j).id
  group : ∀ i < p.draws, (w i).id ≠ gid
  space : ∀ i < p.draws, (w i).id ≠ p.spaceId

instance (w : ℕ → Draw) (p : Plan) (gid : DocId) : Decidable (FreshDraws w p gid) :=
  decidable_of_iff ((∀ i < p.draws, ∀ j < i, (w i).id ≠ (w j).id) ∧
      (∀ i < p.draws, (w i).id ≠ gid) ∧ ∀ i < p.draws, (w i).id ≠ p.spaceId)
    ⟨fun ⟨hdistinct, hgroup, hspace⟩ => ⟨hdistinct, hgroup, hspace⟩,
    fun h => ⟨h.distinct, h.group, h.space⟩⟩

/-- The document is deleted. -/
def Gone (s : Inner) (id : DocId) : Prop := ∃ e, s.entries[id]? = some e ∧ e.deleted = true

/-- A run that started in `s` has come to `u`: the group is gone, the space is there, and so are the
    documents `done`, with ids from the first `i` draws. -/
structure Progress (s : Inner) (w : ℕ → Draw) (p : Plan) (gid : DocId) (done : List String) (i : ℕ)
    (u : Inner) : Prop where
  authors : u.Authors
  builtIn : u.models.BuiltIn
  origin : u.origin = s.origin
  gone : Gone u gid
  space : ∃ e, u.entries[p.spaceId]? = some e ∧ e.deleted = false ∧ e.doc.id = p.spaceId ∧
    Inner.listOf e.doc "members" = p.members
  group : u.names[p.group]? = some p.spaceId
  names : ∀ n, u.names.contains n = true ↔ s.names.contains n = true ∨ n ∈ done
  placed : ∀ n ∈ done, ∃ j e, j < i ∧ u.names[n]? = some (w j).id ∧
    u.entries[(w j).id]? = some e ∧ e.deleted = false ∧ e.space = some p.spaceId

/-- A document that a member of the space may create, under the name it is given. -/
structure MemberDoc (r : ModelRegistry) (ref : ModelRef) (m : L1) (payload : Value)
    (name : String) : Prop where
  found : r.find ref = some (.l1 m)
  refName : m.ref_.name = ref.name
  refVersion : m.ref_.version = ref.version
  init : m.MemberInit payload
  names : m.NamesItself
  named : payload.get? "name" = some (.string name)

theorem memberDoc_chat {r : ModelRegistry} (hr : r.BuiltIn) (doc chan : String) :
    MemberDoc r (ModelRef.new "chat" "1") chat (chatPayload doc chan) doc :=
  ⟨hr.chat, rfl, rfl, chat_memberInit doc chan, chat_namesItself, rfl⟩

theorem memberDoc_drive {r : ModelRegistry} (hr : r.BuiltIn) (doc : String) :
    MemberDoc r (ModelRef.new "drive" "1") drive (drivePayload doc) doc :=
  ⟨hr.drive, rfl, rfl, drive_memberInit doc, drive_namesItself, rfl⟩

/-- The name can still be given to a document. -/
def NameLeft (s : Inner) (done : List String) (n : String) : Prop :=
  Store.validateName n = .ok () ∧ s.names.contains n = false ∧ n ∉ done

section

variable {s u : Inner} {w : ℕ → Draw} {p : Plan} {gid : DocId} {done : List String} {i : ℕ}
  {ref : ModelRef} {m : L1} {payload : Value} {n : String}

theorem Progress.nameFree_iff (h : Progress s w p gid done i u) :
    nameFree u n = true ↔ NameLeft s done n := by
  unfold NameLeft
  rw [PhReactor.nameFree_iff, ← Bool.not_eq_true (u.names.contains n), h.names n, not_or,
    Bool.not_eq_true]

/-- **What one more creation does**: the group stays gone; it succeeds if the name is left and the
    node is a member; and then the document is there. -/
theorem progress_step (hw : FreshDraws w p gid) (hi : i < p.draws) (h : Progress s w p gid done i u)
    (hdoc : MemberDoc u.models ref m payload n) :
    Gone (Store.createDocInSpace u (w i).io (w i).now (w i).id n ref payload
      (some p.spaceId)).1 gid ∧
    ((Store.createDocInSpace u (w i).io (w i).now (w i).id n ref payload
      (some p.spaceId)).2.isOk = true ↔ NameLeft s done n ∧ s.origin ∈ p.members) ∧
    ((Store.createDocInSpace u (w i).io (w i).now (w i).id n ref payload
      (some p.spaceId)).2.isOk = true →
      Progress s w p gid (done ++ [n]) (i + 1) (Store.createDocInSpace u (w i).io (w i).now
        (w i).id n ref payload (some p.spaceId)).1) := by
  obtain ⟨hsetup, hframe⟩ := createDocInSpace_frame u (w i).io (w i).now (w i).id n ref payload
    (some p.spaceId)
  obtain ⟨esp, hesp, hlive, hid, hmembers⟩ := h.space
  have hgone : Gone (Store.createDocInSpace u (w i).io (w i).now (w i).id n ref payload
      (some p.spaceId)).1 gid := by
    obtain ⟨e, he, hdel⟩ := h.gone
    refine ⟨e, ?_, hdel⟩
    rw [hframe gid (hw.group i hi).symm]
    exact he
  refine ⟨hgone, ?_, fun hok => ?_⟩
  · rw [isOk_createDocInSpace, h.nameFree_iff, accepts_memberInit_iff h.authors hdoc.found
      hdoc.refName hdoc.refVersion hdoc.init (hw.space i hi).symm, h.origin]
    refine and_congr_right fun _ => ⟨?_, fun hin => ⟨esp, hesp, ?_⟩⟩
    · rintro ⟨e, he, hin⟩
      obtain rfl := Option.some.inj (hesp.symm.trans he)
      rwa [hmembers] at hin
    · rwa [hmembers]
  · obtain ⟨hnames, hentry⟩ := createDocInSpace_ok hdoc.found hdoc.refName hdoc.refVersion
      hdoc.names hdoc.named hok
    have hleft := h.nameFree_iff.mp (isOk_createDocInSpace.mp hok).1
    have hother : ∀ k, k ≠ n → (Store.createDocInSpace u (w i).io (w i).now (w i).id n ref payload
        (some p.spaceId)).1.names[k]? = u.names[k]? := by
      intro k hk
      rw [hnames, Std.ExtTreeMap.getElem?_insert, if_neg]
      exact fun heq => hk (Std.compare_eq_iff_eq.mp heq).symm
    constructor
    · exact h.authors.congr hsetup
    · rw [hsetup.models]
      exact h.builtIn
    · exact hsetup.origin.trans h.origin
    · exact hgone
    · refine ⟨esp, ?_, hlive, hid, hmembers⟩
      rw [hframe _ (hw.space i hi).symm]
      exact hesp
    · rw [hother, h.group]
      rintro rfl
      have htaken := (h.names p.group).mp
        (by rw [Std.ExtTreeMap.contains_eq_isSome_getElem?, h.group]; rfl)
      rcases htaken with htaken | htaken
      · rw [hleft.2.1] at htaken
        cases htaken
      · exact hleft.2.2 htaken
    · intro k
      rw [hnames, Std.ExtTreeMap.contains_insert, Bool.or_eq_true, h.names k, beq_iff_eq,
        Std.compare_eq_iff_eq, List.mem_append, List.mem_singleton]
      constructor
      · rintro (rfl | hk | hk)
        · exact Or.inr (Or.inr rfl)
        · exact Or.inl hk
        · exact Or.inr (Or.inl hk)
      · rintro (hk | hk | rfl)
        · exact Or.inr (Or.inl hk)
        · exact Or.inr (Or.inr hk)
        · exact Or.inl rfl
    · intro k hk
      rcases List.mem_append.mp hk with hk | hk
      · obtain ⟨j, e, hj, hkname, he, hkept⟩ := h.placed k hk
        refine ⟨j, e, Nat.lt_succ_of_lt hj, ?_, ?_, hkept⟩
        · rw [hother k fun heq => hleft.2.2 (heq ▸ hk)]
          exact hkname
        · -- the draws are distinct
          rw [hframe _ (hw.distinct i hi j hj).symm]
          exact he
      · obtain rfl := List.mem_singleton.mp hk
        refine ⟨i, _, Nat.lt_succ_self i, ?_, hentry, deleted_newborn, space_newborn _⟩
        rw [hnames]
        simp

end

section

variable {s : Inner} {w : ℕ → Draw} {p : Plan} {gid : DocId}

/-- One turn of the loop. -/
theorem createChats_cons (u : Inner) (w : ℕ → Draw) (sp : DocId) (doc chan : String) (n : ℕ)
    (rest : List (String × String × ℕ)) (i : ℕ) :
    let made := Store.createDocInSpace u (w i).io (w i).now (w i).id doc (ModelRef.new "chat" "1")
      (chatPayload doc chan) (some sp)
    (made.2.isOk = false ∧ (createChats u w sp ((doc, chan, n) :: rest) i).1 = made.1 ∧
      (createChats u w sp ((doc, chan, n) :: rest) i).2.isOk = false) ∨
    (made.2.isOk = true ∧
      createChats u w sp ((doc, chan, n) :: rest) i = createChats made.1 w sp rest (i + 1)) := by
  intro made
  have hstep : createChats u w sp ((doc, chan, n) :: rest) i =
      match made with
      | (s, .error e) => (s, .error ("could not create chat '" ++ doc ++ "': " ++ e))
      | (s, .ok _) => createChats s w sp rest (i + 1) := rfl
  rw [hstep]
  clear_value made
  obtain ⟨t, r⟩ := made
  cases r with
  | error e => exact Or.inl ⟨rfl, rfl, rfl⟩
  | ok id => exact Or.inr ⟨rfl, rfl⟩

/-- **The loop over the chats.** -/
theorem progress_createChats (chats : List (String × String × ℕ)) (hw : FreshDraws w p gid)
    {done : List String} {i : ℕ} {u : Inner} (hi : i + chats.length < p.draws)
    (h : Progress s w p gid done i u) :
    Gone (createChats u w p.spaceId chats i).1 gid ∧
    ((createChats u w p.spaceId chats i).2.isOk = true ↔
      (∀ n ∈ chats.map Prod.fst, NameLeft s done n) ∧ (chats.map Prod.fst).Nodup ∧
        (chats ≠ [] → s.origin ∈ p.members)) ∧
    ((createChats u w p.spaceId chats i).2.isOk = true →
      Progress s w p gid (done ++ chats.map Prod.fst) (i + chats.length)
        (createChats u w p.spaceId chats i).1) := by
  induction chats generalizing done i u with
  | nil =>
    refine ⟨h.gone, iff_of_true rfl ⟨fun n hn => absurd hn List.not_mem_nil, .nil,
      fun hne => absurd rfl hne⟩, fun _ => ?_⟩
    rw [List.map_nil, List.append_nil]
    exact h
  | cons c rest ih =>
    obtain ⟨doc, chan, n⟩ := c
    rw [List.length_cons] at hi
    obtain ⟨hgone, hok, hnext⟩ :=
      progress_step hw (by omega) h (memberDoc_chat h.builtIn doc chan)
    have hmap : ((doc, chan, n) :: rest).map Prod.fst = doc :: rest.map Prod.fst := rfl
    rw [hmap]
    rcases createChats_cons u w p.spaceId doc chan n rest i with
      ⟨hfail, hstate, hans⟩ | ⟨hmade, heq⟩
    · rw [hstate, hans]
      refine ⟨hgone, ⟨fun hf => (by cases hf), ?_⟩, fun hf => (by cases hf)⟩
      rintro ⟨hleft, -, hmember⟩
      rw [hok.mpr ⟨hleft doc List.mem_cons_self, hmember (List.cons_ne_nil _ _)⟩] at hfail
      cases hfail
    · rw [heq]
      obtain ⟨hleft, hmember⟩ := hok.mp hmade
      obtain ⟨hgone', hok', hprogress⟩ := ih (by omega) (hnext hmade)
      refine ⟨hgone', ?_, fun hrest => ?_⟩
      · rw [hok']
        constructor
        · rintro ⟨hnames, hnodup, -⟩
          refine ⟨fun k hk => ?_, List.nodup_cons.mpr ⟨fun hin => ?_, hnodup⟩, fun _ => hmember⟩
          · rcases List.mem_cons.mp hk with rfl | hk
            · exact hleft
            · obtain ⟨hvalid, hfree, hnew⟩ := hnames k hk
              exact ⟨hvalid, hfree, fun hin => hnew (List.mem_append_left _ hin)⟩
          · exact (hnames doc hin).2.2 (List.mem_append_right _ (List.mem_singleton_self doc))
        · rintro ⟨hnames, hnodup, -⟩
          obtain ⟨hnotin, hnodup⟩ := List.nodup_cons.mp hnodup
          refine ⟨fun k hk => ?_, hnodup, fun _ => hmember⟩
          obtain ⟨hvalid, hfree, hnew⟩ := hnames k (List.mem_cons_of_mem _ hk)
          refine ⟨hvalid, hfree, fun hin => ?_⟩
          rcases List.mem_append.mp hin with hin | hin
          · exact hnew hin
          · obtain rfl := List.mem_singleton.mp hin
            exact hnotin hk
      · have hdone := hprogress hrest
        rw [List.append_assoc, List.singleton_append] at hdone
        rw [List.length_cons, ← Nat.add_assoc, Nat.add_right_comm]
        exact hdone

end

/-- What `get` finds. -/
theorem get_eq_some {s : Inner} {name : String} {doc : Doc} :
    Store.get s name = some doc ↔ ∃ id e, s.names[name]? = some id ∧ s.entries[id]? = some e ∧
      e.deleted = false ∧ doc = e.doc.live := by
  unfold Store.get
  constructor
  · intro hget
    cases hname : s.names[name]? with
    | none =>
      rw [hname] at hget
      cases hget
    | some id =>
      rw [hname, Option.bind_some] at hget
      cases he : s.entries[id]? with
      | none =>
        rw [he] at hget
        cases hget
      | some e =>
        rw [he] at hget
        dsimp only at hget
        split at hget
        · cases hget
        · next hlive =>
          exact ⟨id, e, rfl, he, Bool.eq_false_iff.mpr hlive, (Option.some.inj hget).symm⟩
  · rintro ⟨id, e, hname, he, hlive, rfl⟩
    rw [hname, Option.bind_some, he]
    dsimp only
    rw [hlive, if_neg Bool.false_ne_true]

theorem get_of_entry {s : Inner} {name : String} {id : DocId} {e : Entry}
    (hname : s.names[name]? = some id) (he : s.entries[id]? = some e) (hlive : e.deleted = false) :
    Store.get s name = some e.doc.live :=
  get_eq_some.mpr ⟨id, e, hname, he, hlive, rfl⟩

/-- The plans are those of the rows of groups. -/
theorem mem_plans {s : Inner} {group : Option String} {p : Plan} :
    p ∈ plans s group ↔ ∃ d doc, d ∈ queryDocs s "group" none ∧
      (∀ g ∈ group, d.name = g) ∧ Store.get s d.name = some doc ∧
      p = planFor d (Store.docIdText doc.id) := by
  unfold plans
  rw [List.mem_filterMap]
  constructor
  · rintro ⟨d, hd, hp⟩
    obtain ⟨hrow, hasked⟩ := List.mem_filter.mp hd
    obtain ⟨doc, hget, rfl⟩ := Option.map_eq_some_iff.mp hp
    refine ⟨d, doc, hrow, fun g hg => ?_, hget, rfl⟩
    obtain rfl : group = some g := hg
    exact beq_iff_eq.mp hasked
  · rintro ⟨d, doc, hrow, hasked, hget, rfl⟩
    refine ⟨d, List.mem_filter.mpr ⟨hrow, ?_⟩, by rw [hget]; rfl⟩
    cases group with
    | none => rfl
    | some g => exact beq_iff_eq.mpr (hasked g rfl)

/-- **Every plan is one for a document that is live under the group's name.** -/
theorem plan_stands {s : Inner} {group : Option String} {p : Plan} (hp : p ∈ plans s group)
    (hids : ∀ (id : DocId) (e : Entry), s.entries[id]? = some e → e.doc.id = id) :
    ∃ gid e, GroupStands s p gid e := by
  obtain ⟨d, doc, -, -, hget, rfl⟩ := mem_plans.mp hp
  obtain ⟨gid, e, hname, he, hlive, -⟩ := get_eq_some.mp hget
  exact ⟨gid, e, hname, he, hlive, hids gid e he⟩

/-- The members of a new space are those of its payload. -/
theorem members_newborn (s : Inner) (now : U64) (id : DocId) (ref : ModelRef)
    (name visibility : String) (members managers : List String) (sp : Option DocId) :
    Inner.listOf (s.newborn now id ref (spacePayload name visibility members managers) sp
      (.l1 space)).doc "members" = members := by
  have hfield := fields_newborn s now id ref (spacePayload name visibility members managers) sp
    space_namesItself.sound (k := "members") (by decide)
  unfold Inner.listOf
  rw [hfield]
  show ((members.map Value.string).filterMap Value.asStr?) = members
  rw [List.filterMap_map]
  exact List.filterMap_some

section

variable {s : Inner} {w : ℕ → Draw} {p : Plan} {gid : DocId} {e : Entry}

/-- The name is free after a delete that finishes, if the delete has kept the name. -/
theorem nameFree_deleted (hown : s.Authors) (hr : s.models.BuiltIn)
    (hstands : GroupStands s p gid e)
    (hok : (Store.deleteDoc s (w 0).io (w 0).now p.group).2.isOk = true) :
    nameFree (Store.deleteDoc s (w 0).io (w 0).now p.group).1 p.group = true ↔
      s.FreesName (w 0).io (w 0).now gid e p.group ∧ Store.validateName p.group = .ok () := by
  obtain ⟨-, -, -, hfinish, hnames⟩ :=
    deleteDoc_own (w 0).io (w 0).now hown hr.opens hstands.named hstands.here
  have hfin := hfinish.mp hok
  have hacc := accepted_deleteOf (w 0).now hown hr.opens hstands.here
  have hdel : ((s.nextTs (w 0).now).1.left (s.deleteOf (w 0).now gid e)).deleted = true :=
    deleted_left (s := (s.nextTs (w 0).now).1) hr.opens (deletesDoc_deleteOf hr.opens e) hacc
  have hhere : s.names.contains p.group = true := by
    rw [Std.ExtTreeMap.contains_eq_isSome_getElem?, hstands.named]
    rfl
  rw [if_pos hfin] at hnames
  unfold indexed at hnames
  rw [hdel, if_pos rfl] at hnames
  rw [nameFree_iff, hnames]
  unfold Inner.FreesName
  constructor
  · rintro ⟨hvalid, hfree⟩
    refine ⟨⟨hfin, ?_⟩, hvalid⟩
    by_contra hother
    split at hfree
    · rw [Std.ExtTreeMap.contains_erase, hhere, Bool.and_true, bne_eq_false_iff_eq,
        Std.compare_eq_iff_eq] at hfree
      exact hother hfree
    · rw [hhere] at hfree
      cases hfree
  · rintro ⟨⟨-, hname⟩, hvalid⟩
    have hne : p.group ≠ "" := by
      intro hempty
      rw [hempty] at hvalid
      exact absurd hvalid (by decide)
    refine ⟨hvalid, ?_⟩
    rw [hname, if_pos ⟨hne, hstands.named⟩]
    simp

/-- The state after the delete, and what the creation of the space makes of it. -/
theorem progress_space (hown : s.Authors) (hr : s.models.BuiltIn) (hstands : GroupStands s p gid e)
    (hne : gid ≠ p.spaceId)
    (hok : (Store.deleteDoc s (w 0).io (w 0).now p.group).2.isOk = true) :
    Gone (createSpace (Store.deleteDoc s (w 0).io (w 0).now p.group).1 (w 1) p).1 gid ∧
    ((createSpace (Store.deleteDoc s (w 0).io (w 0).now p.group).1 (w 1) p).2.isOk = true ↔
      s.FreesName (w 0).io (w 0).now gid e p.group ∧ Store.validateName p.group = .ok () ∧
        s.entries.contains p.spaceId = false) ∧
    ((createSpace (Store.deleteDoc s (w 0).io (w 0).now p.group).1 (w 1) p).2.isOk = true →
      Progress s w p gid [] 2
        (createSpace (Store.deleteDoc s (w 0).io (w 0).now p.group).1 (w 1) p).1) := by
  obtain ⟨hsetup₁, hgone, hframe₁, -, hnames₁⟩ :=
    deleteDoc_own (w 0).io (w 0).now hown hr.opens hstands.named hstands.here
  have hfree := nameFree_deleted hown hr hstands hok
  generalize (Store.deleteDoc s (w 0).io (w 0).now p.group).1 = s₁ at *
  unfold createSpace
  obtain ⟨hsetup₂, hframe₂⟩ := createSpaceAt_frame s₁ (w 1).io (w 1).now p.spaceId p.group
    (spacePayload p.group "protected" p.members p.managers)
  have hown₁ := hown.congr hsetup₁
  have hr₁ : s₁.models.BuiltIn := by
    rw [hsetup₁.models]
    exact hr
  have hgone₂ : Gone (createSpace s₁ (w 1) p).1 gid := by
    obtain ⟨e', he', hdel⟩ := hgone
    exact ⟨e', (hframe₂ gid hne).trans he', hdel⟩
  have hcontains : s₁.entries.contains p.spaceId = s.entries.contains p.spaceId := by
    rw [Std.ExtTreeMap.contains_eq_isSome_getElem?, Std.ExtTreeMap.contains_eq_isSome_getElem?,
      hframe₁ _ hne.symm]
  have hmade : (createSpace s₁ (w 1) p).2.isOk = true ↔
      s.FreesName (w 0).io (w 0).now gid e p.group ∧
      Store.validateName p.group = .ok () ∧ s.entries.contains p.spaceId = false := by
    unfold createSpace
    rw [isOk_createSpaceAt, hfree, hcontains, accepts_spaceInit hown₁ hr₁, and_assoc]
    exact and_congr_right fun _ => and_congr_right fun _ => and_iff_left rfl
  refine ⟨hgone₂, hmade, fun hok₂ => ?_⟩
  obtain ⟨hnames₂, hentry⟩ := createSpaceAt_ok
    (spacePayload p.group "protected" p.members p.managers) hr₁ rfl hok₂
  obtain ⟨⟨hfin, hname⟩, hvalid, -⟩ := hmade.mp hok₂
  have hhere : s.names.contains p.group = true := by
    rw [Std.ExtTreeMap.contains_eq_isSome_getElem?, hstands.named]
    rfl
  -- the name goes with the group, and comes back with the space
  have herase : s₁.names = s.names.erase p.group := by
    have hdel := deleted_left (s := (s.nextTs (w 0).now).1) hr.opens
      (deletesDoc_deleteOf hr.opens e)
      (accepted_deleteOf (w 0).now hown hr.opens hstands.here)
    have hnonempty : p.group ≠ "" := by
      intro hempty
      rw [hempty] at hvalid
      exact absurd hvalid (by decide)
    rw [hnames₁, if_pos hfin]
    unfold indexed
    rw [hdel, if_pos rfl, hname, if_pos ⟨hnonempty, hstands.named⟩]
  constructor
  · exact hown₁.congr hsetup₂
  · rw [hsetup₂.models]
    exact hr₁
  · exact hsetup₂.origin.trans hsetup₁.origin
  · exact hgone₂
  · exact ⟨_, hentry, deleted_newborn, id_newborn _, members_newborn ..⟩
  · rw [hnames₂]
    simp
  · intro n
    rw [hnames₂, herase, Std.ExtTreeMap.contains_insert, Std.ExtTreeMap.contains_erase,
      Bool.or_eq_true, Bool.and_eq_true, beq_iff_eq, Std.compare_eq_iff_eq]
    constructor
    · rintro (rfl | ⟨-, hn⟩)
      · exact Or.inl hhere
      · exact Or.inl hn
    · rintro (hn | hn)
      · by_cases heq : p.group = n
        · exact Or.inl heq
        · exact Or.inr ⟨bne_iff_ne.mpr fun hcmp => heq (Std.compare_eq_iff_eq.mp hcmp), hn⟩
      · exact absurd hn List.not_mem_nil
  · exact fun n hn => absurd hn List.not_mem_nil

/-- **What a run needs**, in the state before it: the delete finishes and takes the name out of the
    index; the name is valid and the new id unknown; the node is one of the group's members; and
    the names of chats and drive are valid, free, and all different. -/
structure GoesThrough (s : Inner) (w : ℕ → Draw) (p : Plan) (gid : DocId) (e : Entry) : Prop where
  frees : s.FreesName (w 0).io (w 0).now gid e p.group
  valid : Store.validateName p.group = .ok ()
  unknown : s.entries.contains p.spaceId = false
  member : s.origin ∈ p.members
  names : ∀ n ∈ p.created, Store.validateName n = .ok () ∧ s.names.contains n = false
  distinct : p.created.Nodup

instance (s : Inner) (w : ℕ → Draw) (p : Plan) (gid : DocId) (e : Entry) :
    Decidable (GoesThrough s w p gid e) :=
  decidable_of_iff (s.FreesName (w 0).io (w 0).now gid e p.group ∧
      Store.validateName p.group = .ok () ∧ s.entries.contains p.spaceId = false ∧
      s.origin ∈ p.members ∧
      (∀ n ∈ p.created, Store.validateName n = .ok () ∧ s.names.contains n = false) ∧
      p.created.Nodup)
    ⟨fun ⟨hfrees, hvalid, hunknown, hmember, hnames, hdistinct⟩ =>
      ⟨hfrees, hvalid, hunknown, hmember, hnames, hdistinct⟩,
    fun h => ⟨h.frees, h.valid, h.unknown, h.member, h.names, h.distinct⟩⟩

/-- The documents of the plan are there. -/
structure Migrated (s : Inner) (p : Plan) : Prop where
  space : (Store.get s p.group).map Doc.id = some p.spaceId
  created : ∀ n ∈ p.created, InSpace s n p.spaceId

theorem Progress.migrated {u : Inner} {i : ℕ} (h : Progress s w p gid p.created i u) :
    Migrated u p := by
  obtain ⟨esp, hesp, hlive, hid, -⟩ := h.space
  constructor
  · rw [get_of_entry h.group hesp hlive]
    exact congrArg some hid
  · intro n hn
    obtain ⟨j, e, -, hname, he, hkept⟩ := h.placed n hn
    exact ⟨(w j).id, e, hname, he, hkept⟩

/-- Where `createAll` ends: at the first creation that fails, or at the last one. -/
theorem createAll_cases (u : Inner) (w : ℕ → Draw) (p : Plan) :
    ((createSpace u (w 1) p).2.isOk = false ∧ (createAll u w p).1 = (createSpace u (w 1) p).1 ∧
      (createAll u w p).2.isOk = false) ∨
    (createSpace u (w 1) p).2.isOk = true ∧
      (((createChats (createSpace u (w 1) p).1 w p.spaceId p.chats 2).2.isOk = false ∧
        (createAll u w p).1 = (createChats (createSpace u (w 1) p).1 w p.spaceId p.chats 2).1 ∧
        (createAll u w p).2.isOk = false) ∨
      (createChats (createSpace u (w 1) p).1 w p.spaceId p.chats 2).2.isOk = true ∧
        (createAll u w p).1 = (createDrive (createChats (createSpace u (w 1) p).1 w p.spaceId
          p.chats 2).1 (w (2 + p.chats.length)) p).1 ∧
        (createAll u w p).2.isOk = (createDrive (createChats (createSpace u (w 1) p).1 w p.spaceId
          p.chats 2).1 (w (2 + p.chats.length)) p).2.isOk) := by
  unfold createAll
  cases createSpace u (w 1) p with
  | mk u₁ r =>
    cases r with
    | error e => exact Or.inl ⟨rfl, rfl, rfl⟩
    | ok id =>
      refine Or.inr ⟨rfl, ?_⟩
      dsimp only
      cases createChats u₁ w p.spaceId p.chats 2 with
      | mk u₂ r =>
        cases r with
        | error e => exact Or.inl ⟨rfl, rfl, rfl⟩
        | ok x =>
          refine Or.inr ⟨rfl, ?_⟩
          dsimp only
          cases createDrive u₂ (w (2 + p.chats.length)) p with
          | mk u₃ r => cases r <;> exact ⟨rfl, rfl⟩

/-- A run that does not find the space there deletes the group first. -/
theorem applyOne_cases (w : ℕ → Draw) (hnot : p.stands s = false) :
    ((Store.deleteDoc s (w 0).io (w 0).now p.group).2.isOk = false ∧
      (applyOne s w p).1 = (Store.deleteDoc s (w 0).io (w 0).now p.group).1 ∧
      (applyOne s w p).2.isOk = false) ∨
    ((Store.deleteDoc s (w 0).io (w 0).now p.group).2.isOk = true ∧
      applyOne s w p = createAll (Store.deleteDoc s (w 0).io (w 0).now p.group).1 w p) := by
  unfold applyOne
  rw [hnot, if_neg Bool.false_ne_true]
  cases Store.deleteDoc s (w 0).io (w 0).now p.group with
  | mk s₁ r =>
    cases r with
    | error e => exact Or.inl ⟨rfl, rfl, rfl⟩
    | ok a => exact Or.inr ⟨rfl, rfl⟩

/-- The names of chats and drive, one after the other. -/
theorem namesLeft_iff : ((∀ n ∈ p.chats.map Prod.fst, NameLeft s [] n) ∧
      (p.chats.map Prod.fst).Nodup) ∧ NameLeft s (p.chats.map Prod.fst) p.driveDoc ↔
    (∀ n ∈ p.created, Store.validateName n = .ok () ∧ s.names.contains n = false) ∧
      p.created.Nodup := by
  unfold Plan.created NameLeft
  rw [List.nodup_append]
  constructor
  · rintro ⟨⟨hnames, hnodup⟩, hvalid, hfree, hnew⟩
    refine ⟨fun n hn => ?_, hnodup, List.nodup_singleton _, fun a ha b hb => ?_⟩
    · rcases List.mem_append.mp hn with hn | hn
      · exact ⟨(hnames n hn).1, (hnames n hn).2.1⟩
      · obtain rfl := List.mem_singleton.mp hn
        exact ⟨hvalid, hfree⟩
    · obtain rfl := List.mem_singleton.mp hb
      exact fun heq => hnew (heq ▸ ha)
  · rintro ⟨hnames, hnodup, -, hdisjoint⟩
    have hdrive := hnames p.driveDoc (List.mem_append_right _ (List.mem_singleton_self _))
    refine ⟨⟨fun n hn => ?_, hnodup⟩, hdrive.1, hdrive.2, fun hin => ?_⟩
    · obtain ⟨hvalid, hfree⟩ := hnames n (List.mem_append_left _ hn)
      exact ⟨hvalid, hfree, List.not_mem_nil⟩
    · exact hdisjoint _ hin _ (List.mem_singleton_self _) rfl

theorem GroupStands.not_stands (h : GroupStands s p gid e) (hne : gid ≠ p.spaceId) :
    p.stands s = false := by
  unfold Plan.stands
  rw [get_of_entry h.named h.here h.live]
  refine beq_eq_false_iff_ne.mpr fun heq => hne ?_
  exact h.id.symm.trans (Option.some.inj heq)

/-- **How a run ends.**  The group is gone, whatever the answer.  The run succeeds exactly if it
    goes through, and then the documents of the plan are there. -/
theorem applyOne_outcome (hown : s.Authors) (hr : s.models.BuiltIn)
    (hstands : GroupStands s p gid e) (hne : gid ≠ p.spaceId) (hw : FreshDraws w p gid) :
    Gone (applyOne s w p).1 gid ∧
    ((applyOne s w p).2.isOk = true ↔ GoesThrough s w p gid e) ∧
    ((applyOne s w p).2.isOk = true → Migrated (applyOne s w p).1 p) := by
  have hnot := hstands.not_stands hne
  obtain ⟨-, hgone, -, hfinish, -⟩ :=
    deleteDoc_own (w 0).io (w 0).now hown hr.opens hstands.named hstands.here
  rcases applyOne_cases w hnot with ⟨hfail, hstate, hans⟩ | ⟨hdeleted, heq⟩
  · -- the delete fails, but not before the group is deleted
    rw [hstate, hans]
    refine ⟨hgone, ⟨fun h => (by cases h), fun h => ?_⟩, fun h => (by cases h)⟩
    rw [hfinish.mpr h.frees.1] at hfail
    cases hfail
  · rw [heq]
    obtain ⟨hgone₁, hspace, hstart⟩ := progress_space hown hr hstands hne hdeleted
    rcases createAll_cases (Store.deleteDoc s (w 0).io (w 0).now p.group).1 w p with
      ⟨hfail, hstate, hans⟩ | ⟨hok₁, hchats⟩
    · rw [hstate, hans]
      refine ⟨hgone₁, ⟨fun h => (by cases h), fun h => ?_⟩, fun h => (by cases h)⟩
      rw [hspace.mpr ⟨h.frees, h.valid, h.unknown⟩] at hfail
      cases hfail
    · obtain ⟨hfrees, hvalid, hunknown⟩ := hspace.mp hok₁
      obtain ⟨hgone₂, hloop, hdone⟩ := progress_createChats p.chats hw
        (show 2 + p.chats.length < p.draws by unfold Plan.draws; omega) (hstart hok₁)
      rcases hchats with ⟨hfail, hstate, hans⟩ | ⟨hok₂, hstate, hans⟩
      · rw [hstate, hans]
        refine ⟨hgone₂, ⟨fun h => (by cases h), fun h => ?_⟩, fun h => (by cases h)⟩
        have hleft := (namesLeft_iff.mpr ⟨h.names, h.distinct⟩).1
        rw [hloop.mpr ⟨hleft.1, hleft.2, fun _ => h.member⟩] at hfail
        cases hfail
      · have hprogress := hdone hok₂
        rw [List.nil_append] at hprogress
        obtain ⟨hgone₃, hdrive, hend⟩ := progress_step hw (by unfold Plan.draws; omega) hprogress
          (memberDoc_drive hprogress.builtIn p.driveDoc)
        obtain ⟨hnames, hnodup, -⟩ := hloop.mp hok₂
        rw [hstate, hans]
        refine ⟨hgone₃, ?_, fun hok₃ => (hend hok₃).migrated⟩
        refine hdrive.trans ⟨fun h => ?_, fun h => ?_⟩
        · obtain ⟨hall, hdistinct⟩ := namesLeft_iff.mp ⟨⟨hnames, hnodup⟩, h.1⟩
          exact ⟨hfrees, hvalid, hunknown, h.2, hall, hdistinct⟩
        · exact ⟨(namesLeft_iff.mpr ⟨h.names, h.distinct⟩).2, h.member⟩

end

end

section

open Sample

attribute [local instance] Sample.primitives

/-- Alice's store, after those actions. -/
def aliceStore (actions : List Action) : Inner :=
  (Store.fresh alice.key alice.name []).execAll (deliver actions)

theorem aliceStore_run (actions : List Action) :
    Inner.Run (fun _ ev => ∀ m, ev ≠ .addModel m) (Store.fresh alice.key alice.name [])
      (aliceStore actions) := by
  refine run_execAll _ _ fun ev hev s => ?_
  obtain ⟨a, -, rfl⟩ := List.mem_map.mp hev
  exact ⟨trivial, fun _ h => (by cases h)⟩

theorem authors_aliceStore (actions : List Action) : (aliceStore actions).Authors :=
  authors_run rfl (fun bytes => verifyStrict_tag alice.key bytes) (aliceStore_run actions)

theorem builtIn_aliceStore (actions : List Action) : (aliceStore actions).models.BuiltIn :=
  builtIn_run (fun _ hm => absurd hm List.not_mem_nil) (fun _ m h => absurd rfl (h m))
    (aliceStore_run actions)

/-- Clocks and ids that count up. -/
def countingDraws (i : ℕ) : Draw := ⟨Io.ok, 20 + Fin.ofNat _ i, 100 + Fin.ofNat _ i⟩

/-- The row of the sample group. -/
def groupRow (s : Inner) : DocRow := (rowOf s "group" none docId).getD ⟨docId, "", "", ∅⟩

/-- The plan for it. -/
def groupPlan (s : Inner) : Plan := planFor (groupRow s) (Store.docIdText (groupRow s).id)

theorem groupRow_mem {s : Inner} (h : (rowOf s "group" none docId).isSome = true) :
    groupRow s ∈ queryDocs s "group" none := by
  obtain ⟨row, hrow⟩ := Option.isSome_iff_exists.mp h
  refine mem_queryDocs.mpr ⟨docId, ?_⟩
  unfold groupRow
  rw [hrow]
  rfl

theorem groupStands_sample {s : Inner} {p : Plan} (hnamed : s.names[p.group]? = some docId)
    (hhere : (s.entries[docId]?).map (fun e => (e.deleted, e.doc.id)) = some (false, docId)) :
    GroupStands s p docId (s.entryFor docId) := by
  obtain ⟨e, he, hfields⟩ := Option.map_eq_some_iff.mp hhere
  obtain ⟨hlive, hid⟩ := Prod.mk.inj hfields
  have hentry : s.entryFor docId = e := by
    unfold Inner.entryFor
    rw [he]
    rfl
  rw [hentry]
  exact ⟨hnamed, he, hlive, hid⟩

theorem groupPlan_mem {s : Inner} {e : Entry} (hrow : (rowOf s "group" none docId).isSome = true)
    (hid : (groupRow s).id = docId) (h : GroupStands s (groupPlan s) docId e) :
    groupPlan s ∈ plans s none := by
  refine mem_plans.mpr ⟨groupRow s, e.doc.live, groupRow_mem hrow, fun g hg => (by cases hg),
    get_of_entry h.named h.here h.live, ?_⟩
  unfold groupPlan
  rw [hid, show e.doc.live.id = docId from h.id]

/-- Alice's group with a message. -/
def talkingGroup : Inner := aliceStore [groupInit, post alice "hi" 20 [("alice", 2)]]

theorem talkingGroup_facts :
    (rowOf talkingGroup "group" none docId).isSome = true ∧
    (groupRow talkingGroup).strs "msg_text" = ["hi"] ∧
    talkingGroup.names[(groupPlan talkingGroup).group]? = some docId ∧
    (talkingGroup.entries[docId]?).map (fun e => (e.deleted, e.doc.id)) = some (false, docId) ∧
    docId ≠ (groupPlan talkingGroup).spaceId := by
  decide +kernel

theorem talkingGroup_draws : FreshDraws countingDraws (groupPlan talkingGroup) docId := by
  decide +kernel

theorem talkingGroup_goesThrough : GoesThrough talkingGroup countingDraws (groupPlan talkingGroup)
    docId (talkingGroup.entryFor docId) := by
  decide +kernel

/-- Its migration succeeds. -/
theorem talkingGroup_migrates : (groupPlan talkingGroup).stands talkingGroup = false ∧
    ∃ t, applyOne talkingGroup countingDraws (groupPlan talkingGroup) = (t, .ok ()) := by
  obtain ⟨-, -, hnamed, hhere, hne⟩ := talkingGroup_facts
  have hgroup := groupStands_sample hnamed hhere
  refine ⟨hgroup.not_stands hne, ?_⟩
  have hown : talkingGroup.Authors := authors_aliceStore _
  have hr : talkingGroup.models.BuiltIn := builtIn_aliceStore _
  obtain ⟨-, hok, -⟩ := applyOne_outcome hown hr hgroup hne talkingGroup_draws
  have hend := hok.mpr talkingGroup_goesThrough
  cases h : applyOne talkingGroup countingDraws (groupPlan talkingGroup) with
  | mk t r =>
    rw [h] at hend
    cases r with
    | error e => cases hend
    | ok x => exact ⟨t, rfl⟩

end

end PhReactor
