/-
  The plugin bridge (`src/settings/mod.rs`, `plugin_query` and `plugin_action`).

  A capability says WHAT a plugin may read and write, the space of a request says WHERE.

  1. `pluginQuery` confines its rows to the space by NAME: it resolves each row's name through the
     name index again, and compares the space of what it finds with the id of the space document.
     Both may be missing, and then they are equal.

  2. `pluginAction` creates a document in the space (`init`).  Every other kind goes to the document
     of the name it is given, wherever that is.

  3. `plugin_stays_inside_iff` says of each request exactly when it stays inside: for a query, when
     every name leads to documents of one side only; for an action, when its document is in the
     space or the store turns the action away.  `outsider_changed` is a plugin that writes outside
     its space.

  A panic of a handler answers nothing and changes nothing.
-/
import PhReactor.Query
import PhReactor.Store.Creation
import PhReactor.Store.Failures
import PhReactor.Store.Timestamps
import PhReactor.Sync.Wire

set_option linter.unusedSectionVars false

namespace PhReactor

/-! ## Model references as text -/

/-- `str::split_once`. -/
def splitOnce (c : Char) : List Char → Option (List Char × List Char)
  | [] => none
  | x :: l => if x = c then some ([], l) else (splitOnce c l).map fun (a, b) => (x :: a, b)

/-- `str::rsplit_once`. -/
def rsplitOnce (c : Char) (l : List Char) : Option (List Char × List Char) :=
  (splitOnce c l.reverse).map fun (b, a) => (a.reverse, b.reverse)

/-- Why a text is not hex. -/
def hexProblem (s : String) : String :=
  if s.utf8ByteSize % 2 = 1 then "Odd number of digits"
  else
    match s.toList.zipIdx.find? fun (c, _) => (hexDigit? c).isNone with
    | some (c, i) => "Invalid character '" ++ c.toString ++ "' at position " ++ toString i
    | none => "Odd number of digits"

/-- `Hash32::from_hex`. -/
def hashOfHex (s : String) : Except String Hash32 :=
  match hexDecode s with
  | none => .error ("invalid hex: " ++ hexProblem s)
  | some v =>
    if v.length ≠ 32 then .error ("hash must be 32 bytes (got " ++ toString v.length ++ ")")
    else .ok (Fin.ofNat _ (ofBeBytes v))

/-- `name@version`, perhaps with a `#hash`. -/
def ModelRef.parse (s : String) : Except String ModelRef :=
  let hashed : Except String (List Char × Option Hash32) :=
    match splitOnce '#' s.toList with
    | some (nv, h) =>
      match hashOfHex (String.ofList h) with
      | .ok hash => .ok (nv, some hash)
      | .error e => .error ("'" ++ s ++ "': " ++ e)
    | none => .ok (s.toList, none)
  match hashed with
  | .error e => .error e
  | .ok (nv, hash) =>
    match rsplitOnce '@' nv with
    | none => .error ("model ref '" ++ s ++ "' must be name@version")
    | some (name, version) =>
      if name.isEmpty || version.isEmpty then
        .error ("model ref '" ++ s ++ "' has an empty name or version")
      else .ok ⟨String.ofList name, String.ofList version, hash⟩

/-! ## Capabilities and requests -/

structure WriteCapability where
  model : String
  kinds : List String

/-- What a manifest lets a plugin attempt. -/
structure Capabilities where
  read : List String
  write : List WriteCapability

namespace Capabilities

def mayRead (c : Capabilities) (model : String) : Bool := c.read.any fun m => m == model

def mayWrite (c : Capabilities) (model kind : String) : Bool :=
  c.write.any fun w => w.model == model && w.kinds.any fun k => k == kind

end Capabilities

structure PluginQuery where
  /-- `name@version`, matched exactly against the declared capability. -/
  model : String
  filter : Option FieldFilter
  /-- The space the plugin is open in. -/
  space : Option String

structure PluginAction where
  model : String
  kind : String
  name : String
  payload : Value
  space : Option String

inductive PluginReply where
  /-- `404`: no such package installed. -/
  | notFound
  /-- `403`. -/
  | forbidden (why : String)
  /-- `400`. -/
  | badRequest (why : String)
  | rows (l : List DocRow)
  | created
  | applied (a : Action)
  | panicked

section

variable [Primitives]

/-- What a request reads: the store and the capabilities of the installed packages. -/
structure Node where
  store : Inner
  installed : List (String × Capabilities)

/-- Is `app` enabled in the space of that name: in the first one that a query finds. -/
def appEnabledIn (s : Inner) (space app : String) : Bool :=
  match (queryDocs s "space" none).find? fun r => r.name == space with
  | none => false
  | some r =>
    match (r.fields["apps"]?).bind Value.asArray? with
    | none => false
    | some apps => apps.any fun a => (a.get? "name").bind Value.asStr? == some app

/-- Is the plugin kept out of the space of a request. -/
def keptOut (s : Inner) (plugin : String) (space : Option String) : Bool :=
  space.any fun space => !appEnabledIn s space plugin

def notEnabled (plugin : String) : PluginReply :=
  .forbidden ("'" ++ plugin ++ "' is not enabled in this space")

/-! ## The handlers -/

/-- The name of a model: its text up to the first `@`. -/
def modelName (model : String) : String := String.ofList (model.toList.takeWhile (· ≠ '@'))

/-- `plugin_query`. -/
def pluginQuery (n : Node) (plugin : String) (body : PluginQuery) : PluginReply :=
  match n.installed.lookup plugin with
  | none => .notFound
  | some caps =>
    if !caps.mayRead body.model then .forbidden ("this plugin may not read " ++ body.model)
    else if keptOut n.store plugin body.space then notEnabled plugin
    else
      let docs := queryDocs n.store (modelName body.model) body.filter
      match body.space with
      | none => .rows docs
      | some space =>
        let spaceId := (Store.get n.store space).map Doc.id
        -- each row is resolved through the name index once more
        .rows (docs.filter fun d =>
          decide (((Store.get n.store d.name).bind fun doc => Store.spaceOf n.store doc.id) =
            spaceId))

/-- A name the console accepts. -/
def validName (name : String) : Bool :=
  name != "" && decide (name.utf8ByteSize ≤ 64) && !name.toList.contains '/' &&
    !name.toList.contains (Char.ofNat 0)

def badName : PluginReply := .badRequest "name may be any characters except '/' (max 64)"

/-- `run_create_action`, with the `CreateAction` it sends. -/
def runCreateAction (s : Inner) (io : Io) (now : U64) (name model kind : String)
    (payload : Value) : Inner × PluginReply :=
  if !validName name then (s, badName)
  else
    match ModelRef.parse model with
    | .error e => (s, .badRequest e)
    | .ok mr =>
      match Store.applyLocalAction s io now name mr kind payload with
      | (s, .error e) => (s, .badRequest e)
      | (s, .ok a) => (s, .applied a)

/-- `run_create_doc_in_space`, with the `CreateDocModel` it sends. -/
def runCreateDocInSpace (s : Inner) (io : Io) (now : U64) (id : DocId) (name model : String)
    (payload : Value) (space : Option String) : Inner × PluginReply :=
  if !validName name then (s, badName)
  else
    match ModelRef.parse model with
    | .error e => (s, .badRequest e)
    | .ok mr =>
      let create (spaceId : Option DocId) : Inner × PluginReply :=
        match Store.createDocInSpace s io now id name mr payload spaceId with
        | (s, .error e) => (s, .badRequest e)
        | (s, .ok _) => (s, .created)
      match space with
      | none => create none
      | some sp =>
        match Store.get s sp with
        | none => (s, .badRequest ("no space named '" ++ sp ++ "'"))
        | some d => create (some d.id)

/-- The payload of an `init`, which must name the document.  Nothing but an object or `null` can be
    given a name. -/
def namedPayload (payload : Value) (name : String) : Option Value :=
  if ((payload.get? "name").bind Value.asStr?).all fun s => s == "" then
    match payload with
    | .null => some (.object [("name", .string name)])
    | .object o => some (.object (Value.insertEntry "name" (.string name) o))
    | _ => none
  else some payload

/-- `plugin_action`. -/
def pluginAction (n : Node) (io : Io) (now : U64) (id : DocId) (plugin : String)
    (body : PluginAction) : Inner × PluginReply :=
  match n.installed.lookup plugin with
  | none => (n.store, .notFound)
  | some caps =>
    if !caps.mayWrite body.model body.kind then
      (n.store, .forbidden ("this plugin may not perform " ++ body.kind ++ " on " ++ body.model))
    else if keptOut n.store plugin body.space then (n.store, notEnabled plugin)
    else if body.kind == "init" then
      match namedPayload body.payload body.name with
      | none => (n.store, .panicked)
      | some payload =>
        runCreateDocInSpace n.store io now id body.name body.model payload body.space
    else runCreateAction n.store io now body.name body.model body.kind body.payload

/-! ## Inside a space -/

/-- The id of the space document of that name. -/
def spaceNamed (s : Inner) (space : String) : Option DocId := (Store.get s space).map Doc.id

/-- Does the query answer with rows: installed, with the capability, in a space where it is
    enabled. -/
def Node.answers (n : Node) (plugin : String) (body : PluginQuery) : Bool :=
  ((n.installed.lookup plugin).any fun caps => caps.mayRead body.model) &&
    !keptOut n.store plugin body.space

/-- Does the action reach the store. -/
def Node.lets (n : Node) (plugin : String) (body : PluginAction) : Bool :=
  ((n.installed.lookup plugin).any fun caps => caps.mayWrite body.model body.kind) &&
    !keptOut n.store plugin body.space

/-- **A query stays inside**: it answers with documents of the space. -/
def QueryInside (n : Node) (plugin space : String) (body : PluginQuery) : Prop :=
  ∀ l, pluginQuery n plugin body = .rows l → ∀ r ∈ l,
    ∃ sp, spaceNamed n.store space = some sp ∧ Store.spaceOf n.store r.id = some sp

/-- **An action stays inside**: what it changes is in the space, or new in it. -/
def ActionInside (n : Node) (io : Io) (now : U64) (id : DocId) (plugin space : String)
    (body : PluginAction) : Prop :=
  ∀ d : DocId, (pluginAction n io now id plugin body).1.entries[d]? ≠ n.store.entries[d]? →
    ∃ sp, spaceNamed n.store space = some sp ∧
      ((n.store.entries[d]?.or (pluginAction n io now id plugin body).1.entries[d]?).bind
        Entry.space) = some sp

/-- The names of the selected documents lead to one side only.  Where there is a space document: a
    name that leads into the space is a name of documents in the space.  Where there is none: every
    name leads to a document of some space. -/
structure NamesApart (s : Inner) (space : String) (rows : List DocRow) : Prop where
  inside : ∀ sp, spaceNamed s space = some sp → ∀ r ∈ rows, ∀ doc, Store.get s r.name = some doc →
    Store.spaceOf s doc.id = some sp → Store.spaceOf s r.id = some sp
  missing : spaceNamed s space = none → ∀ r ∈ rows, ∃ doc sp, Store.get s r.name = some doc ∧
    Store.spaceOf s doc.id = some sp

/-- The document of an action on an existing document is in the space, or the store turns the
    action away. -/
def TargetInside (s : Inner) (now : U64) (space : String) (body : PluginAction) : Prop :=
  ∀ mr d, ModelRef.parse body.model = .ok mr → s.names[body.name]? = some d →
    s.turnsAwayLocal now body.name mr body.kind body.payload = false →
    ∃ sp, spaceNamed s space = some sp ∧ Store.spaceOf s d = some sp

/-! ## Queries -/

section

variable {n : Node} {plugin space : String}

theorem pluginQuery_rows {body : PluginQuery} (hspace : body.space = some space)
    (h : n.answers plugin body = true) : pluginQuery n plugin body =
      .rows ((queryDocs n.store (modelName body.model) body.filter).filter fun d =>
        decide (((Store.get n.store d.name).bind fun doc => Store.spaceOf n.store doc.id) =
          spaceNamed n.store space)) := by
  unfold Node.answers at h
  unfold pluginQuery
  cases hpkg : n.installed.lookup plugin with
  | none =>
    rw [hpkg] at h
    cases h
  | some caps =>
    rw [hpkg, Option.any_some, Bool.and_eq_true, Bool.not_eq_true'] at h
    dsimp only
    rw [h.1, h.2, Bool.not_true, if_neg Bool.false_ne_true, if_neg Bool.false_ne_true, hspace]
    rfl

theorem pluginQuery_kept {body : PluginQuery} (h : n.answers plugin body = false)
    (l : List DocRow) : pluginQuery n plugin body ≠ .rows l := by
  unfold Node.answers at h
  unfold pluginQuery
  cases hpkg : n.installed.lookup plugin with
  | none =>
    intro hrows
    cases hrows
  | some caps =>
    rw [hpkg, Option.any_some, Bool.and_eq_false_iff, Bool.not_eq_false'] at h
    dsimp only
    rcases h with h | h
    · rw [h, Bool.not_false, if_pos rfl]
      intro hrows
      cases hrows
    · rw [h, if_pos rfl]
      split <;> (intro hrows; cases hrows)

/-- **When a query stays inside its space.** -/
theorem queryInside_iff {body : PluginQuery} (hspace : body.space = some space) :
    QueryInside n plugin space body ↔ (n.answers plugin body = true →
      NamesApart n.store space (queryDocs n.store (modelName body.model) body.filter)) := by
  cases hans : n.answers plugin body with
  | false =>
    exact iff_of_true (fun l hl => absurd hl (pluginQuery_kept hans l))
      fun h => absurd h Bool.false_ne_true
  | true =>
    unfold QueryInside
    rw [pluginQuery_rows hspace hans, forall_prop_of_true rfl]
    constructor
    · intro h
      have hrow := h _ rfl
      refine ⟨fun sp hsp r hr doc hdoc hin => ?_, fun hnone r hr => ?_⟩
      · obtain ⟨sp', hsp', hin'⟩ := hrow r (List.mem_filter.mpr ⟨hr, by simp [hsp, hdoc, hin]⟩)
        rw [hsp] at hsp'
        obtain rfl := Option.some.inj hsp'
        exact hin'
      · -- a row that is kept would need the space document
        by_contra hno
        have hleads : ((Store.get n.store r.name).bind fun doc => Store.spaceOf n.store doc.id) =
            none := by
          refine Option.eq_none_iff_forall_ne_some.mpr fun sp hsp => hno ?_
          obtain ⟨doc, hdoc, hsp⟩ := Option.bind_eq_some_iff.mp hsp
          exact ⟨doc, sp, hdoc, hsp⟩
        obtain ⟨sp, hsp, -⟩ := hrow r (List.mem_filter.mpr ⟨hr, by simp [hleads, hnone]⟩)
        rw [hnone] at hsp
        cases hsp
    · rintro hapart l hl r hr
      obtain rfl := PluginReply.rows.inj hl
      obtain ⟨hr, hleads⟩ := List.mem_filter.mp hr
      have hleads := of_decide_eq_true hleads
      cases hsp : spaceNamed n.store space with
      | none =>
        obtain ⟨doc, sp, hdoc, hin⟩ := hapart.missing hsp r hr
        rw [hdoc, Option.bind_some, hin, hsp] at hleads
        cases hleads
      | some sp =>
        rw [hsp] at hleads
        obtain ⟨doc, hdoc, hin⟩ := Option.bind_eq_some_iff.mp hleads
        exact ⟨sp, rfl, hapart.inside sp hsp r hr doc hdoc hin⟩

/-! ## Actions -/

/-- Nothing is built on a document that is not here. -/
theorem entry_of_not_turnsAwayLocal {s : Inner} {now : U64} {name : String} {model : ModelRef}
    {kind : String} {payload : Value} {d : DocId} (hname : s.names[name]? = some d)
    (haway : s.turnsAwayLocal now name model kind payload = false) :
    ∃ e, s.entries[d]? = some e := by
  unfold Inner.turnsAwayLocal at haway
  rw [hname] at haway
  dsimp only at haway
  cases hb : s.buildAction now d model kind payload with
  | mk t r =>
    rw [hb] at haway
    cases r with
    | error e => cases haway
    | ok a =>
      obtain ⟨-, -, -, e, he, -⟩ := buildAction_ok (congrArg Prod.snd hb)
      exact ⟨e, he⟩

/-- **What an operation on a named document changes**: that document, unless it is turned away. -/
theorem changed_onNamed_iff {s : Inner} {io : Io} {now : U64} {missing name : String}
    {model : ModelRef} {kind : String} {payload : Value} {d : DocId} :
    (Store.onNamed s io now missing name model kind payload).1.entries[d]? ≠ s.entries[d]? ↔
      s.names[name]? = some d ∧ s.turnsAwayLocal now name model kind payload = false := by
  cases haway : s.turnsAwayLocal now name model kind payload with
  | true =>
    have hsame := (sameStore_onNamed_iff s io now missing name model kind payload).mpr haway
    rw [hsame.entries]
    exact iff_of_false (fun h => h rfl) fun h => Bool.false_ne_true h.2.symm
  | false =>
    rw [and_iff_left rfl]
    unfold Inner.turnsAwayLocal at haway
    unfold Store.onNamed
    cases hname : s.names[name]? with
    | none =>
      rw [hname] at haway
      cases haway
    | some id =>
      rw [hname] at haway
      dsimp only at haway ⊢
      have hfst := buildAction_fst s now id model kind payload
      cases hb : s.buildAction now id model kind payload with
      | mk t r =>
        rw [hb] at haway hfst
        obtain rfl : t = (s.nextTs now).1 := hfst
        cases r with
        | error e => cases haway
        | ok a =>
          -- the timestamp is drawn, and the action applied
          obtain ⟨-, -, rfl, e, he, -⟩ := buildAction_ok (congrArg Prod.snd hb)
          dsimp only at haway ⊢
          rw [buildAndApply_of_ok hb, Option.some_inj]
          by_cases hd : a.docId = d
          · -- its own document is here, so what is not turned away is accepted
            subst hd
            refine iff_of_true ?_ rfl
            have hacc : (s.nextTs now).1.accepts a = true := by
              by_contra hno
              rw [turnsAway_iff.mpr ⟨Bool.eq_false_iff.mpr hno, Or.inr ?_⟩] at haway
              · cases haway
              · show s.entries[a.docId]?.isSome = true
                rw [he]
                rfl
            obtain ⟨m, hm⟩ := Inner.accepts_iff.mp hacc
            exact entries_ne_of_accepted hm io
          · exact iff_of_false (fun h => h (congrArg View.entry
              (view_applyAction_ne (s.nextTs now).1 io (Ne.symm hd)))) hd

/-- A document that is created is in the space, and nothing else changes. -/
theorem space_of_changed_createDocInSpace {s : Inner} {io : Io} {now : U64} {id : DocId}
    {name : String} {model : ModelRef} {payload : Value} {sp : Option DocId}
    (hnew : s.entries[id]? = none) {d : DocId}
    (hd : (Store.createDocInSpace s io now id name model payload sp).1.entries[d]? ≠
      s.entries[d]?) :
    (s.entries[d]?.or (Store.createDocInSpace s io now id name model payload sp).1.entries[d]?).bind
      Entry.space = sp := by
  cases hfree : nameFree s name with
  | false =>
    obtain ⟨msg, heq⟩ := createDocInSpace_refused io now id model payload sp hfree
    rw [heq] at hd
    exact absurd rfl hd
  | true =>
    rw [createDocInSpace_eq hfree] at hd ⊢
    by_cases hid : d = id
    · subst hid
      rw [hnew, Option.none_or]
      rcases born_cases s io now d model payload sp with ⟨-, -, hent, -⟩ | ⟨m, -, -, hent, -⟩
      · rw [hent, Std.ExtTreeMap.getElem?_insert_self]
        rfl
      · rw [hent]
        exact space_newborn m
    · exact absurd (congrArg View.entry ((born_frame s io now id model payload sp).2 d hid)) hd

theorem inside_runCreateDocInSpace {s : Inner} {io : Io} {now : U64} {id : DocId}
    {name model space : String} {payload : Value} (hnew : s.entries[id]? = none) {d : DocId}
    (hd : (runCreateDocInSpace s io now id name model payload (some space)).1.entries[d]? ≠
      s.entries[d]?) :
    ∃ sp, spaceNamed s space = some sp ∧ ((s.entries[d]?.or
      (runCreateDocInSpace s io now id name model payload (some space)).1.entries[d]?).bind
        Entry.space) = some sp := by
  unfold runCreateDocInSpace at hd ⊢
  split at hd
  · exact absurd rfl hd
  · next hvalid =>
    rw [if_neg hvalid]
    cases hmr : ModelRef.parse model with
    | error e =>
      rw [hmr] at hd
      exact absurd rfl hd
    | ok mr =>
      rw [hmr] at hd
      dsimp only at hd ⊢
      cases hsp : Store.get s space with
      | none =>
        rw [hsp] at hd
        exact absurd rfl hd
      | some doc =>
        rw [hsp] at hd
        dsimp only at hd ⊢
        have hcreate : (match Store.createDocInSpace s io now id name mr payload (some doc.id) with
            | (s, .error e) => (s, .badRequest e)
            | (s, .ok _) => (s, .created) : Inner × PluginReply).1 =
            (Store.createDocInSpace s io now id name mr payload (some doc.id)).1 := by
          cases Store.createDocInSpace s io now id name mr payload (some doc.id) with
          | mk t r => cases r <;> rfl
        rw [hcreate] at hd ⊢
        exact ⟨doc.id, by rw [spaceNamed, hsp]; rfl, space_of_changed_createDocInSpace hnew hd⟩

/-- What an action on an existing document changes. -/
theorem changed_runCreateAction_iff {s : Inner} {io : Io} {now : U64} {name model kind : String}
    {payload : Value} {d : DocId} :
    (runCreateAction s io now name model kind payload).1.entries[d]? ≠ s.entries[d]? ↔
      validName name = true ∧ ∃ mr, ModelRef.parse model = .ok mr ∧ s.names[name]? = some d ∧
        s.turnsAwayLocal now name mr kind payload = false := by
  unfold runCreateAction
  cases hvalid : validName name with
  | false => exact iff_of_false (fun h => h rfl) fun h => Bool.false_ne_true h.1
  | true =>
    rw [Bool.not_true, if_neg Bool.false_ne_true, and_iff_right rfl]
    cases hmr : ModelRef.parse model with
    | error e => exact iff_of_false (fun h => h rfl) fun ⟨mr, h, _⟩ => by cases h
    | ok mr =>
      dsimp only
      have happly : (match Store.applyLocalAction s io now name mr kind payload with
          | (s, .error e) => (s, .badRequest e)
          | (s, .ok a) => (s, .applied a) : Inner × PluginReply).1 =
          (Store.applyLocalAction s io now name mr kind payload).1 := by
        cases Store.applyLocalAction s io now name mr kind payload with
        | mk t r => cases r <;> rfl
      rw [happly]
      unfold Store.applyLocalAction
      rw [changed_onNamed_iff]
      constructor
      · exact fun h => ⟨mr, rfl, h⟩
      · rintro ⟨mr', hmr', h⟩
        obtain rfl := Except.ok.inj hmr'
        exact h

section

variable {io : Io} {now : U64} {id : DocId} {body : PluginAction}

theorem pluginAction_kept (h : n.lets plugin body = false) :
    (pluginAction n io now id plugin body).1 = n.store := by
  unfold Node.lets at h
  unfold pluginAction
  cases hpkg : n.installed.lookup plugin with
  | none => rfl
  | some caps =>
    rw [hpkg, Option.any_some, Bool.and_eq_false_iff, Bool.not_eq_false'] at h
    dsimp only
    rcases h with h | h
    · rw [h, Bool.not_false, if_pos rfl]
    · rw [h, if_pos rfl]
      split <;> rfl

theorem pluginAction_init (io : Io) (now : U64) (id : DocId) (h : n.lets plugin body = true)
    (hkind : body.kind = "init") :
    (pluginAction n io now id plugin body).1 = n.store ∨
      ∃ payload, pluginAction n io now id plugin body =
        runCreateDocInSpace n.store io now id body.name body.model payload body.space := by
  unfold Node.lets at h
  unfold pluginAction
  cases hpkg : n.installed.lookup plugin with
  | none => exact Or.inl rfl
  | some caps =>
    rw [hpkg, Option.any_some, Bool.and_eq_true, Bool.not_eq_true'] at h
    dsimp only
    rw [h.1, h.2, Bool.not_true, if_neg Bool.false_ne_true, if_neg Bool.false_ne_true,
      if_pos (beq_iff_eq.mpr hkind)]
    cases namedPayload body.payload body.name with
    | none => exact Or.inl rfl
    | some payload => exact Or.inr ⟨payload, rfl⟩

theorem pluginAction_other (h : n.lets plugin body = true) (hkind : body.kind ≠ "init") :
    pluginAction n io now id plugin body =
      runCreateAction n.store io now body.name body.model body.kind body.payload := by
  unfold Node.lets at h
  unfold pluginAction
  cases hpkg : n.installed.lookup plugin with
  | none =>
    rw [hpkg] at h
    cases h
  | some caps =>
    rw [hpkg, Option.any_some, Bool.and_eq_true, Bool.not_eq_true'] at h
    dsimp only
    rw [h.1, h.2, Bool.not_true, if_neg Bool.false_ne_true, if_neg Bool.false_ne_true,
      if_neg (fun heq => hkind (beq_iff_eq.mp heq))]

/-- **When an action stays inside its space.** -/
theorem actionInside_iff (hnew : n.store.entries[id]? = none) (hspace : body.space = some space) :
    ActionInside n io now id plugin space body ↔
      (n.lets plugin body = true → body.kind ≠ "init" → validName body.name = true →
        TargetInside n.store now space body) := by
  unfold ActionInside
  cases hlets : n.lets plugin body with
  | false =>
    rw [pluginAction_kept hlets]
    exact iff_of_true (fun d hd => absurd rfl hd) fun h => absurd h Bool.false_ne_true
  | true =>
    rw [forall_prop_of_true rfl]
    by_cases hkind : body.kind = "init"
    · -- a document is created in the space, or nothing happens
      refine iff_of_true (fun d hd => ?_) fun h => absurd hkind h
      rcases pluginAction_init io now id hlets hkind with hsame |
        ⟨payload, hcreate⟩
      · rw [hsame] at hd
        exact absurd rfl hd
      · rw [hcreate, hspace] at hd ⊢
        exact inside_runCreateDocInSpace hnew hd
    · rw [forall_prop_of_true hkind, pluginAction_other hlets hkind]
      constructor
      · intro h hvalid mr d hmr hname haway
        obtain ⟨sp, hsp, hin⟩ := h d
          (changed_runCreateAction_iff.mpr ⟨hvalid, mr, hmr, hname, haway⟩)
        refine ⟨sp, hsp, ?_⟩
        cases he : n.store.entries[d]? with
        | none =>
          rw [he] at hin
          obtain ⟨e, he'⟩ := entry_of_not_turnsAwayLocal hname haway
          rw [he] at he'
          cases he'
        | some e =>
          rw [he, Option.some_or] at hin
          rw [Store.spaceOf, he]
          exact hin
      · intro h d hd
        obtain ⟨hvalid, mr, hmr, hname, haway⟩ := changed_runCreateAction_iff.mp hd
        obtain ⟨sp, hsp, hin⟩ := h hvalid mr d hmr hname haway
        refine ⟨sp, hsp, ?_⟩
        unfold Store.spaceOf at hin
        cases he : n.store.entries[d]? with
        | none =>
          rw [he] at hin
          cases hin
        | some e =>
          rw [he] at hin
          rw [Option.some_or]
          exact hin

end

/-- **When the plugin bridge stays inside its space.**  For every request that names the space: a
    query answers with documents of the space, and an action changes documents of the space or
    creates one in it, exactly when the names lead where they should. -/
theorem plugin_stays_inside_iff (n : Node) (plugin space : String) :
    (∀ body : PluginQuery, body.space = some space →
      (QueryInside n plugin space body ↔ (n.answers plugin body = true →
        NamesApart n.store space (queryDocs n.store (modelName body.model) body.filter)))) ∧
    ∀ (io : Io) (now : U64) (id : DocId) (body : PluginAction), n.store.entries[id]? = none →
      body.space = some space →
      (ActionInside n io now id plugin space body ↔
        (n.lets plugin body = true → body.kind ≠ "init" → validName body.name = true →
          TargetInside n.store now space body)) :=
  ⟨fun _ hspace => queryInside_iff hspace, fun _ _ _ _ hnew hspace => actionInside_iff hnew hspace⟩

end

end

/-! ## The sample: a plugin of one space -/

section

open Sample

attribute [local instance] Sample.primitives

/-- Alice enables the billing plugin in her space, and has notes outside of every space. -/
def clubActions : List Action :=
  [spaceInit,
    actOn spaceId alice "space" "enable-app"
      (.object [("item", .object [("name", .string "billing")])]) 6 [("alice", 2)] (some spaceId),
    act alice "open" "create" (Store.setPayload nameKey (.string "notes")) 7 [("alice", 1)] none]

/-- Her node, where the plugin may set fields of open documents. -/
def clubNode : Node where
  store := (Store.fresh alice.key alice.name []).execAll (deliver clubActions)
  installed := [("billing", ⟨["open@1"], [⟨"open@1", ["set"]⟩]⟩)]

/-- The plugin is open in the club's space, and writes to a document by name. -/
def billingSets (name : String) : PluginAction where
  model := "open@1"
  kind := "set"
  name := name
  payload := Store.setPayload "paid" (.bool true)
  space := some "club"

theorem clubNode_store : clubNode.store.entries[(9 : DocId)]? = none ∧
    clubNode.store.names["club"]? = some spaceId ∧
    clubNode.store.names["notes"]? = some docId ∧
    spaceNamed clubNode.store "club" = some spaceId ∧
    Store.spaceOf clubNode.store spaceId = some spaceId ∧
    Store.spaceOf clubNode.store docId = none := by
  decide +kernel

theorem openRef_parsed : ModelRef.parse "open@1" = .ok (ModelRef.new "open" "1") := by
  decide +kernel

theorem billing_lets : clubNode.lets "billing" (billingSets "notes") = true ∧
    clubNode.store.turnsAwayLocal 10 "notes" (ModelRef.new "open" "1") "set"
      (Store.setPayload "paid" (.bool true)) = false := by
  decide +kernel

/-- On the space document itself the plugin stays inside. -/
theorem plugin_stays_inside_club : clubNode.store.entries[(9 : DocId)]? = none ∧
    ActionInside clubNode Io.ok 10 9 "billing" "club" (billingSets "club") := by
  obtain ⟨hnew, hclub, -, hspace, hin, -⟩ := clubNode_store
  refine ⟨hnew, ((plugin_stays_inside_iff clubNode "billing" "club").2 Io.ok 10 9
    (billingSets "club") hnew rfl).mpr fun _ _ _ mr d _ hname _ => ?_⟩
  rw [show (billingSets "club").name = "club" from rfl, hclub] at hname
  obtain rfl := Option.some.inj hname
  exact ⟨spaceId, hspace, hin⟩

/-- **A plugin of one space writes to a document outside of it.** -/
theorem outsider_changed : clubNode.lets "billing" (billingSets "notes") = true ∧
    ¬ ActionInside clubNode Io.ok 10 9 "billing" "club" (billingSets "notes") := by
  obtain ⟨-, -, hnotes, -, -, hout⟩ := clubNode_store
  obtain ⟨hlets, haway⟩ := billing_lets
  refine ⟨hlets, fun h => ?_⟩
  have hother : (billingSets "notes").kind ≠ "init" := by decide
  obtain ⟨e, he⟩ := entry_of_not_turnsAwayLocal hnotes haway
  obtain ⟨sp, -, hin⟩ := h docId (by
    rw [pluginAction_other hlets hother]
    exact changed_runCreateAction_iff.mpr
      ⟨by decide +kernel, _, openRef_parsed, hnotes, haway⟩)
  unfold Store.spaceOf at hout
  rw [he, Option.some_or] at hin
  rw [he] at hout
  exact absurd (hin.symm.trans hout) (Option.some_ne_none sp)

end

end PhReactor
