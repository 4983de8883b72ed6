/-
  What a node writes itself.

  A node signs with its own key, and its key is pinned under its own name.  So of the checks that an
  action of its own meets, only those of the model are left.

  1. It may delete every document: `open@1` checks nothing.  The document is deleted even if the
     call fails afterwards, and only a call that does not fail looks at the name index
     (`deleteDoc_own`).

  2. It may create a space, and a chat or a drive in a space whose `members` it is one of
     (`accepts_spaceInit`, `accepts_memberInit_iff`).

  3. What the `init` of an interpreted model leaves is read off its writes (`fields_newborn`,
     `name_newborn`).
-/
import PhReactor.Encoding
import PhReactor.Store.Creation
import PhReactor.Store.Deletion
import PhReactor.Store.Writes

set_option linter.unusedSectionVars false

namespace PhReactor

variable [Primitives]

/-! ## Own signatures, built-in models -/

/-- The node's key is pinned under its own name, and verifies what it signs. -/
structure Inner.Authors (s : Inner) : Prop where
  pinned : s.knownKeys[s.origin]? = some (Primitives.verifyingKey s.key)
  keyOk : Primitives.keyOk (Primitives.verifyingKey s.key) = true
  verifies : ∀ bytes, Primitives.verifyStrict (Primitives.verifyingKey s.key) bytes
    (Primitives.sign s.key bytes) = true

/-- No package has replaced the models that spaces, chats and drives are made of. -/
structure ModelRegistry.BuiltIn (r : ModelRegistry) : Prop where
  opens : r.OpenStays
  space : r.find (ModelRef.new "space" "1") = some (.l1 space)
  chat : r.find (ModelRef.new "chat" "1") = some (.l1 chat)
  drive : r.find (ModelRef.new "drive" "1") = some (.l1 drive)

theorem Inner.Authors.congr {s t : Inner} (h : s.Authors) (hst : s.SameSetup t) : t.Authors := by
  refine ⟨?_, ?_, ?_⟩
  · rw [hst.knownKeys, hst.origin, hst.key]
    exact h.pinned
  · rw [hst.key]
    exact h.keyOk
  · rw [hst.key]
    exact h.verifies

theorem checkSignatures_own {s : Inner} (h : s.Authors) {a : Action} (horigin : a.origin = s.origin)
    (hcosig : a.cosig = []) : s.checkSignatures (a.sign s.key) = .ok () := by
  have hverify : (a.sign s.key).verify (Primitives.verifyingKey s.key) = true := by
    unfold Action.verify Action.sign
    dsimp only
    rw [messageBytes_withSig]
    exact h.verifies a.messageBytes
  have hkey : s.checkKey (a.sign s.key).origin "unknown origin" "bad origin key" "bad signature"
      (a.sign s.key).verify = .ok () := by
    unfold Inner.checkKey
    rw [show (a.sign s.key).origin = s.origin from horigin, h.pinned]
    dsimp only
    rw [h.keyOk, hverify]
    rfl
  unfold Inner.checkSignatures
  rw [hkey, show (a.sign s.key).cosig = [] from hcosig]
  rfl

/-- A model is found under its own reference, pinned hash and all. -/
theorem find_ref {r : ModelRegistry} {ref : ModelRef} {m : Model} (hm : r.find ref = some m)
    (hname : m.ref_.name = ref.name) (hversion : m.ref_.version = ref.version) :
    r.find m.ref_ = some m := by
  have hget : r.models[toLex (ref.name, ref.version)]? = some m := by
    unfold ModelRegistry.find at hm
    split at hm
    · cases hm
    · next m' hget =>
      split at hm
      · rw [hget]
        exact hm
      · split at hm
        · rw [hget]
          exact hm
        · cases hm
  unfold ModelRegistry.find
  rw [hname, hversion, hget]
  dsimp only
  cases hhash : m.ref_.hash with
  | none => rfl
  | some want => exact if_pos rfl

/-! ### In every run -/

theorem Inner.Authors.exec {s : Inner} (h : s.Authors) (ev : Event) : (s.exec ev).Authors := by
  obtain ⟨hkey, horigin⟩ := s.identity_exec ev
  refine ⟨?_, ?_, ?_⟩
  · rw [hkey, horigin]
    exact s.knownKeys_exec ev s.origin h.pinned
  · rw [hkey]
    exact h.keyOk
  · rw [hkey]
    exact h.verifies

/-- A store pins its own key when it is opened, and for good. -/
theorem authors_run {P : Inner → Event → Prop} {key : SigningKey} {origin : Origin}
    {extra : List Model} {s : Inner}
    (hkey : Primitives.keyOk (Primitives.verifyingKey key) = true)
    (hverifies : ∀ bytes, Primitives.verifyStrict (Primitives.verifyingKey key) bytes
      (Primitives.sign key bytes) = true)
    (hrun : Inner.Run P (Store.fresh key origin extra) s) : s.Authors := by
  refine hrun.induct ?_ fun t ev _ _ h => h.exec ev
  have hkeys : (∅ : Std.ExtTreeMap DocId (List Action)).keys = [] := rfl
  refine ⟨?_, ?_, ?_⟩ <;>
    simp only [Store.fresh, Store.openWithModels, Inner.replay, Store.emptyDisk, hkeys,
      List.foldl_nil]
  · simp
  · exact hkey
  · exact hverifies

/-- The models that stay as they were built in. -/
def builtInNames : List String := ["open", "space", "chat", "drive"]

theorem ModelRegistry.BuiltIn.insert {r : ModelRegistry} (h : r.BuiltIn) {m : Model}
    (hm : m.ref_.name ∉ builtInNames) : (r.insert m).BuiltIn := by
  have hother : ∀ n ∈ builtInNames, (r.insert m).find (ModelRef.new n "1") =
      r.find (ModelRef.new n "1") := by
    intro n hn
    rw [ModelRegistry.find_insert, if_neg]
    rintro ⟨hname, -⟩
    rw [hname] at hm
    exact hm hn
  refine ⟨h.opens.insert fun hname => ?_, ?_, ?_, ?_⟩
  · rw [hname] at hm
    exact absurd (by decide) hm
  · rw [hother "space" (by decide)]
    exact h.space
  · rw [hother "chat" (by decide)]
    exact h.chat
  · rw [hother "drive" (by decide)]
    exact h.drive

theorem builtIn_loaded {extra : List Model} (h : ∀ m ∈ extra, m.ref_.name ∉ builtInNames) :
    (loadedModels extra).BuiltIn := by
  have hbuiltin := seededWithBuiltins_find
  simp only [List.forall_mem_cons] at hbuiltin
  obtain ⟨-, hspace, hchat, hdrive, -⟩ := hbuiltin
  have hopens : (loadedModels []).OpenStays :=
    openStays_loadedModels fun _ hm => absurd hm List.not_mem_nil
  rw [loadedModels, List.foldl_nil] at hopens
  have hseeded : ModelRegistry.seededWithBuiltins.BuiltIn := ⟨hopens, hspace, hchat, hdrive⟩
  unfold loadedModels
  induction extra using List.reverseRecOn with
  | nil =>
    rw [List.foldl_nil]
    exact hseeded
  | append_singleton rest m ih =>
    rw [List.foldl_append]
    exact (ih fun m' hm' => h m' (List.mem_append_left _ hm')).insert (h m (by simp))

/-- The built-in models stay, if no package has one of their names. -/
theorem builtIn_run {P : Inner → Event → Prop} {key : SigningKey} {origin : Origin}
    {extra : List Model} {s : Inner} (hextra : ∀ m ∈ extra, m.ref_.name ∉ builtInNames)
    (hP : ∀ t m, P t (.addModel m) → m.ref_.name ∉ builtInNames)
    (hrun : Inner.Run P (Store.fresh key origin extra) s) : s.models.BuiltIn := by
  refine hrun.induct (I := fun t => t.models.BuiltIn) ?_ fun t ev _ hev h => ?_
  · rw [Store.fresh_models]
    exact builtIn_loaded hextra
  · rcases t.setup_exec ev with hsame | ⟨o, k, -, -, heq⟩ | ⟨m, rfl, heq⟩
    · rw [hsame.models]
      exact h
    · rw [heq]
      exact h
    · rw [heq]
      exact h.insert (hP t m hev)

/-- A local action does not change the setup. -/
theorem sameSetup_buildAndApply (s : Inner) (io : Io) (now : U64) (id : DocId) (model : ModelRef)
    (kind : String) (payload : Value) :
    s.SameSetup (Store.buildAndApply s io now id model kind payload).1 := by
  have hfst := buildAction_fst s now id model kind payload
  have hsetup : s.SameSetup (s.nextTs now).1 := ⟨rfl, rfl, rfl, rfl⟩
  cases hb : s.buildAction now id model kind payload with
  | mk t r =>
    rw [hb] at hfst
    obtain rfl : t = (s.nextTs now).1 := hfst
    cases r with
    | error e =>
      unfold Store.buildAndApply
      rw [hb]
      exact hsetup
    | ok a =>
      rw [buildAndApply_of_ok hb]
      exact hsetup.trans (Inner.sameSetup_applyAction _ io a)

theorem sameSetup_deleteDoc (s : Inner) (io : Io) (now : U64) (name : String) :
    s.SameSetup (Store.deleteDoc s io now name).1 := by
  unfold Store.deleteDoc Store.onNamed
  cases s.names[name]? with
  | none => exact ⟨rfl, rfl, rfl, rfl⟩
  | some id => exact sameSetup_buildAndApply s io now id openRef "delete" (.object [])

/-! ## Deleting a document -/

section

variable {s : Inner} {now : U64} {id : DocId} {name : String}

/-- The whole-document delete that a node builds. -/
def Inner.deleteOf (s : Inner) (now : U64) (id : DocId) (e : Entry) : Action :=
  Action.sign {
    docId := id
    model := s.canonicalModelRef openRef
    kind := "delete"
    payload := .object []
    ts := (s.nextTs now).2
    clock := e.clock.tick s.origin
    origin := s.origin
    cosig := []
    prevHash := e.log.getLast?.map Action.hash
    space := e.space
    sig := 0 } s.key

/-- Deleting a document of that name is to apply that action. -/
theorem deleteDoc_eq (io : Io) (now : U64) {e : Entry} (hname : s.names[name]? = some id)
    (he : s.entries[id]? = some e) :
    (Store.deleteDoc s io now name).1 =
        ((s.nextTs now).1.applyAction io (s.deleteOf now id e)).1 ∧
      (Store.deleteDoc s io now name).2.isOk =
        ((s.nextTs now).1.applyAction io (s.deleteOf now id e)).2.isOk := by
  have hbuild : s.buildAction now id openRef "delete" (.object []) =
      ((s.nextTs now).1, .ok (s.deleteOf now id e)) := by
    unfold Inner.buildAction
    dsimp only
    rw [show (s.nextTs now).1.entries[id]? = some e from he]
    rfl
  unfold Store.deleteDoc Store.onNamed
  rw [hname]
  dsimp only
  unfold Store.buildAndApply
  rw [hbuild]
  dsimp only
  cases (s.nextTs now).1.applyAction io (s.deleteOf now id e) with
  | mk t r => cases r <;> exact ⟨rfl, rfl⟩

theorem canonicalModelRef_open (hr : s.models.OpenStays) :
    s.canonicalModelRef openRef = openRef := by
  unfold Inner.canonicalModelRef
  rw [hr.found]
  rfl

theorem deletesDoc_deleteOf (hr : s.models.OpenStays) (e : Entry) :
    (s.deleteOf now id e).deletesDoc = true := by
  unfold Action.deletesDoc
  rw [show (s.deleteOf now id e).model = openRef from canonicalModelRef_open hr]
  rfl

/-- Nothing stands in the way of a node's own delete. -/
theorem accepted_deleteOf (now : U64) (hown : s.Authors) (hr : s.models.OpenStays) {e : Entry}
    (he : s.entries[id]? = some e) :
    (s.nextTs now).1.Accepted (s.deleteOf now id e) .open := by
  have hmodel : (s.deleteOf now id e).model = openRef := canonicalModelRef_open hr
  have hget : (s.nextTs now).1.entries[(s.deleteOf now id e).docId]? = some e := he
  refine ⟨⟨?_, ?_, rfl, rfl, ?_, rfl, ?_⟩, rfl⟩
  · exact checkSignatures_own (s := (s.nextTs now).1) (hown.congr ⟨rfl, rfl, rfl, rfl⟩) rfl rfl
  · rw [hmodel]
    exact hr.found
  · unfold Inner.checkAuthorize
    rw [hget]
    rfl
  · unfold Inner.checkSpaceBinding
    rw [hget]
    show (if !e.log.isEmpty && e.space != e.space then _ else _) = _
    rw [bne_self_eq_false, Bool.and_false, if_neg Bool.false_ne_true]

/-- The entry of an accepted action is the one it leaves, but for a snapshot of its log. -/
theorem entry_accept {a : Action} {m : Model} (hacc : s.Accepted a m) (io : Io) :
    ∃ log, (s.applyAction io a).1.entries[a.docId]? = some { s.left a with log := log } := by
  cases hstuck : s.refoldStuck a with
  | true =>
    obtain ⟨msg, heq⟩ := Inner.applyAction_stuck hacc hstuck io
    rw [left_of_stuck hacc hstuck, heq]
    exact ⟨(appended (s.entryFor a.docId) m a).log, by simp [Inner.putEntry]⟩
  | false =>
    obtain ⟨log, hentry⟩ := View.entry_finish
      (show View.entry { s.view a.docId with entry := some (s.settled a m) } = _ from rfl) io a
    rw [← view_applyAction_settled hacc hstuck io] at hentry
    rw [left_of_settled hacc hstuck]
    exact ⟨log, hentry⟩

/-- A re-fold does not bring a document back, and meets every delete. -/
theorem deleted_foldStep {r : ModelRegistry} (hr : r.OpenStays) {e : Entry} {b : Action}
    (h : e.deleted = true ∨ b.deletesDoc = true) : (foldStep r e b).deleted = true := by
  rcases h with hdel | hb
  · cases hm : r.find b.model with
    | none =>
      unfold foldStep
      rw [hm]
      exact hdel
    | some m =>
      rw [foldStep_eq hm]
      rcases refoldStep_cases e b m with heq | ⟨-, -, heq⟩
      · rw [heq]
        exact hdel
      · rw [heq]
        exact deleted_applyOpsToEntry_mono hdel m b
  · rw [foldStep_eq (hr.find_of_deletesDoc hb)]
    exact deleted_of_deletesDoc hr hb e

/-- A delete leaves a deleted document, in order or not. -/
theorem deleted_left {a : Action} (hr : s.models.OpenStays) (ha : a.deletesDoc = true)
    (hacc : s.Accepted a .open) : (s.left a).deleted = true := by
  have happ : (appended (s.entryFor a.docId) .open a).deleted = true :=
    deleted_of_deletesDoc hr ha _
  cases hstuck : s.refoldStuck a with
  | true =>
    rw [left_of_stuck hacc hstuck]
    exact happ
  | false =>
    rw [left_of_settled hacc hstuck]
    unfold Inner.settled
    split
    · rw [(refolded_spec s a.docId _).1.deleted]
      refine (Lib.foldl_attains (I := fun _ => True) (P := fun e : Entry => e.deleted = true)
        (Q := fun b : Action => b.deletesDoc = true) _
        (fun b _ e _ => ⟨trivial, deleted_foldStep hr⟩) trivial).2 (Or.inr ⟨a, ?_, ha⟩)
      exact mem_sortLog.mpr (List.mem_append_right _ (List.mem_singleton_self a))
    · exact happ

/-- The node's own delete finishes, and the document it leaves has that name. -/
def Inner.FreesName (s : Inner) (io : Io) (now : U64) (id : DocId) (e : Entry) (name : String) :
    Prop :=
  (s.nextTs now).1.Finishes io (s.deleteOf now id e) ∧
    ((s.nextTs now).1.left (s.deleteOf now id e)).doc.name = name

instance (s : Inner) (io : Io) (now : U64) (id : DocId) (e : Entry) (name : String) :
    Decidable (s.FreesName io now id e name) :=
  inferInstanceAs (Decidable (_ ∧ _))

/-- **A node deletes a document of its own store.**  The document is deleted, whatever the call
    answers; nothing else is touched; and the name index is as step 7 leaves it, if the call
    succeeds. -/
theorem deleteDoc_own (io : Io) (now : U64) (hown : s.Authors) (hr : s.models.OpenStays) {e : Entry}
    (hname : s.names[name]? = some id) (he : s.entries[id]? = some e) :
    s.SameSetup (Store.deleteDoc s io now name).1 ∧
      (∃ e', (Store.deleteDoc s io now name).1.entries[id]? = some e' ∧ e'.deleted = true) ∧
      (∀ d, d ≠ id → (Store.deleteDoc s io now name).1.entries[d]? = s.entries[d]?) ∧
      ((Store.deleteDoc s io now name).2.isOk = true ↔
        (s.nextTs now).1.Finishes io (s.deleteOf now id e)) ∧
      (Store.deleteDoc s io now name).1.names =
        if (s.nextTs now).1.Finishes io (s.deleteOf now id e) then
          indexed s.names id ((s.nextTs now).1.left (s.deleteOf now id e)) else s.names := by
  have hacc := accepted_deleteOf now hown hr he
  obtain ⟨hstate, hok⟩ := deleteDoc_eq io now hname he
  have hsetup : s.SameSetup (s.nextTs now).1 := ⟨rfl, rfl, rfl, rfl⟩
  rw [hstate, hok]
  refine ⟨hsetup.trans (Inner.sameSetup_applyAction _ io _), ?_, ?_, ?_, ?_⟩
  · obtain ⟨log, hentry⟩ := entry_accept hacc io
    exact ⟨_, hentry, deleted_left (s := (s.nextTs now).1) hr (deletesDoc_deleteOf hr e) hacc⟩
  · intro d hd
    exact congrArg View.entry (view_applyAction_ne (s.nextTs now).1 io hd)
  · rw [Inner.isOk_applyAction, Inner.accepts_iff.mpr ⟨_, hacc⟩]
    exact and_iff_right rfl
  · exact names_accept (Inner.accepts_iff.mpr ⟨_, hacc⟩) io

end

/-! ## Creating documents of an interpreted model -/

/-- The payload of a space's `init`. -/
def spacePayload (name visibility : String) (members managers : List String) : Value :=
  .object [("managers", .array (managers.map .string)), ("members", .array (members.map .string)),
    ("name", .string name), ("visibility", .string visibility)]

theorem typeMatches_strings (l : List String) :
    typeMatches (.array (l.map .string)) "string[]" = true := by
  show (l.map Value.string).all Value.isString = true
  rw [List.all_map]
  exact List.all_eq_true.mpr fun _ _ => rfl

theorem validate_spacePayload (name visibility : String) (members managers : List String) :
    space.validatePayload "init" (spacePayload name visibility members managers) = .ok () := by
  have hcheck : ∀ (l : List String) (msg : Reject),
      (if typeMatches (.array (l.map .string)) "string[]" then Except.ok () else .error msg) =
        (.ok () : Except Reject Unit) := fun l msg => if_pos (typeMatches_strings l)
  show (((if typeMatches (.array (managers.map .string)) "string[]" then _ else .error _) :
      Except Reject Unit) >>= fun _ =>
    ((if typeMatches (.array (members.map .string)) "string[]" then _ else .error _) :
      Except Reject Unit) >>= fun _ => _) = _
  rw [hcheck, hcheck]
  rfl

section

variable {s : Inner} {now : U64} {id : DocId} {ref : ModelRef} {m : L1} {payload : Value}
  {space : Option DocId}

/-- What a node's own `init` still has to pass: the schema and the gates of the model. -/
theorem accepts_initOf (hown : s.Authors) (hm : s.models.find ref = some (.l1 m))
    (hname : m.ref_.name = ref.name) (hversion : m.ref_.version = ref.version) :
    (s.unborn now id space).accepts (s.initOf now id ref payload space) = true ↔
      m.validatePayload "init" payload = .ok () ∧
      (s.unborn now id space).checkQuorum (.l1 m) (s.initOf now id ref payload space) = .ok () ∧
      (s.unborn now id space).checkSpaceMember (.l1 m) (s.initOf now id ref payload space) =
        .ok () ∧
      m.checkPrecondition (Entry.newIn id space).doc (s.initOf now id ref payload space) =
        .ok () := by
  have hmodel : (s.initOf now id ref payload space).model = m.ref_ := by
    show s.canonicalModelRef ref = m.ref_
    unfold Inner.canonicalModelRef
    rw [hm]
    rfl
  have hfind : (s.unborn now id space).models.find (s.initOf now id ref payload space).model =
      some (.l1 m) := by
    rw [hmodel]
    exact find_ref hm hname hversion
  have hget : (s.unborn now id space).entries[(s.initOf now id ref payload space).docId]? =
      some (Entry.newIn id space) := by
    show (s.entries.insert id _)[id]? = _
    simp
  rw [Inner.accepts_iff]
  constructor
  · rintro ⟨m', hacc⟩
    obtain rfl : Model.l1 m = m' := Option.some.inj (hfind.symm.trans hacc.model)
    have hpre := hacc.precondition
    rw [entryFor_eq hget] at hpre
    exact ⟨hacc.payload, hacc.quorum, hacc.spaceMember, hpre⟩
  · rintro ⟨hpayload, hquorum, hmember, hpre⟩
    refine ⟨.l1 m, ⟨?_, hfind, hpayload, hquorum, ?_, hmember, ?_⟩, ?_⟩
    · exact checkSignatures_own (s := s.unborn now id space)
        (hown.congr ⟨rfl, rfl, rfl, rfl⟩) rfl rfl
    · unfold Inner.checkAuthorize
      rw [hget]
      exact mapError_eq_ok.mpr ((Model.l1 m).authorize_of_fields_empty rfl _)
    · unfold Inner.checkSpaceBinding
      rw [hget]
      rfl
    · rw [entryFor_eq hget]
      exact hpre

/-- Without a quorum. -/
theorem accepts_initOf_iff (hown : s.Authors) (hm : s.models.find ref = some (.l1 m))
    (hname : m.ref_.name = ref.name) (hversion : m.ref_.version = ref.version)
    (hquorum : m.quorum "init" = none) :
    (s.unborn now id space).accepts (s.initOf now id ref payload space) = true ↔
      m.validatePayload "init" payload = .ok () ∧
      (s.unborn now id space).checkSpaceMember (.l1 m) (s.initOf now id ref payload space) =
        .ok () ∧
      m.checkPrecondition (Entry.newIn id space).doc (s.initOf now id ref payload space) =
        .ok () := by
  have hfree : (s.unborn now id space).checkQuorum (.l1 m) (s.initOf now id ref payload space) =
      .ok () := by
    unfold Inner.checkQuorum
    rw [show (Model.l1 m).quorum (s.initOf now id ref payload space).kind = none from hquorum]
  rw [accepts_initOf hown hm hname hversion]
  exact and_congr_right fun _ => and_iff_right hfree

/-- The `init` of `m` with this payload asks for nothing but membership of the space. -/
structure L1.MemberInit (m : L1) (payload : Value) : Prop where
  payload : m.validatePayload "init" payload = .ok ()
  quorum : m.quorum "init" = none
  member : m.requiresSpaceMember "init" = some "members"
  precondition : ∀ d a, a.kind = "init" → m.checkPrecondition d a = .ok ()

theorem chat_memberInit (doc chan : String) :
    chat.MemberInit (.object [("channel", .string chan), ("name", .string doc)]) := by
  refine ⟨rfl, rfl, rfl, fun d a ha => ?_⟩
  unfold L1.checkPrecondition
  rw [ha]
  rfl

theorem drive_memberInit (doc : String) : drive.MemberInit (.object [("name", .string doc)]) := by
  refine ⟨rfl, rfl, rfl, fun d a ha => ?_⟩
  unfold L1.checkPrecondition
  rw [ha]
  rfl

/-- **Who may create it**: a member of the space, which is here. -/
theorem accepts_memberInit_iff (hown : s.Authors) (hm : s.models.find ref = some (.l1 m))
    (hname : m.ref_.name = ref.name) (hversion : m.ref_.version = ref.version)
    (hinit : m.MemberInit payload) {sp : DocId} (hsp : sp ≠ id) :
    (s.unborn now id (some sp)).accepts (s.initOf now id ref payload (some sp)) = true ↔
      ∃ e, s.entries[sp]? = some e ∧ s.origin ∈ Inner.listOf e.doc "members" := by
  rw [accepts_initOf_iff hown hm hname hversion hinit.quorum]
  have hget : (s.unborn now id (some sp)).entries[sp]? = s.entries[sp]? := by
    show (s.entries.insert id _)[sp]? = _
    rw [Std.ExtTreeMap.getElem?_insert, if_neg]
    exact fun h => hsp (Std.compare_eq_iff_eq.mp h).symm
  have hmember : (s.unborn now id (some sp)).checkSpaceMember (.l1 m)
      (s.initOf now id ref payload (some sp)) = .ok () ↔
      ∃ e, s.entries[sp]? = some e ∧ s.origin ∈ Inner.listOf e.doc "members" := by
    unfold Inner.checkSpaceMember
    rw [show (Model.l1 m).requiresSpaceMember (s.initOf now id ref payload (some sp)).kind =
      some "members" from hinit.member]
    dsimp only
    rw [show (s.initOf now id ref payload (some sp)).space = some sp from rfl, Option.some_or]
    dsimp only
    rw [hget]
    cases s.entries[sp]? with
    | none => simp
    | some e =>
      dsimp only
      have hany : ((Inner.listOf e.doc "members").any fun o =>
          o == (s.initOf now id ref payload (some sp)).origin) = true ↔
          s.origin ∈ Inner.listOf e.doc "members" := by
        rw [List.any_beq', List.contains_iff_mem]
        rfl
      by_cases hin : s.origin ∈ Inner.listOf e.doc "members"
      · rw [if_pos (hany.mpr hin)]
        exact ⟨fun _ => ⟨e, rfl, hin⟩, fun _ => rfl⟩
      · rw [if_neg fun h => hin (hany.mp h)]
        refine ⟨fun h => (by cases h), ?_⟩
        rintro ⟨e', he', hin'⟩
        obtain rfl := Option.some.inj he'
        exact absurd hin' hin
  rw [hmember]
  exact ⟨fun h => h.2.1, fun h => ⟨hinit.payload, h, hinit.precondition _ _ rfl⟩⟩

/-- Everyone may create a space. -/
theorem accepts_spaceInit (hown : s.Authors) (hr : s.models.BuiltIn)
    (name visibility : String) (members managers : List String) :
    (s.unborn now id (some id)).accepts (s.initOf now id (ModelRef.new "space" "1")
      (spacePayload name visibility members managers) (some id)) = true := by
  rw [accepts_initOf_iff hown hr.space rfl rfl rfl]
  exact ⟨validate_spacePayload name visibility members managers, rfl, rfl⟩

/-! ## What the `init` leaves -/

/-- The entry an `init` leaves is what the model makes of a blank one. -/
theorem sameDoc_newborn (model : Model) :
    SameDoc (s.newborn now id ref payload space model)
      (applyOpsToEntry (Entry.newIn id space) model (s.initOf now id ref payload space)).1 := by
  have hsame := (sameDoc_stamped (Entry.newIn id space)
    (s.initOf now id ref payload space)).after_applyOps model (s.initOf now id ref payload space)
  exact ⟨hsame.doc, hsame.deleted⟩

theorem deleted_newborn : (s.newborn now id ref payload space (.l1 m)).deleted = false := by
  rw [(sameDoc_newborn _).deleted, deleted_l1]
  rfl

theorem id_newborn (model : Model) : (s.newborn now id ref payload space model).doc.id = id := by
  rw [(sameDoc_newborn _).doc, id_applyOpsToEntry]
  rfl

/-- **The fields of a new document** are the writes of the `init`. -/
theorem fields_newborn (s : Inner) (now : U64) (id : DocId) (ref : ModelRef) (payload : Value)
    (space : Option DocId) (hs : m.Sound "init") {k : String} (hk : k ≠ nameKey) :
    (s.newborn now id ref payload space (.l1 m)).doc.fields[k]? =
      ((m.writes "init").lookup k).map fun w => fieldFromOp (L1.writeOp
        (s.initOf now id ref payload space) k
        (written (Entry.newIn id space).doc (s.initOf now id ref payload space) k w)) := by
  have hblank : (Entry.newIn id space).doc.fields[k]? = none := by
    show (∅ : Std.ExtTreeMap String Field)[k]? = none
    simp
  have hkind : (s.initOf now id ref payload space).kind = "init" := rfl
  rw [(sameDoc_newborn _).doc, fields_l1 (e := Entry.newIn id space) hs rfl hk, hkind]
  cases (m.writes "init").lookup k with
  | none => exact hblank
  | some w =>
    rw [hblank]
    rfl

/-- The name of a new document is the string its `init` writes to the name. -/
theorem name_newborn (hs : m.Sound "init") {name : String}
    (hw : (m.writes "init").lookup nameKey = some (Def.set (.string "$payload.name")))
    (hname : payload.get? "name" = some (.string name)) :
    (s.newborn now id ref payload space (.l1 m)).doc.name = name := by
  have hred : (Model.l1 m).reduce (Entry.newIn id space).doc (s.initOf now id ref payload space) =
      .ok ((m.writes "init").map fun p => L1.writeOp (s.initOf now id ref payload space) p.1
        (written (Entry.newIn id space).doc (s.initOf now id ref payload space) p.1 p.2)) :=
    L1.reduce_eq (show m.Sound (s.initOf now id ref payload space).kind from hs) _
  rw [(sameDoc_newborn _).doc, name_applyOpsToEntry hred rfl ?_ ?_, find?_map_writeOp, hw]
  · show (((s.initOf now id ref payload space).payload.get? "name").getD .null).asStr?.getD "" = _
    rw [show (s.initOf now id ref payload space).payload.get? "name" = some (.string name) from
      hname]
    rfl
  · intro op hop
    obtain ⟨p, -, rfl⟩ := List.mem_map.mp hop
    exact fun h => by cases h
  · show (∅ : Std.ExtTreeMap String Field)[nameKey]? = none
    simp

/-! ## The creations -/

/-- The model's `init` takes the document's name from the payload. -/
structure L1.NamesItself (m : L1) : Prop where
  sound : m.Sound "init"
  name : (m.writes "init").lookup nameKey = some (Def.set (.string "$payload.name"))

theorem chat_namesItself : chat.NamesItself :=
  ⟨L1.sound_of_reducers (show chat.reducers = .object chatReducers from rfl) (by decide) rfl, rfl⟩

theorem drive_namesItself : drive.NamesItself :=
  ⟨L1.sound_of_reducers (show drive.reducers = .object _ from rfl) (by decide) rfl, rfl⟩

theorem space_namesItself : PhReactor.space.NamesItself :=
  ⟨L1.sound_of_reducers (show PhReactor.space.reducers = .object spaceReducers from rfl)
    (by decide) rfl, rfl⟩

variable {io : Io} {name : String}

/-- **When a creation succeeds**: the name is free, and the store accepts the `init`. -/
theorem isOk_createDocInSpace :
    (Store.createDocInSpace s io now id name ref payload space).2.isOk = true ↔
      nameFree s name = true ∧
        (s.unborn now id space).accepts (s.initOf now id ref payload space) = true := by
  cases hfree : nameFree s name with
  | false =>
    obtain ⟨msg, heq⟩ := createDocInSpace_refused io now id ref payload space hfree
    rw [heq]
    exact ⟨fun h => (by cases h), fun h => (by cases h.1)⟩
  | true =>
    rw [createDocInSpace_eq hfree]
    rcases born_cases s io now id ref payload space with
      ⟨hrefused, -, -, msg, hans⟩ | ⟨m', hacc, -, -, hans⟩
    · rw [hans, hrefused]
      exact ⟨fun h => (by cases h), fun h => (by cases h.2)⟩
    · rw [hans, Inner.accepts_iff.mpr ⟨m', hacc⟩]
      exact ⟨fun _ => ⟨rfl, rfl⟩, fun _ => rfl⟩

theorem isOk_createSpaceAt :
    (Store.createSpaceAt s io now id name payload).2.isOk = true ↔
      nameFree s name = true ∧ s.entries.contains id = false ∧
        (s.unborn now id (some id)).accepts
          (s.initOf now id (ModelRef.new "space" "1") payload (some id)) = true := by
  by_cases h : nameFree s name = true ∧ s.entries.contains id = false
  · rw [createSpaceAt_eq h.1 h.2, ← createDocInSpace_eq h.1, isOk_createDocInSpace]
    exact ⟨fun hok => ⟨hok.1, h.2, hok.2⟩, fun hok => ⟨hok.1, hok.2.2⟩⟩
  · have href : nameFree s name = false ∨ s.entries.contains id = true :=
      (not_and_or.mp h).imp Bool.eq_false_iff.mpr eq_true_of_ne_false
    obtain ⟨msg, heq⟩ := createSpaceAt_refused io now payload href
    rw [heq]
    exact ⟨fun hok => (by cases hok), fun hok => absurd ⟨hok.1, hok.2.1⟩ h⟩

/-- Neither touches another document, or the setup. -/
theorem createDocInSpace_frame (s : Inner) (io : Io) (now : U64) (id : DocId) (name : String)
    (ref : ModelRef) (payload : Value) (space : Option DocId) :
    s.SameSetup (Store.createDocInSpace s io now id name ref payload space).1 ∧
      ∀ d, d ≠ id → (Store.createDocInSpace s io now id name ref payload space).1.entries[d]? =
        s.entries[d]? := by
  cases hfree : nameFree s name with
  | false =>
    obtain ⟨msg, heq⟩ := createDocInSpace_refused io now id ref payload space hfree
    rw [heq]
    exact ⟨⟨rfl, rfl, rfl, rfl⟩, fun _ _ => rfl⟩
  | true =>
    obtain ⟨hsetup, hview⟩ := born_frame s io now id ref payload space
    rw [createDocInSpace_eq hfree]
    exact ⟨hsetup, fun d hd => congrArg View.entry (hview d hd)⟩

theorem createSpaceAt_frame (s : Inner) (io : Io) (now : U64) (id : DocId) (name : String)
    (payload : Value) :
    s.SameSetup (Store.createSpaceAt s io now id name payload).1 ∧
      ∀ d, d ≠ id → (Store.createSpaceAt s io now id name payload).1.entries[d]? =
        s.entries[d]? := by
  rw [createSpaceAt_fst]
  split
  · exact ⟨⟨rfl, rfl, rfl, rfl⟩, fun _ _ => rfl⟩
  · exact createDocInSpace_frame s io now id name _ payload _

/-- What a creation leaves: the document that the `init` makes, under the name that it wrote. -/
theorem createDocInSpace_indexed (hm : s.models.find ref = some (.l1 m))
    (hname : m.ref_.name = ref.name) (hversion : m.ref_.version = ref.version)
    (hok : (Store.createDocInSpace s io now id name ref payload space).2.isOk = true) :
    (Store.createDocInSpace s io now id name ref payload space).1.names =
        indexed s.names id (s.newborn now id ref payload space (.l1 m)) ∧
      (Store.createDocInSpace s io now id name ref payload space).1.entries[id]? =
        some (s.newborn now id ref payload space (.l1 m)) := by
  obtain ⟨hfree, haccepts⟩ := isOk_createDocInSpace.mp hok
  rw [createDocInSpace_eq hfree]
  rcases born_cases s io now id ref payload space with
    ⟨hrefused, -⟩ | ⟨m', hacc, hnames, hentry, -⟩
  · rw [hrefused] at haccepts
    cases haccepts
  · have hmodel : (s.initOf now id ref payload space).model = m.ref_ := by
      show s.canonicalModelRef ref = m.ref_
      unfold Inner.canonicalModelRef
      rw [hm]
      rfl
    have hfind : (s.unborn now id space).models.find (s.initOf now id ref payload space).model =
        some (.l1 m) := by
      rw [hmodel]
      exact find_ref hm hname hversion
    obtain rfl : Model.l1 m = m' := Option.some.inj (hfind.symm.trans hacc.model)
    exact ⟨hnames, hentry⟩

/-- **What a creation leaves** when the `init` takes the name from the payload. -/
theorem createDocInSpace_ok (hm : s.models.find ref = some (.l1 m))
    (hname : m.ref_.name = ref.name) (hversion : m.ref_.version = ref.version)
    (hinit : m.NamesItself) (hpayload : payload.get? "name" = some (.string name))
    (hok : (Store.createDocInSpace s io now id name ref payload space).2.isOk = true) :
    (Store.createDocInSpace s io now id name ref payload space).1.names = s.names.insert name id ∧
      (Store.createDocInSpace s io now id name ref payload space).1.entries[id]? =
        some (s.newborn now id ref payload space (.l1 m)) := by
  obtain ⟨hnames, hentry⟩ := createDocInSpace_indexed hm hname hversion hok
  obtain ⟨hfree, -⟩ := isOk_createDocInSpace.mp hok
  refine ⟨?_, hentry⟩
  rw [hnames]
  unfold indexed
  rw [deleted_newborn, if_neg Bool.false_ne_true,
    name_newborn hinit.sound hinit.name hpayload, if_pos (ne_empty_of_nameFree hfree)]

theorem createSpaceAt_ok (payload : Value) (hr : s.models.BuiltIn)
    (hpayload : payload.get? "name" = some (.string name))
    (hok : (Store.createSpaceAt s io now id name payload).2.isOk = true) :
    (Store.createSpaceAt s io now id name payload).1.names = s.names.insert name id ∧
      (Store.createSpaceAt s io now id name payload).1.entries[id]? =
        some (s.newborn now id (ModelRef.new "space" "1") payload (some id)
          (.l1 PhReactor.space)) := by
  obtain ⟨hfree, hid, haccepts⟩ := isOk_createSpaceAt.mp hok
  rw [createSpaceAt_eq hfree hid, ← createDocInSpace_eq hfree]
  exact createDocInSpace_ok hr.space rfl rfl space_namesItself hpayload
    (isOk_createDocInSpace.mpr ⟨hfree, haccepts⟩)

end

end PhReactor
