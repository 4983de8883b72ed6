/-
  What the create-doc reaction creates (`perform` and `dispatch` of `src/processor.rs`).

  A processor describes a document by templates: its name, its model and its fields.  In each of
  them `$doc` is meant to stand for the document that changed, and `$model` for that document's
  model (`meant`).  The new document is meant to be what the model's `init` makes of the fields and
  the name (`Creates`).

  1. The reaction has a model of its own, which hides that of the document that changed: it replaces
     `$model` by the template of its own model.

  2. It passes the name under `__name__`, the key that an `init` writes, while an `init` reads the
     name from `name` like any other part of its payload.

  3. `creates_iff` says when neither matters.  The templates must come to the same
     (`AgreeingTemplates`), and the `init` must make the same document of what it is passed
     (`Serves`).

  4. For the models that are loaded at every start (`plainInit_shipped`) the second comes down to
     the fields: one of them, `name`, must repeat the name (`creates_plain_iff`).  Under the two
     that live in a space nothing is created (`not_creates_of_spaceMember`).
-/
import PhReactor.Model.Realistic
import PhReactor.Processor
import PhReactor.Sample
import PhReactor.Store.Authoring
import PhReactor.Store.FieldTypes
import PhReactor.Store.TamperEvidence

set_option linter.unusedSectionVars false

namespace PhReactor

section

variable [Primitives]

/-- `Store::create_doc_model`. -/
def Store.createDocModel (s : Inner) (draw : Draw) (name : String) (model : ModelRef)
    (payload : Value) : Inner × Except String DocId :=
  createDocInSpace s draw.io draw.now draw.id name model payload none

/-- `dispatch` of a change, at the turn of one processor: the store after it.  Only the create-doc
    reaction has to do with the store. -/
def Inner.dispatchTo (s : Inner) (draw : Draw) (spec : ProcessorSpec) (change : DocChange) :
    Inner :=
  if spec.filter.matches change then
    match perform s spec change with
    | .create name model payload => (Store.createDocModel s draw name model payload).1
    | _ => s
  else s

/-! ## What is meant -/

/-- A template, for the document that changed and its model. -/
def meant (change : DocChange) (template : String) : String :=
  substitute template change.name change.model.name

/-- The fields, substituted. -/
def meantFields (change : DocChange) (fields : Std.ExtTreeMap String Value) :
    Std.ExtTreeMap String Value :=
  fields.map fun _ v => templated change.name change.model.name v

/-- The substituted fields plus `name`. -/
def meantPayload (change : DocChange) (name : String) (fields : Std.ExtTreeMap String Value) :
    Value :=
  .object ((meantFields change fields).insert "name" (.string (meant change name))).toList

/-- What `init` makes of a new document. -/
def Inner.initDoc (s : Inner) (draw : Draw) (ref : ModelRef) (payload : Value) (m : Model) : Doc :=
  (s.newborn draw.now draw.id ref payload none m).doc.live

/-- The same fields with the same values. -/
def Doc.SameValues (d d' : Doc) : Prop :=
  ∀ k : String, d.fields[k]?.map Field.value = d'.fields[k]?.map Field.value

def meantRef (change : DocChange) (model : String) : ModelRef :=
  ModelRef.new (meant change model) "1"

/-- A change that matches a processor with a create-doc reaction, on a store in which the name is
    valid and free and the model is loaded, and the schema of its `init` is satisfied. -/
structure CreateCase (s : Inner) (spec : ProcessorSpec) (change : DocChange) (model name : String)
    (fields : Std.ExtTreeMap String Value) (m : Model) : Prop where
  reaction : spec.reaction = .createDoc model name fields
  matched : spec.filter.matches change = true
  free : nameFree s (meant change name) = true
  loaded : s.models.find (meantRef change model) = some m
  refName : m.ref_.name = meant change model
  refVersion : m.ref_.version = "1"
  schema : m.validatePayload "init" (meantPayload change name fields) = .ok ()

/-- The reaction creates the document that it describes. -/
structure Creates (s : Inner) (draw : Draw) (spec : ProcessorSpec) (change : DocChange)
    (model name : String) (fields : Std.ExtTreeMap String Value) (m : Model) : Prop where
  /-- In every template the document and its model are those of the change. -/
  templates : ∃ payload, perform s spec change =
      .create (meant change name) (meantRef change model) payload ∧
    ∀ (k : String) (v : Value), fields[k]? = some v →
      payload.get? k = some (templated change.name change.model.name v)
  /-- There is a live document of that model with that name, and `init` made its fields. -/
  document : ∃ id e doc, (s.dispatchTo draw spec change).names[meant change name]? = some id ∧
    (s.dispatchTo draw spec change).entries[id]? = some e ∧ e.model = m.ref_ ∧
    Store.get (s.dispatchTo draw spec change) (meant change name) = some doc ∧
    doc.name = meant change name ∧
    doc.SameValues (s.initDoc draw (meantRef change model) (meantPayload change name fields) m)

/-! ## What is done -/

/-- The payload that the reaction passes when `$model` is replaced by `model`. -/
def passed (doc model docName : String) (fields : Std.ExtTreeMap String Value) :
    Std.ExtTreeMap String Value :=
  fields.toList.foldl (fun payload (k, v) => payload.insert k (templated doc model v))
    ((∅ : Std.ExtTreeMap String Value).insert "__name__" (.string docName))

/-- The payload that is passed when the templates come to what is meant. -/
def passedPayload (change : DocChange) (name : String) (fields : Std.ExtTreeMap String Value) :
    Value :=
  .object (passed change.name change.model.name (meant change name) fields).toList

/-- With the reaction's own model for `$model` the templates come to the same. -/
structure AgreeingTemplates (change : DocChange) (model name : String)
    (fields : Std.ExtTreeMap String Value) : Prop where
  sameName : substitute name change.name model = meant change name
  sameModel : substitute model change.name model = meant change model
  sameFields : ∀ (k : String) (v : Value), fields[k]? = some v →
    templated change.name model v = templated change.name change.model.name v

/-- The `init` of the model takes what it is passed, with the name under `__name__`, for what is
    meant, and its gates let it pass on a new document. -/
structure Serves (s : Inner) (draw : Draw) (change : DocChange) (model name : String)
    (fields : Std.ExtTreeMap String Value) (m : Model) : Prop where
  schema : m.validatePayload "init" (passedPayload change name fields) = .ok ()
  quorum : (s.unborn draw.now draw.id none).checkQuorum m (s.initOf draw.now draw.id
    (meantRef change model) (passedPayload change name fields) none) = .ok ()
  spaceMember : m.requiresSpaceMember "init" = none
  precondition : m.checkPrecondition (Entry.new draw.id).doc (s.initOf draw.now draw.id
    (meantRef change model) (passedPayload change name fields) none) = .ok ()
  sameName : (s.initDoc draw (meantRef change model) (passedPayload change name fields) m).name =
    meant change name
  sameFields : (s.initDoc draw (meantRef change model)
      (passedPayload change name fields) m).SameValues
    (s.initDoc draw (meantRef change model) (meantPayload change name fields) m)

section

variable {s : Inner} {draw : Draw} {spec : ProcessorSpec} {change : DocChange}
  {model name : String} {fields : Std.ExtTreeMap String Value} {m : Model}

theorem perform_createDoc (h : spec.reaction = .createDoc model name fields) :
    perform s spec change =
      if (Store.get s (substitute name change.name model)).isSome then
        .skipped (substitute name change.name model)
      else
        .create (substitute name change.name model)
          (ModelRef.new (substitute model change.name model) "1")
          (.object (passed change.name model (substitute name change.name model)
            fields).toList) := by
  unfold perform
  rw [h]
  rfl

/-- A field is passed as its template comes to. -/
theorem get?_passed {doc model docName k : String} {v : Value} (h : fields[k]? = some v) :
    (Value.object (passed doc model docName fields).toList).get? k =
      some (templated doc model v) := by
  show (passed doc model docName fields).toList.lookup k = _
  rw [Lib.lookup_toList]
  exact Lib.getElem?_foldl_insert_of_mem (Lib.distinct_toList fields) (Lib.mem_toList.mpr h) _

theorem AgreeingTemplates.passed_eq (h : AgreeingTemplates change model name fields)
    (docName : String) : passed change.name model docName fields =
      passed change.name change.model.name docName fields := by
  refine List.foldl_ext _ _ _ fun payload p hp => ?_
  show payload.insert p.1 (templated change.name model p.2) =
    payload.insert p.1 (templated change.name change.model.name p.2)
  rw [h.sameFields p.1 p.2 (Lib.mem_toList.mp hp)]

/-- What agreeing templates come to. -/
theorem AgreeingTemplates.perform_eq (h : AgreeingTemplates change model name fields)
    (hcase : CreateCase s spec change model name fields m) :
    perform s spec change = .create (meant change name) (meantRef change model)
      (passedPayload change name fields) := by
  rw [perform_createDoc hcase.reaction, h.sameName, h.sameModel, h.passed_eq,
    get_of_not_named (nameFree_iff.mp hcase.free).2]
  rfl

/-- The templates must agree for what is created to be what is meant. -/
theorem Creates.agreeing (h : Creates s draw spec change model name fields m)
    (hcase : CreateCase s spec change model name fields m) :
    AgreeingTemplates change model name fields := by
  obtain ⟨payload, hperform, hfields⟩ := h.templates
  rw [perform_createDoc hcase.reaction] at hperform
  split at hperform
  · cases hperform
  · obtain ⟨hname, href, rfl⟩ := Performed.create.inj hperform
    unfold meantRef ModelRef.new at href
    obtain ⟨hmodel, -⟩ := ModelRef.mk.inj href
    refine ⟨hname, hmodel, fun k v hv => ?_⟩
    have hget := hfields k v hv
    rw [get?_passed hv] at hget
    exact Option.some.inj hget

/-- A document without a space is in none that could have members. -/
theorem checkSpaceMember_unborn_none {now : U64} {id : DocId} {ref : ModelRef} {payload : Value} :
    (s.unborn now id none).checkSpaceMember m (s.initOf now id ref payload none) = .ok () ↔
      m.requiresSpaceMember "init" = none := by
  have hspace : (s.initOf now id ref payload none).space.or
      ((s.unborn now id none).entries[(s.initOf now id ref payload none).docId]?.bind Entry.space) =
        none := by
    have hget : (s.unborn now id none).entries[(s.initOf now id ref payload none).docId]? =
        some (Entry.newIn id none) := by
      show (s.entries.insert id _)[id]? = _
      simp
    rw [hget]
    rfl
  unfold Inner.checkSpaceMember
  rw [show (s.initOf now id ref payload none).kind = "init" from rfl, hspace]
  cases m.requiresSpaceMember "init" with
  | none => exact ⟨fun _ => rfl, fun _ => rfl⟩
  | some list => exact ⟨fun h => (nomatch h), fun h => (nomatch h)⟩

/-- `open@1` has no `init`. -/
theorem validatePayload_open_init (payload : Value) :
    Model.open.validatePayload "init" payload = .error (.unknownKind "init") := by
  show Open.validatePayload "init" payload = _
  unfold Open.validatePayload
  rw [if_neg (by decide), if_neg (by decide)]

theorem CreateCase.exists_l1 (h : CreateCase s spec change model name fields m) :
    ∃ m', m = .l1 m' := by
  cases m with
  | «open» =>
    have hschema := h.schema
    rw [validatePayload_open_init] at hschema
    cases hschema
  | l1 m => exact ⟨m, rfl⟩

/-- What a dispatch does when the templates agree. -/
theorem AgreeingTemplates.dispatchTo_eq (h : AgreeingTemplates change model name fields)
    (hcase : CreateCase s spec change model name fields m) :
    s.dispatchTo draw spec change = (Store.createDocModel s draw (meant change name)
      (meantRef change model) (passedPayload change name fields)).1 := by
  unfold Inner.dispatchTo
  rw [if_pos hcase.matched, h.perform_eq hcase]

/-- **When the document is created, as far as the store is concerned**: its `init` is accepted. -/
theorem isOk_createDocModel_iff {m : L1} (hown : s.Authors)
    (hcase : CreateCase s spec change model name fields (.l1 m)) :
    (Store.createDocModel s draw (meant change name) (meantRef change model)
        (passedPayload change name fields)).2.isOk = true ↔
      m.validatePayload "init" (passedPayload change name fields) = .ok () ∧
      (s.unborn draw.now draw.id none).checkQuorum (.l1 m) (s.initOf draw.now draw.id
        (meantRef change model) (passedPayload change name fields) none) = .ok () ∧
      m.requiresSpaceMember "init" = none ∧
      m.checkPrecondition (Entry.new draw.id).doc (s.initOf draw.now draw.id
        (meantRef change model) (passedPayload change name fields) none) = .ok () := by
  unfold Store.createDocModel
  rw [isOk_createDocInSpace, accepts_initOf hown hcase.loaded hcase.refName hcase.refVersion,
    checkSpaceMember_unborn_none]
  exact and_iff_right hcase.free

/-- A creation that fails leaves the names alone. -/
theorem names_createDocModel {docName : String} {ref : ModelRef} {payload : Value}
    (hfree : nameFree s docName = true)
    (h : ¬ (Store.createDocModel s draw docName ref payload).2.isOk = true) :
    (Store.createDocModel s draw docName ref payload).1.names = s.names := by
  unfold Store.createDocModel at h ⊢
  rw [createDocInSpace_eq hfree] at h ⊢
  rcases born_cases s draw.io draw.now draw.id ref payload none with
    ⟨-, hnames, -⟩ | ⟨m', -, -, -, hok⟩
  · exact hnames
  · rw [hok] at h
    exact absurd rfl h

/-- **What the reaction leaves** when its templates agree and the `init` is accepted. -/
theorem AgreeingTemplates.left {m : L1} (h : AgreeingTemplates change model name fields)
    (hcase : CreateCase s spec change model name fields (.l1 m))
    (hok : (Store.createDocModel s draw (meant change name) (meantRef change model)
      (passedPayload change name fields)).2.isOk = true) :
    (s.dispatchTo draw spec change).names = indexed s.names draw.id (s.newborn draw.now draw.id
        (meantRef change model) (passedPayload change name fields) none (.l1 m)) ∧
      (s.dispatchTo draw spec change).entries[draw.id]? = some (s.newborn draw.now draw.id
        (meantRef change model) (passedPayload change name fields) none (.l1 m)) := by
  rw [h.dispatchTo_eq hcase]
  unfold Store.createDocModel at hok ⊢
  exact createDocInSpace_indexed hcase.loaded hcase.refName hcase.refVersion hok

/-- If the document is there, the model took what it was passed for what was meant. -/
theorem Creates.serves (h : Creates s draw spec change model name fields m) (hown : s.Authors)
    (hcase : CreateCase s spec change model name fields m) :
    Serves s draw change model name fields m := by
  obtain ⟨m, rfl⟩ := hcase.exists_l1
  have hagree := h.agreeing hcase
  obtain ⟨id, e, doc, hname, hentry, -, hget, hdoc, hvalues⟩ := h.document
  have hfree := getElem?_names_of_nameFree hcase.free
  have hok : (Store.createDocModel s draw (meant change name) (meantRef change model)
      (passedPayload change name fields)).2.isOk = true := by
    by_contra hrefused
    rw [hagree.dispatchTo_eq hcase, names_createDocModel hcase.free hrefused, hfree] at hname
    cases hname
  obtain ⟨hnames, hborn⟩ := hagree.left hcase hok
  -- the new name is the only one that was not there
  have hid : id = draw.id := by
    rw [hnames] at hname
    unfold indexed at hname
    rw [deleted_newborn, if_neg Bool.false_ne_true] at hname
    split at hname
    · rw [Std.ExtTreeMap.getElem?_insert] at hname
      split at hname
      · exact (Option.some.inj hname).symm
      · rw [hfree] at hname
        cases hname
    · rw [hfree] at hname
      cases hname
  subst hid
  have hlive : doc = s.initDoc draw (meantRef change model) (passedPayload change name fields)
      (.l1 m) := by
    unfold Store.get at hget
    rw [hname, Option.bind_some, hborn] at hget
    dsimp only at hget
    rw [deleted_newborn, if_neg Bool.false_ne_true] at hget
    exact (Option.some.inj hget).symm
  obtain ⟨hschema, hquorum, hspace, hpre⟩ := (isOk_createDocModel_iff hown hcase).mp hok
  exact ⟨hschema, hquorum, hspace, hpre, hlive ▸ hdoc, hlive ▸ hvalues⟩

/-- If the templates agree and the model serves, the document is there. -/
theorem creates_of_serves (hown : s.Authors)
    (hcase : CreateCase s spec change model name fields m)
    (hagree : AgreeingTemplates change model name fields)
    (h : Serves s draw change model name fields m) :
    Creates s draw spec change model name fields m := by
  obtain ⟨m, rfl⟩ := hcase.exists_l1
  have hok : (Store.createDocModel s draw (meant change name) (meantRef change model)
      (passedPayload change name fields)).2.isOk = true :=
    (isOk_createDocModel_iff hown hcase).mpr
      ⟨h.schema, h.quorum, h.spaceMember, h.precondition⟩
  obtain ⟨hnames, hborn⟩ := hagree.left hcase hok
  have hname : (s.newborn draw.now draw.id (meantRef change model)
      (passedPayload change name fields) none (.l1 m)).doc.name = meant change name := h.sameName
  have hindexed : (s.dispatchTo draw spec change).names[meant change name]? = some draw.id := by
    rw [hnames]
    unfold indexed
    rw [deleted_newborn, if_neg Bool.false_ne_true, hname,
      if_pos (ne_empty_of_nameFree hcase.free)]
    exact Std.ExtTreeMap.getElem?_insert_self
  refine ⟨⟨_, hagree.perform_eq hcase, fun k v hv => get?_passed hv⟩, draw.id, _,
    s.initDoc draw (meantRef change model) (passedPayload change name fields) (.l1 m), hindexed,
    hborn, ?_, ?_, hname, h.sameFields⟩
  · show s.canonicalModelRef (meantRef change model) = _
    unfold Inner.canonicalModelRef
    rw [hcase.loaded]
  · unfold Store.get
    rw [hindexed, Option.bind_some, hborn]
    dsimp only
    rw [deleted_newborn, if_neg Bool.false_ne_true]
    rfl

/-! ## A model that asks for a name -/

/-- The schema of the model's `init` lists a string `name`. -/
def L1.AsksName (m : L1) : Prop :=
  ∃ r schema, m.reducer "init" = some r ∧
    (r.get? "payload").bind Value.asObject? = some schema ∧
    ("name", Value.string "string") ∈ schema

theorem L1.AsksName.get?_name {m : L1} (h : m.AsksName) {payload : Value}
    (hok : m.validatePayload "init" payload = .ok ()) :
    ∃ n, payload.get? "name" = some (.string n) := by
  obtain ⟨r, schema, hr, hschema, hmem⟩ := h
  unfold L1.validatePayload at hok
  rw [hr] at hok
  dsimp only at hok
  rw [hschema] at hok
  have hname := forM_eq_ok hok _ hmem
  dsimp only at hname
  cases hget : payload.get? "name" with
  | none =>
    rw [hget] at hname
    cases hname
  | some v =>
    rw [hget] at hname
    dsimp only at hname
    split at hname
    · next htype =>
      cases v with
      | string n => exact ⟨n, rfl⟩
      | _ => cases htype
    · cases hname

/-- What is not among the fields is not passed, the name under `name` no more than the rest. -/
theorem get?_passed_of_none {doc docName k : String} (hk : k ≠ "__name__")
    (h : fields[k]? = none) :
    (Value.object (passed doc model docName fields).toList).get? k = none := by
  show (passed doc model docName fields).toList.lookup k = _
  rw [Lib.lookup_toList]
  unfold passed
  rw [Lib.getElem?_foldl_insert_of_ne]
  · rw [Std.ExtTreeMap.getElem?_insert, if_neg fun hc => hk (Std.compare_eq_iff_eq.mp hc).symm]
    rfl
  · rintro p hp rfl
    rw [Lib.mem_toList, h] at hp
    cases hp

/-- The reaction lists the document's name among its fields. -/
def NameListed (change : DocChange) (name : String) (fields : Std.ExtTreeMap String Value) : Prop :=
  ∃ t, fields["name"]? = some (.string t) ∧ meant change t = meant change name

/-- A model that asks for a name gets none unless the reaction lists one. -/
theorem L1.AsksName.listed {m : L1} (hasks : m.AsksName)
    (h : m.validatePayload "init" (passedPayload change name fields) = .ok ()) :
    ∃ t, fields["name"]? = some (.string t) ∧
      (passedPayload change name fields).get? "name" = some (.string (meant change t)) := by
  obtain ⟨n, hn⟩ := hasks.get?_name h
  unfold passedPayload at hn ⊢
  cases hget : fields["name"]? with
  | none =>
    rw [get?_passed_of_none (by decide) hget] at hn
    cases hn
  | some v =>
    rw [get?_passed hget] at hn ⊢
    cases v with
    | string t => exact ⟨t, rfl, rfl⟩
    | _ => cases hn

theorem get?_meantPayload (change : DocChange) (name : String)
    (fields : Std.ExtTreeMap String Value) (k : String) :
    (meantPayload change name fields).get? k =
      if k = "name" then some (.string (meant change name))
      else fields[k]?.map (templated change.name change.model.name) := by
  show ((meantFields change fields).insert "name" _).toList.lookup k = _
  rw [Lib.lookup_toList, Std.ExtTreeMap.getElem?_insert]
  by_cases hk : k = "name"
  · rw [if_pos (Std.compare_eq_iff_eq.mpr hk.symm), if_pos hk]
  · rw [if_neg fun hc => hk (Std.compare_eq_iff_eq.mp hc).symm, if_neg hk]
    exact Std.ExtTreeMap.getElem?_map

/-- With the name listed, all that is meant is passed. -/
theorem NameListed.get?_passed (h : NameListed change name fields) {k : String} {v : Value}
    (hk : (meantPayload change name fields).get? k = some v) :
    (passedPayload change name fields).get? k = some v := by
  rw [get?_meantPayload] at hk
  unfold passedPayload
  split at hk
  · next hname =>
    obtain ⟨t, ht, hmeant⟩ := h
    rw [hname, PhReactor.get?_passed ht, ← hk, ← hmeant]
    rfl
  · obtain ⟨w, hw, rfl⟩ := Option.map_eq_some_iff.mp hk
    exact PhReactor.get?_passed hw

/-- and nothing else than the name under `__name__`. -/
theorem NameListed.get?_eq (h : NameListed change name fields) {k : String}
    (hk : k ≠ "__name__") :
    (passedPayload change name fields).get? k = (meantPayload change name fields).get? k := by
  cases hget : (meantPayload change name fields).get? k with
  | some v => exact h.get?_passed hget
  | none =>
    rw [get?_meantPayload] at hget
    split at hget
    · cases hget
    · exact get?_passed_of_none hk (Option.map_eq_none_iff.mp hget)

/-- A payload that has all that another has satisfies every schema that the other satisfies. -/
theorem validatePayload_mono {m : L1} {kind : String} {p q : Value}
    (h : ∀ k v, p.get? k = some v → q.get? k = some v)
    (hp : m.validatePayload kind p = .ok ()) : m.validatePayload kind q = .ok () := by
  unfold L1.validatePayload at hp ⊢
  cases hr : m.reducer kind with
  | none =>
    rw [hr] at hp
    cases hp
  | some r =>
    rw [hr] at hp
    dsimp only at hp ⊢
    cases hs : (r.get? "payload").bind Value.asObject? with
    | none => rfl
    | some schema =>
      rw [hs] at hp
      refine forM_eq_ok_iff.mpr fun x hx => ?_
      have hone := forM_eq_ok hp x hx
      cases hget : p.get? x.1 with
      | none =>
        rw [hget] at hone
        cases hone
      | some v =>
        rw [hget] at hone
        rw [h _ _ hget]
        exact hone

/-! ### What an `init` reads -/

/-- The field of the payload that a write reads, if it reads one. -/
def readsOf (w : Value) : Option String :=
  match w.asObject?.bind List.head? with
  | some (_, .string s) => payloadField? s
  | _ => none

theorem evalTemplate_of_sameReads {a b : Action} {tmpl : Value} (horigin : a.origin = b.origin)
    (hts : a.ts = b.ts) (h : ∀ s f, tmpl = .string s → payloadField? s = some f →
      a.payload.get? f = b.payload.get? f) : evalTemplate a tmpl = evalTemplate b tmpl := by
  cases tmpl with
  | string s =>
    unfold evalTemplate
    dsimp only
    rw [horigin, hts]
    cases hf : payloadField? s with
    | none => rfl
    | some f =>
      dsimp only
      rw [h s f rfl hf]
  | _ => rfl

/-- Two actions that agree on what a write reads write the same. -/
theorem written_of_sameReads {d : Doc} {a b : Action} {k : String} {w : Value}
    (horigin : a.origin = b.origin) (hts : a.ts = b.ts)
    (h : ∀ f, readsOf w = some f → a.payload.get? f = b.payload.get? f) :
    written d a k w = written d b k w := by
  unfold written writeValue
  cases hw : w.asObject?.bind List.head? with
  | none => rfl
  | some p =>
    have heval : evalTemplate a p.2 = evalTemplate b p.2 := by
      refine evalTemplate_of_sameReads horigin hts fun s f hs hf => h f ?_
      unfold readsOf
      rw [hw, show p = (p.1, .string s) from Prod.ext rfl hs]
      exact hf
    dsimp only
    rw [heval]

/-- An `init` like those of the models that are loaded at every start. -/
structure L1.PlainInit (m : L1) : Prop where
  names : m.NamesItself
  asks : m.AsksName
  reads : ∀ p ∈ m.writes "init", readsOf p.2 ≠ some "__name__"
  pre : m.preList "init" = []

/-- The values of a new document. -/
theorem values_initDoc {m : L1} (hs : m.Sound "init") {ref : ModelRef} (payload : Value)
    (k : String) :
    (s.initDoc draw ref payload (.l1 m)).fields[k]?.map Field.value =
      if k = nameKey then none
      else ((m.writes "init").lookup k).map fun w => written (Entry.newIn draw.id none).doc
        (s.initOf draw.now draw.id ref payload none) k w := by
  have hlive : (s.initDoc draw ref payload (.l1 m)).fields[k]? =
      ((s.newborn draw.now draw.id ref payload none (.l1 m)).doc.fields[k]?).filter
        fun f => !f.deleted := Std.ExtTreeMap.getElem?_filter'
  rw [hlive]
  split
  · next hk =>
    have hlifted : Lifted (s.newborn draw.now draw.id ref payload none (.l1 m)).doc := by
      rw [(sameDoc_newborn _).doc]
      refine lifted_applyOpsToEntry ?_ _ _
      show (∅ : Std.ExtTreeMap String Field)[nameKey]? = none
      simp
    rw [hk, show _ = none from hlifted]
    rfl
  · next hk =>
    rw [fields_newborn s draw.now draw.id ref payload none hs hk]
    cases (m.writes "init").lookup k <;> rfl

/-- With the name listed, a plain `init` makes what is meant. -/
theorem NameListed.serves {m : L1} (h : NameListed change name fields) (hinit : m.PlainInit)
    (hcase : CreateCase s spec change model name fields (.l1 m)) :
    Serves s draw change model name fields (.l1 m) := by
  refine ⟨validatePayload_mono (fun _ _ => h.get?_passed) hcase.schema, ?_, ?_, ?_, ?_, ?_⟩
  · have hquorum : (Model.l1 m).quorum "init" = none := by
      show (m.preList "init").findSome? parseQuorum = none
      rw [hinit.pre]
      rfl
    unfold Inner.checkQuorum
    rw [show (s.initOf draw.now draw.id (meantRef change model)
      (passedPayload change name fields) none).kind = "init" from rfl, hquorum]
  · show m.requiresSpaceMember "init" = none
    unfold L1.requiresSpaceMember
    rw [hinit.pre]
    rfl
  · show (m.preList "init").forM _ = Except.ok ()
    rw [hinit.pre]
    rfl
  · refine name_newborn hinit.names.sound hinit.names.name ?_
    refine h.get?_passed ?_
    rw [get?_meantPayload, if_pos rfl]
  · intro k
    rw [values_initDoc hinit.names.sound, values_initDoc hinit.names.sound]
    split
    · rfl
    · cases hw : (m.writes "init").lookup k with
      | none => rfl
      | some w =>
        refine congrArg some (written_of_sameReads rfl rfl fun f hf => h.get?_eq fun hname => ?_)
        obtain ⟨l₁, l₂, hl, -⟩ := List.lookup_eq_some_iff.mp hw
        refine hinit.reads (k, w) ?_ (hf.trans (congrArg some hname))
        rw [hl]
        exact List.mem_append_right l₁ List.mem_cons_self

/-- **For a plain `init`**: the name must be listed among the fields. -/
theorem creates_plain_iff {m : L1} (hown : s.Authors) (hinit : m.PlainInit)
    (hcase : CreateCase s spec change model name fields (.l1 m)) :
    Creates s draw spec change model name fields (.l1 m) ↔
      AgreeingTemplates change model name fields ∧ NameListed change name fields := by
  constructor
  · intro h
    have hserves := h.serves hown hcase
    obtain ⟨t, ht, hget⟩ := hinit.asks.listed hserves.schema
    refine ⟨h.agreeing hcase, t, ht, ?_⟩
    rw [← hserves.sameName]
    exact (name_newborn hinit.names.sound hinit.names.name hget).symm
  · rintro ⟨hagree, hlisted⟩
    exact creates_of_serves hown hcase hagree (hlisted.serves hinit hcase)

/-- A document is never created under a model whose `init` is for the members of a space. -/
theorem not_creates_of_spaceMember {m : L1} (hown : s.Authors)
    (hcase : CreateCase s spec change model name fields (.l1 m))
    (h : (m.requiresSpaceMember "init").isSome = true) :
    ¬ Creates s draw spec change model name fields (.l1 m) := by
  intro hcreates
  rw [show m.requiresSpaceMember "init" = none from (hcreates.serves hown hcase).spaceMember] at h
  cases h

/-- **When the create-doc reaction creates the document it describes.** -/
theorem creates_iff (hown : s.Authors) (hcase : CreateCase s spec change model name fields m) :
    Creates s draw spec change model name fields m ↔
      AgreeingTemplates change model name fields ∧ Serves s draw change model name fields m :=
  ⟨fun h => ⟨h.agreeing hcase, h.serves hown hcase⟩,
    fun h => creates_of_serves hown hcase h.1 h.2⟩

end

theorem L1.plainInit_of_reducers {m : L1} {reducers : List (String × Value)}
    (hm : m.reducers = .object reducers)
    (hok : ∀ p ∈ reducers, ∀ w ∈ writesOf p.2, writeOk w.2 = true)
    (hreads : ∀ p ∈ reducers, ∀ w ∈ writesOf p.2, readsOf w.2 ≠ some "__name__")
    (hname : (m.writes "init").lookup nameKey = some (Def.set (.string "$payload.name")))
    (hasks : m.AsksName) (hpre : m.preList "init" = []) : m.PlainInit := by
  have hsound := L1.sound_of_reducers hm hok (L1.reducer_isSome_of_lookup hname)
  refine ⟨⟨hsound, hname⟩, hasks, ?_, hpre⟩
  exact L1.writes_forall hm (P := fun _ w => readsOf w.2 ≠ some "__name__") hreads "init"

/-- All the models that are loaded at every start have a plain `init`, -/
theorem plainInit_shipped : ∀ d ∈ [groupDef, packageDef, releaseDef, spaceDef] ++ realisticDefs,
    (expectL1 d).PlainInit := by
  intro d hd
  simp only [realisticDefs, List.cons_append, List.nil_append, List.mem_cons, List.not_mem_nil,
    or_false] at hd
  rcases hd with rfl | rfl | rfl | rfl | rfl | rfl | rfl | rfl | rfl | rfl | rfl <;>
    exact L1.plainInit_of_reducers rfl (by decide) (by decide +kernel) rfl
      ⟨_, _, rfl, rfl, List.mem_map.mpr ⟨("name", "string"), by decide, rfl⟩⟩ rfl

/-- but for those that live in a space, which the reaction never gives a document. -/
theorem spaceMember_shipped :
    ∀ m ∈ [chat, drive], (m.requiresSpaceMember "init").isSome = true := by
  intro m hm
  simp only [List.mem_cons, List.not_mem_nil, or_false] at hm
  rcases hm with rfl | rfl <;> rfl

end

section

open Sample

attribute [local instance] Sample.primitives

/-! ## Copies of alice's notes -/

/-- Alice's store, with the models of the binary. -/
def modelStore : Inner := Store.fresh alice.key alice.name realisticModels

/-- Her notes changed. -/
def notesChange : DocChange where
  docId
  name := "notes"
  model := openRef
  deleted := false
  state := { (Entry.new docId).snapState with
    doc := { (Entry.new docId).doc with name := "notes" } }
  ts := 30
  actionKind := some "set"
  actionField := some "title"
  actionValue := some (.string "plans")

/-- A note for every document that changes. -/
def copies (fields : Std.ExtTreeMap String Value) : ProcessorSpec where
  name := "copies"
  models := ["open"]
  actionKind := none
  field := none
  value := none
  reaction := .createDoc "note" "copy-of-$doc" fields

def copyFields : Std.ExtTreeMap String Value :=
  (∅ : Std.ExtTreeMap String Value).insert "body" (.string "a copy of $doc")
    |>.insert "title" (.string "$doc")

/-- With the name once more. -/
def namedFields : Std.ExtTreeMap String Value :=
  copyFields.insert "name" (.string "copy-of-$doc")

theorem authors_modelStore : modelStore.Authors :=
  authors_run (P := fun _ _ => True) rfl (fun bytes => verifyStrict_tag alice.key bytes) .refl

theorem find_note : modelStore.models.find (ModelRef.new "note" "1") =
    some (.l1 (expectL1 noteDef)) := by
  unfold modelStore
  rw [Store.fresh_models]
  show (ModelRegistry.insert _ _).find _ = _
  rw [ModelRegistry.find_insert, if_pos ⟨rfl, rfl⟩]
  exact if_pos (Or.inl rfl)

/-- What the two reactions have in common. -/
theorem createCase_copies {fields : Std.ExtTreeMap String Value}
    (h : (expectL1 noteDef).validatePayload "init"
      (meantPayload notesChange "copy-of-$doc" fields) = .ok ()) :
    CreateCase modelStore (copies fields) notesChange "note" "copy-of-$doc" fields
      (.l1 (expectL1 noteDef)) where
  reaction := rfl
  matched := by
    show ActionFilter.matches ⟨["open"], none, none, none⟩ notesChange = true
    decide +kernel
  free := by decide +kernel
  loaded := by
    unfold meantRef
    rw [show meant notesChange "note" = "note" by decide +kernel]
    exact find_note
  refName := by decide +kernel
  refVersion := rfl
  schema := h

/-- **The name that the `init` reads is not passed**: a note of every change is not created. -/
theorem copy_not_created : ¬ ∀ (s : Inner) (draw : Draw) (spec : ProcessorSpec)
    (change : DocChange) (model name : String) (fields : Std.ExtTreeMap String Value) (m : Model),
    s.Authors → CreateCase s spec change model name fields m →
    Creates s draw spec change model name fields m := by
  intro h
  have hcase : CreateCase modelStore (copies copyFields) notesChange "note" "copy-of-$doc"
      copyFields (.l1 (expectL1 noteDef)) := createCase_copies (by decide +kernel)
  have hcreates := h modelStore ⟨Io.ok, 40, 200⟩ _ _ _ _ _ _ authors_modelStore hcase
  have hasks := (plainInit_shipped noteDef (by simp [realisticDefs])).asks
  have hschema : (expectL1 noteDef).validatePayload "init"
      (passedPayload notesChange "copy-of-$doc" copyFields) = .ok () :=
    (hcreates.serves authors_modelStore hcase).schema
  obtain ⟨t, ht, -⟩ := hasks.listed hschema
  rw [show copyFields["name"]? = none by decide +kernel] at ht
  cases ht

/-- Listed among the fields it is, and the note is created. -/
theorem named_copy_created : Creates modelStore ⟨Io.ok, 40, 200⟩ (copies namedFields)
    notesChange "note" "copy-of-$doc" namedFields (.l1 (expectL1 noteDef)) := by
  have hcase : CreateCase modelStore (copies namedFields) notesChange "note" "copy-of-$doc"
      namedFields (.l1 (expectL1 noteDef)) := createCase_copies (by decide +kernel)
  refine (creates_iff authors_modelStore hcase).mpr ⟨⟨?_, ?_, ?_⟩, ?_⟩
  · decide +kernel
  · decide +kernel
  · have hall : ∀ p ∈ namedFields.toList, templated notesChange.name "note" p.2 =
        templated notesChange.name notesChange.model.name p.2 := by decide +kernel
    exact fun k v hv => hall (k, v) (Lib.mem_toList.mpr hv)
  · refine NameListed.serves ⟨"copy-of-$doc", ?_, rfl⟩
      (plainInit_shipped noteDef (by simp [realisticDefs])) hcase
    decide +kernel

end

end PhReactor
