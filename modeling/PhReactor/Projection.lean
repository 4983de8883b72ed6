/-
  Publishing a narrower record from one space into another (`src/projection.rs`), on a MESH of
  nodes that all run the same projections.

  1. `publishTurn` is the body of `run_one`'s loop: one projection, on one change.  The name of what
     it publishes is derived from the source's, and the only guard against publishing twice is a
     lookup of that name in the node's own index.

  2. `payload` starts with the derived name and then copies the source's fields over it, one of
     which may be called `name` (`payload_carries`).

  3. `published_exactly_once`: a run of a mesh publishes every (projection, source) pair that is
     due exactly once, as a live document of the derived name, if in every turn of a pair that is
     due the derived name is free where the pair is new, and known on the node where it is not; if
     the model names the document as derived; and if nothing else touches what was published.

  4. Two pairs whose derived names coincide are one too many (`second_pair_suppressed`).

  A run is any list of turns and store events, each on some node, so every order and every
  repetition of the changes is one.
-/
import PhReactor.Lib.Machine
import PhReactor.Store.Creation
import PhReactor.Sample

set_option linter.unusedSectionVars false

namespace PhReactor

/-- A projection that a package's manifest declares. -/
structure Projection where
  /-- The source's model. -/
  from_ : String
  /-- The reducer that triggers it. -/
  on : String
  /-- The model of the published document. -/
  to_ : String
  /-- The space it goes into, by name. -/
  into : String
  fields : List String
  deriving DecidableEq

namespace Projection

/-- Does this change trigger this projection. -/
def matches_ (p : Projection) (c : DocChange) : Bool :=
  c.model.name == p.from_ && c.actionKind == some p.on

/-- The name of the document a projection produces. -/
def targetName (p : Projection) (sourceName : String) : String := sourceName ++ "-" ++ p.to_

/-- One turn of `payload`'s loop. -/
def copyField (c : DocChange) (out : List (String × Value)) (f : String) : List (String × Value) :=
  match c.state.doc.fields[f]? with
  | some v => if v.deleted then out else Value.insertEntry f v.value out
  | none => out

/-- The payload for the published document: the named fields and nothing else. -/
def payload (p : Projection) (c : DocChange) (name : String) : Value :=
  .object (p.fields.foldl (copyField c) [("name", .string name)])

end Projection

section

variable [Primitives]

/-- The body of `run_one`'s loop, and the document it has published. -/
def publishTurn (s : Inner) (w : Draw) (p : Projection) (c : DocChange) : Inner × Option DocId :=
  if !p.matches_ c then (s, none)
  else
    let name := p.targetName c.name
    -- already published
    if (Store.get s name).isSome then (s, none)
    else
      match Store.get s p.into with
      | none => (s, none)
      | some d =>
        match Store.createDocInSpace s w.io w.now w.id name (ModelRef.new p.to_ "1")
            (p.payload c name) (some d.id) with
        | (s, .error _) => (s, none)
        | (s, .ok id) => (s, some id)

/-- `run_one`: apply every matching projection for one change. -/
def runOne (s : Inner) (projections : List (Projection × Draw)) (c : DocChange) : Inner :=
  projections.foldl (fun s (p, w) => (publishTurn s w p c).1) s

/-! ## The payload -/

theorem lookup_insertEntry (key : String) (value : Value) (o : List (String × Value))
    (k : String) : (Value.insertEntry key value o).lookup k =
      if key = k then some value else o.lookup k := by
  induction o with
  | nil =>
    by_cases hk : key = k
    · subst hk
      simp [Value.insertEntry]
    · simp [Value.insertEntry, hk, Ne.symm hk]
  | cons e o ih =>
    obtain ⟨k', v'⟩ := e
    unfold Value.insertEntry
    split
    · next heq =>
      subst heq
      by_cases hk : key = k
      · subst hk
        simp
      · simp [List.lookup_cons, hk, beq_eq_false_iff_ne.mpr (Ne.symm hk)]
    · next hne =>
      split
      · by_cases hk : key = k
        · subst hk
          simp
        · simp [List.lookup_cons, hk, beq_eq_false_iff_ne.mpr (Ne.symm hk)]
      · rw [List.lookup_cons, List.lookup_cons, ih]
        by_cases hk : key = k
        · subst hk
          simp [beq_eq_false_iff_ne.mpr hne]
        · simp [hk]

namespace Projection

theorem lookup_copyField (c : DocChange) (out : List (String × Value)) (f k : String) :
    (copyField c out f).lookup k =
      if f = k ∧ ∃ v, c.state.doc.fields[f]? = some v ∧ v.deleted = false then
        c.state.doc.fields[k]?.map Field.value
      else out.lookup k := by
  unfold copyField
  cases hf : c.state.doc.fields[f]? with
  | none => simp
  | some v =>
    dsimp only
    cases hdel : v.deleted with
    | true => simp [hdel]
    | false =>
      rw [if_neg Bool.false_ne_true, lookup_insertEntry]
      by_cases hk : f = k
      · subst hk
        simp [hf, hdel]
      · simp [hk]

/-- What a payload holds: every named field that the source has. -/
theorem payload_carries {p : Projection} {c : DocChange} {name f : String} {v : Field}
    (hf : f ∈ p.fields) (hv : c.state.doc.fields[f]? = some v) (hlive : v.deleted = false) :
    (p.payload c name).get? f = some v.value := by
  have hfold : ∀ (l : List String) (out : List (String × Value)),
      (f ∈ l ∨ out.lookup f = some v.value) →
      (l.foldl (copyField c) out).lookup f = some v.value := by
    intro l
    induction l with
    | nil => exact fun out h => h.resolve_left List.not_mem_nil
    | cons g l ih =>
      intro out h
      refine ih _ ?_
      rw [lookup_copyField]
      by_cases hg : g = f
      · subst hg
        rw [if_pos ⟨rfl, v, hv, hlive⟩, hv]
        exact Or.inr rfl
      · rw [if_neg fun h => hg h.1]
        exact h.imp_left fun hmem => (List.mem_cons.mp hmem).resolve_left (Ne.symm hg)
  exact hfold p.fields _ (Or.inl hf)

/-- If the projection copies a field called `name`, the source has the derived name in it. -/
def KeepsName (p : Projection) (c : DocChange) : Prop :=
  "name" ∈ p.fields → ∀ v ∈ c.state.doc.fields["name"]?, v.deleted = false →
    v.value = .string (p.targetName c.name)

instance (p : Projection) (c : DocChange) : Decidable (p.KeepsName c) :=
  inferInstanceAs (Decidable (_ → ∀ v ∈ _, _ → _))

theorem payload_name {p : Projection} {c : DocChange} (h : p.KeepsName c) :
    (p.payload c (p.targetName c.name)).get? "name" = some (.string (p.targetName c.name)) := by
  have hfold : ∀ (l : List String) (out : List (String × Value)), (∀ f ∈ l, f ∈ p.fields) →
      out.lookup "name" = some (.string (p.targetName c.name)) →
      (l.foldl (copyField c) out).lookup "name" = some (.string (p.targetName c.name)) := by
    intro l
    induction l with
    | nil => exact fun _ _ h => h
    | cons g l ih =>
      intro out hl hout
      refine ih _ (fun f hf => hl f (List.mem_cons_of_mem _ hf)) ?_
      rw [lookup_copyField]
      split
      · next hg =>
        obtain ⟨rfl, v, hv, hlive⟩ := hg
        rw [hv, Option.map_some, h (hl _ List.mem_cons_self) v hv hlive]
      · exact hout
  exact hfold p.fields _ (fun _ hf => hf) rfl

end Projection

/-! ## What is published -/

/-- The entry is the live document that this projection owes to this change. -/
structure Publishes (p : Projection) (c : DocChange) (e : Entry) : Prop where
  live : e.deleted = false
  name : e.doc.name = p.targetName c.name
  carries : ∀ f ∈ p.fields, ∀ v, c.state.doc.fields[f]? = some v → v.deleted = false →
    ∃ u, e.doc.fields[f]? = some u ∧ u.deleted = false ∧ u.value = v.value

/-- The model's `init` makes a live document out of a blank one, with the payload's name, and with
    these fields of it. -/
structure Model.TakesOver (m : Model) (a : Action) (fields : List String) : Prop where
  live : (appended (Entry.newIn a.docId a.space) m a).deleted = false
  name : ∀ n ∈ (a.payload.get? "name").bind Value.asStr?,
    (appended (Entry.newIn a.docId a.space) m a).doc.name = n
  carries : ∀ f ∈ fields, ∀ v ∈ a.payload.get? f,
    ∃ u ∈ (appended (Entry.newIn a.docId a.space) m a).doc.fields[f]?,
      u.deleted = false ∧ u.value = v

instance (m : Model) (a : Action) (fields : List String) : Decidable (m.TakesOver a fields) :=
  decidable_of_iff ((appended (Entry.newIn a.docId a.space) m a).deleted = false ∧
    (∀ n ∈ (a.payload.get? "name").bind Value.asStr?,
      (appended (Entry.newIn a.docId a.space) m a).doc.name = n) ∧
    ∀ f ∈ fields, ∀ v ∈ a.payload.get? f,
      ∃ u ∈ (appended (Entry.newIn a.docId a.space) m a).doc.fields[f]?,
        u.deleted = false ∧ u.value = v)
    ⟨fun h => ⟨h.1, h.2.1, h.2.2⟩, fun h => ⟨h.live, h.name, h.carries⟩⟩

section

variable {s : Inner} {w : Draw} {p : Projection} {c : DocChange}

/-- The `init` of the published document. -/
def Projection.initFor (s : Inner) (w : Draw) (p : Projection) (c : DocChange)
    (space : DocId) : Action :=
  s.initOf w.now w.id (ModelRef.new p.to_ "1") (p.payload c (p.targetName c.name)) (some space)

/-- Can the target be created, but for its name being taken: the space is there, the name is valid,
    and the store accepts the `init`. -/
def Projection.creatable (s : Inner) (w : Draw) (p : Projection) (c : DocChange) : Bool :=
  match Store.get s p.into with
  | none => false
  | some d => (Store.validateName (p.targetName c.name)).isOk &&
      (s.unborn w.now w.id (some d.id)).accepts (p.initFor s w c d.id)

theorem publishes_newborn {m : Model} {space : DocId} (hkeeps : p.KeepsName c)
    (htakes : m.TakesOver (p.initFor s w c space) p.fields) :
    Publishes p c (s.newborn w.now w.id (ModelRef.new p.to_ "1")
      (p.payload c (p.targetName c.name)) (some space) m) := by
  have hname : p.targetName c.name ∈
      ((p.initFor s w c space).payload.get? "name").bind Value.asStr? := by
    show Option.bind ((p.payload c (p.targetName c.name)).get? "name") Value.asStr? = some _
    rw [Projection.payload_name hkeeps]
    rfl
  refine ⟨htakes.live, htakes.name _ hname, ?_⟩
  intro f hf v hv hlive
  exact htakes.carries f hf _ (Projection.payload_carries hf hv hlive)

/-- A taken name ends the turn: it is known, or the creation is refused. -/
theorem publishTurn_of_taken (h : s.names.contains (p.targetName c.name) = true) :
    publishTurn s w p c = (s, none) := by
  have hfree : nameFree s (p.targetName c.name) = false := by
    refine Bool.eq_false_iff.mpr fun hfree => ?_
    rw [(nameFree_iff.mp hfree).2] at h
    cases h
  unfold publishTurn
  dsimp only
  split
  · rfl
  · split
    · rfl
    · cases hspace : Store.get s p.into with
      | none => rfl
      | some d =>
        obtain ⟨msg, href⟩ := createDocInSpace_refused w.io w.now w.id (ModelRef.new p.to_ "1")
          (p.payload c (p.targetName c.name)) (some d.id) hfree
        dsimp only
        rw [href]

/-- With the name free, a turn of a projection that matches is a creation in its space. -/
theorem publishTurn_of_free {d : Doc} (hmatches : p.matches_ c = true)
    (hfree : nameFree s (p.targetName c.name) = true) (hspace : Store.get s p.into = some d) :
    publishTurn s w p c =
      ((Store.born s w.io w.now w.id (ModelRef.new p.to_ "1")
        (p.payload c (p.targetName c.name)) (some d.id)).1,
      (Store.born s w.io w.now w.id (ModelRef.new p.to_ "1")
        (p.payload c (p.targetName c.name)) (some d.id)).2.toOption) := by
  unfold publishTurn
  rw [hmatches]
  dsimp only
  rw [get_of_not_named (nameFree_iff.mp hfree).2, hspace]
  dsimp only
  rw [createDocInSpace_eq hfree]
  cases Store.born s w.io w.now w.id (ModelRef.new p.to_ "1")
    (p.payload c (p.targetName c.name)) (some d.id) with
  | mk t r => cases r <;> rfl

/-- **A turn publishes** when the projection matches, its target can be created, and the derived
    name is not in the index; and then it leaves what the model makes of the `init`. -/
theorem publishTurn_creates (hmatches : p.matches_ c = true) (hcan : p.creatable s w c = true)
    (hname : s.names.contains (p.targetName c.name) = false) :
    ∃ (m : Model) (d : Doc), Store.get s p.into = some d ∧
      (s.unborn w.now w.id (some d.id)).Accepted (p.initFor s w c d.id) m ∧
      (publishTurn s w p c).2 = some w.id ∧
      (publishTurn s w p c).1.entries[w.id]? = some (s.newborn w.now w.id (ModelRef.new p.to_ "1")
        (p.payload c (p.targetName c.name)) (some d.id) m) := by
  unfold Projection.creatable at hcan
  cases hspace : Store.get s p.into with
  | none =>
    rw [hspace] at hcan
    cases hcan
  | some d =>
    rw [hspace] at hcan
    obtain ⟨hvalid, hacc⟩ := Bool.and_eq_true_iff.mp hcan
    have hfree : nameFree s (p.targetName c.name) = true := by
      unfold nameFree
      rw [hvalid, hname]
      rfl
    rw [publishTurn_of_free hmatches hfree hspace]
    obtain ⟨hrefused, -⟩ | ⟨m, hm, -, hentry, hanswer⟩ := born_cases s w.io w.now w.id
      (ModelRef.new p.to_ "1") (p.payload c (p.targetName c.name)) (some d.id)
    · exact absurd (hrefused.symm.trans hacc) Bool.false_ne_true
    · refine ⟨m, d, rfl, hm, ?_, hentry⟩
      dsimp only
      rw [hanswer]
      rfl

/-- Nothing else publishes. -/
theorem publishTurn_none (h : p.matches_ c = true → p.creatable s w c = true →
    s.names.contains (p.targetName c.name) = true) : (publishTurn s w p c).2 = none := by
  cases hmatches : p.matches_ c with
  | false =>
    unfold publishTurn
    rw [hmatches]
    rfl
  | true =>
    cases hname : s.names.contains (p.targetName c.name) with
    | true => rw [publishTurn_of_taken hname]
    | false =>
      have hcan : p.creatable s w c = false := by
        refine Bool.eq_false_iff.mpr fun hcan => ?_
        rw [h hmatches hcan] at hname
        cases hname
      unfold Projection.creatable at hcan
      cases hspace : Store.get s p.into with
      | none =>
        unfold publishTurn
        rw [hmatches]
        dsimp only
        rw [get_of_not_named hname, hspace]
        rfl
      | some d =>
        rw [hspace] at hcan
        dsimp only at hcan
        cases hvalid : (Store.validateName (p.targetName c.name)).isOk with
        | true =>
          rw [hvalid, Bool.true_and] at hcan
          have hfree : nameFree s (p.targetName c.name) = true := by
            unfold nameFree
            rw [hvalid, hname]
            rfl
          rw [publishTurn_of_free hmatches hfree hspace]
          obtain ⟨-, -, -, msg, hanswer⟩ | ⟨m, hm, -⟩ := born_cases s w.io w.now w.id
            (ModelRef.new p.to_ "1") (p.payload c (p.targetName c.name)) (some d.id)
          · dsimp only
            rw [hanswer]
            rfl
          · exact absurd (hcan.symm.trans (Inner.accepts_iff.mpr ⟨m, hm⟩)) Bool.false_ne_true
        | false =>
          have hfree : nameFree s (p.targetName c.name) = false := by
            unfold nameFree
            rw [hvalid]
            rfl
          obtain ⟨msg, href⟩ := createDocInSpace_refused w.io w.now w.id (ModelRef.new p.to_ "1")
            (p.payload c (p.targetName c.name)) (some d.id) hfree
          unfold publishTurn
          rw [hmatches]
          dsimp only
          rw [get_of_not_named hname, hspace]
          dsimp only
          rw [href]
          rfl

/-- A turn touches no document but the one it draws an id for. -/
theorem entry_publishTurn_ne {d : DocId} (hd : d ≠ w.id) :
    (publishTurn s w p c).1.entries[d]? = s.entries[d]? := by
  unfold publishTurn
  dsimp only
  split
  · rfl
  · split
    · rfl
    · cases Store.get s p.into with
      | none => rfl
      | some sp =>
        dsimp only
        cases hfree : nameFree s (p.targetName c.name) with
        | false =>
          obtain ⟨msg, href⟩ := createDocInSpace_refused w.io w.now w.id (ModelRef.new p.to_ "1")
            (p.payload c (p.targetName c.name)) (some sp.id) hfree
          rw [href]
        | true =>
          have hframe := (born_frame s w.io w.now w.id (ModelRef.new p.to_ "1")
            (p.payload c (p.targetName c.name)) (some sp.id)).2 d hd
          rw [createDocInSpace_eq hfree]
          revert hframe
          cases Store.born s w.io w.now w.id (ModelRef.new p.to_ "1")
            (p.payload c (p.targetName c.name)) (some sp.id) with
          | mk t r => cases r <;> exact fun hframe => congrArg View.entry hframe

end

/-! ## A mesh of nodes -/

/-- A document that a turn has published. -/
structure Publication (ι : Type*) where
  proj : Projection
  change : DocChange
  node : ι
  doc : DocId

/-- The pair a publication is of. -/
def Publication.pair {ι : Type*} (x : Publication ι) : Projection × DocId :=
  (x.proj, x.change.docId)

/-- The nodes' stores; the pairs that were due so far, and what was published. -/
structure Mesh (ι : Type*) where
  stores : ι → Inner
  due : List (Projection × DocId)
  published : List (Publication ι)

/-- What happens on a node: a turn of the projections' loop, or anything else. -/
inductive MeshStep (ι : Type*) where
  | turn (node : ι) (draw : Draw) (proj : Projection) (change : DocChange)
  | event (node : ι) (ev : Event)

section

variable {ι : Type*} [DecidableEq ι]

/-- Nothing was due yet. -/
def Mesh.start (stores : ι → Inner) : Mesh ι := ⟨stores, [], []⟩

/-- Is the name held by a document that no projection has published. -/
def Mesh.heldByOther (m : Mesh ι) (i : ι) (name : String) : Bool :=
  match (m.stores i).names[name]? with
  | none => false
  | some id => !m.published.any fun x => x.doc == id

/-- Is the pair due in this turn: the change triggers the projection, and its target can be
    created, whatever other projections have published. -/
def Mesh.isDue (m : Mesh ι) (i : ι) (w : Draw) (p : Projection) (c : DocChange) : Bool :=
  p.matches_ c && p.creatable (m.stores i) w c && !m.heldByOther i (p.targetName c.name)

/-- The nodes take their steps. -/
def mesh : Lib.Machine (Mesh ι) (MeshStep ι) Empty where
  step m
    | .turn i w p c =>
      let (s, doc) := publishTurn (m.stores i) w p c
      ({ stores := Function.update m.stores i s
         due := if m.isDue i w p c then (p, c.docId) :: m.due else m.due
         published := (doc.map fun id => ⟨p, c, i, id⟩).toList ++ m.published }, [])
    | .event i ev =>
      ({ m with stores := Function.update m.stores i ((m.stores i).exec ev) }, [])

/-- `run_one` is one turn after the other. -/
theorem run_turns (i : ι) (c : DocChange) (projections : List (Projection × Draw)) (m : Mesh ι) :
    (mesh.run m (projections.map fun (p, w) => .turn i w p c)).stores =
      Function.update m.stores i (runOne (m.stores i) projections c) := by
  induction projections generalizing m with
  | nil => exact (Function.update_eq_self i m.stores).symm
  | cons pw projections ih =>
    obtain ⟨p, w⟩ := pw
    refine (ih _).trans ?_
    show Function.update (Function.update m.stores i (publishTurn (m.stores i) w p c).1) i
      (runOne (Function.update m.stores i (publishTurn (m.stores i) w p c).1 i) projections c) = _
    rw [Function.update_idem, Function.update_self]
    rfl

/-- **Exactly one live document for every pair that is due**, and none for any other. -/
structure ExactlyOnce (m : Mesh ι) : Prop where
  once : ∀ q ∈ m.due, ∃! x, x ∈ m.published ∧ x.pair = q
  wanted : ∀ x ∈ m.published, x.pair ∈ m.due
  apart : m.published.Pairwise fun x y => x.doc ≠ y.doc
  stands : ∀ x ∈ m.published, ∃ e, (m.stores x.node).entries[x.doc]? = some e ∧
    Publishes x.proj x.change e

/-- A step on which the pairs do not get in each other's way.

    `named`: the derived name is in the node's index exactly when the pair has been published, on
    this node or on another.  `keeps`: no source field overrides the name.  `takes`: the target
    model stores what it is given.  `spares`: nothing else changes what was published. -/
def Mesh.Careful (m : Mesh ι) : MeshStep ι → Prop
  | .turn i w p c =>
    (∀ x ∈ m.published, x.doc ≠ w.id) ∧
    (m.isDue i w p c = true →
      ((m.stores i).names.contains (p.targetName c.name) = true ↔
        ∃ x ∈ m.published, x.pair = (p, c.docId)) ∧
      p.KeepsName c ∧
      ∀ space ∈ Store.get (m.stores i) p.into,
        ∀ model ∈ (m.stores i).models.find (p.initFor (m.stores i) w c space.id).model,
          model.TakesOver (p.initFor (m.stores i) w c space.id) p.fields)
  | .event i ev => ∀ x ∈ m.published, x.node = i → ∀ e, (m.stores i).entries[x.doc]? = some e →
    ∃ e', ((m.stores i).exec ev).entries[x.doc]? = some e' ∧ e'.doc = e.doc ∧
      e'.deleted = e.deleted

instance (m : Mesh ι) (i : ι) (w : Draw) (p : Projection) (c : DocChange) :
    Decidable (m.Careful (.turn i w p c)) :=
  inferInstanceAs (Decidable (_ ∧ (_ → _)))

theorem Publishes.congr {p : Projection} {c : DocChange} {e e' : Entry} (h : Publishes p c e)
    (hdoc : e'.doc = e.doc) (hdeleted : e'.deleted = e.deleted) : Publishes p c e' := by
  refine ⟨hdeleted.trans h.live, ?_, ?_⟩
  · rw [hdoc]
    exact h.name
  · rw [hdoc]
    exact h.carries

variable {m : Mesh ι} {i : ι} {w : Draw} {p : Projection} {c : DocChange}

theorem Mesh.isDue_iff : m.isDue i w p c = true ↔
    p.matches_ c = true ∧ p.creatable (m.stores i) w c = true ∧
      m.heldByOther i (p.targetName c.name) = false := by
  unfold Mesh.isDue
  rw [Bool.and_eq_true, Bool.and_eq_true, Bool.not_eq_true', and_assoc]

/-- A turn whose pair is not due publishes nothing. -/
theorem publishTurn_of_not_due (h : m.isDue i w p c = false) :
    (publishTurn (m.stores i) w p c).2 = none := by
  refine publishTurn_none fun hmatches hcan => ?_
  -- a name that is not in the index is held by nobody
  by_contra hname
  refine Bool.eq_false_iff.mp h (Mesh.isDue_iff.mpr ⟨hmatches, hcan, ?_⟩)
  unfold Mesh.heldByOther
  rw [Std.ExtTreeMap.getElem?_eq_none_of_contains_eq_false (Bool.eq_false_iff.mpr hname)]

/-- What stood on its node before a turn does after it. -/
theorem stands_turn {x : Publication ι} (hx : x.doc ≠ w.id)
    (h : ∃ e, (m.stores x.node).entries[x.doc]? = some e ∧ Publishes x.proj x.change e) :
    ∃ e, (Function.update m.stores i (publishTurn (m.stores i) w p c).1 x.node).entries[x.doc]? =
      some e ∧ Publishes x.proj x.change e := by
  obtain ⟨e, he, hpub⟩ := h
  refine ⟨e, ?_, hpub⟩
  by_cases hi : x.node = i
  · subst hi
    rw [Function.update_self, entry_publishTurn_ne hx]
    exact he
  · rw [Function.update_of_ne hi]
    exact he

/-- A turn that publishes nothing, for a pair that is published if it is due. -/
theorem ExactlyOnce.turn_none (h : ExactlyOnce m) (hnew : ∀ x ∈ m.published, x.doc ≠ w.id)
    (hnone : (publishTurn (m.stores i) w p c).2 = none)
    (hpublished : m.isDue i w p c = true → ∃ x ∈ m.published, x.pair = (p, c.docId)) :
    ExactlyOnce (mesh.step m (.turn i w p c)).1 := by
  have hstep : (mesh.step m (.turn i w p c)).1 = {
      stores := Function.update m.stores i (publishTurn (m.stores i) w p c).1
      due := if m.isDue i w p c then (p, c.docId) :: m.due else m.due
      published := m.published } := by
    show (⟨_, _, ((publishTurn (m.stores i) w p c).2.map _).toList ++ m.published⟩ : Mesh ι) = _
    rw [hnone]
    rfl
  rw [hstep]
  -- a pair that is published was due already
  have hdue : ∀ q ∈ (if m.isDue i w p c then (p, c.docId) :: m.due else m.due), q ∈ m.due := by
    intro q hq
    split at hq
    · next hdue =>
      rcases List.mem_cons.mp hq with rfl | hq
      · obtain ⟨x, hx, hpair⟩ := hpublished hdue
        exact hpair ▸ h.wanted x hx
      · exact hq
    · exact hq
  refine ⟨fun q hq => h.once q (hdue q hq), fun x hx => ?_, h.apart,
    fun x hx => stands_turn (hnew x hx) (h.stands x hx)⟩
  dsimp only
  split
  · exact List.mem_cons_of_mem _ (h.wanted x hx)
  · exact h.wanted x hx

/-- A turn that publishes, for a pair that is due and new. -/
theorem ExactlyOnce.turn_creates (h : ExactlyOnce m) (hnew : ∀ x ∈ m.published, x.doc ≠ w.id)
    (hdue : m.isDue i w p c = true) (hsome : (publishTurn (m.stores i) w p c).2 = some w.id)
    (hfirst : ¬ ∃ x ∈ m.published, x.pair = (p, c.docId)) {e : Entry}
    (hentry : (publishTurn (m.stores i) w p c).1.entries[w.id]? = some e)
    (hpub : Publishes p c e) : ExactlyOnce (mesh.step m (.turn i w p c)).1 := by
  have hstep : (mesh.step m (.turn i w p c)).1 = {
      stores := Function.update m.stores i (publishTurn (m.stores i) w p c).1
      due := (p, c.docId) :: m.due
      published := ⟨p, c, i, w.id⟩ :: m.published } := by
    show (⟨_, (if m.isDue i w p c then _ else _),
      ((publishTurn (m.stores i) w p c).2.map _).toList ++ m.published⟩ : Mesh ι) = _
    rw [hsome, hdue, if_pos rfl]
    rfl
  rw [hstep]
  constructor
  · intro q hq
    by_cases hpair : q = (p, c.docId)
    · subst hpair
      refine ⟨⟨p, c, i, w.id⟩, ⟨List.mem_cons_self, rfl⟩, fun x hx => ?_⟩
      refine (List.mem_cons.mp hx.1).resolve_right fun hmem => ?_
      exact hfirst ⟨x, hmem, hx.2⟩
    · obtain ⟨x, hx, huniq⟩ := h.once q ((List.mem_cons.mp hq).resolve_left hpair)
      refine ⟨x, ⟨List.mem_cons_of_mem _ hx.1, hx.2⟩, fun y hy => ?_⟩
      refine huniq y ⟨(List.mem_cons.mp hy.1).resolve_left fun hy' => ?_, hy.2⟩
      subst hy'
      exact hpair hy.2.symm
  · intro x hx
    rcases List.mem_cons.mp hx with rfl | hx
    · exact List.mem_cons_self
    · exact List.mem_cons_of_mem _ (h.wanted x hx)
  · exact List.pairwise_cons.mpr ⟨fun x hx => (hnew x hx).symm, h.apart⟩
  · intro x hx
    rcases List.mem_cons.mp hx with rfl | hx
    · refine ⟨e, ?_, hpub⟩
      dsimp only
      rw [Function.update_self]
      exact hentry
    · exact stands_turn (hnew x hx) (h.stands x hx)

/-- Careful steps keep it. -/
theorem ExactlyOnce.step (h : ExactlyOnce m) {st : MeshStep ι} (hcareful : m.Careful st) :
    ExactlyOnce (mesh.step m st).1 := by
  cases st with
  | turn i w p c =>
    obtain ⟨hnew, hturn⟩ := hcareful
    cases hdue : m.isDue i w p c with
    | false =>
      refine h.turn_none hnew (publishTurn_of_not_due hdue) fun hdue' => ?_
      rw [hdue] at hdue'
      cases hdue'
    | true =>
      obtain ⟨hnamed, hkeeps, htakes⟩ := hturn hdue
      cases hname : (m.stores i).names.contains (p.targetName c.name) with
      | true =>
        refine h.turn_none hnew ?_ fun _ => hnamed.mp hname
        rw [publishTurn_of_taken hname]
      | false =>
        obtain ⟨hmatches, hcan, -⟩ := Mesh.isDue_iff.mp hdue
        obtain ⟨model, d, hspace, hacc, hsome, hentry⟩ :=
          publishTurn_creates hmatches hcan hname
        refine h.turn_creates hnew hdue hsome (fun hfirst => ?_) hentry
          (publishes_newborn hkeeps (htakes d hspace model hacc.model))
        rw [hnamed.mpr hfirst] at hname
        cases hname
  | event i ev =>
    refine ⟨h.once, h.wanted, h.apart, fun x hx => ?_⟩
    obtain ⟨e, he, hpub⟩ := h.stands x hx
    show ∃ e, (Function.update m.stores i ((m.stores i).exec ev) x.node).entries[x.doc]? =
      some e ∧ _
    by_cases hi : x.node = i
    · subst hi
      obtain ⟨e', he', hdoc, hdeleted⟩ := hcareful x hx rfl e he
      rw [Function.update_self]
      exact ⟨e', he', hpub.congr hdoc hdeleted⟩
    · rw [Function.update_of_ne hi]
      exact ⟨e, he, hpub⟩

/-- **Every pair that is due is published exactly once**, on any mesh, whatever the order and the
    repetition of the changes, in every state of a run whose steps are careful. -/
theorem published_exactly_once (stores : ι → Inner) (run : List (MeshStep ι))
    (hcareful : ∀ past step rest, run = past ++ step :: rest →
      (mesh.run (.start stores) past).Careful step) :
    ∀ past rest, run = past ++ rest → ExactlyOnce (mesh.run (.start stores) past) := by
  have hstart : ExactlyOnce (Mesh.start stores) := {
    once := fun _ hq => absurd hq List.not_mem_nil
    wanted := fun _ hx => absurd hx List.not_mem_nil
    apart := .nil
    stands := fun _ hx => absurd hx List.not_mem_nil }
  exact mesh.cuts_invariant hstart (fun _ _ h hcareful => h.step hcareful) hcareful

end

end

/-! ## The sample: one source, two projections -/

section

open Sample

attribute [local instance] Sample.primitives

/-- A public record: a name and an amount. -/
def entryDef : Value :=
  .object [("fields", Def.types [("amount", "number")]),
    ("name", .string "entry"),
    ("reducers", .object [("init", Def.openReducer [("amount", "number"), ("name", "string")]
      [("__name__", Def.set (.string "$payload.name")),
       ("amount", Def.set (.string "$payload.amount"))])]),
    ("version", .string "1")]

/-- A node with a space that records are published into. -/
def forumNode : Inner :=
  (Store.fresh alice.key alice.name [.l1 (expectL1 entryDef)]).execAll (deliver [spaceInit])

/-- The milestone `m1` is accepted. -/
def acceptedM1 : DocChange where
  docId := docId
  name := "m1"
  model := ModelRef.new "milestone" "1"
  deleted := false
  state := {
    doc := {
      id := docId
      name := "m1"
      fields := (∅ : Std.ExtTreeMap String Field).insert "amount"
        ⟨.number (.posInt 500), .empty, 1, "alice", false⟩ }
    clock := .empty
    deleted := false
    logHash := none
    model := ModelRef.new "milestone" "1"
    space := none }
  ts := 1
  actionKind := some "accept"
  actionField := none
  actionValue := none

/-- Publish these fields of an accepted milestone. -/
def publishing (fields : List String) : Projection :=
  ⟨"milestone", "accept", "entry", "club", fields⟩

def acceptedTurn (fields : List String) (now : U64) (id : DocId) : MeshStep Unit :=
  .turn () ⟨Io.ok, now, id⟩ (publishing fields) acceptedM1

/-- The change arrives twice. -/
theorem repeated_careful :
    (Mesh.start fun _ : Unit => forumNode).Careful (acceptedTurn ["amount"] 10 7) ∧
    (mesh.run (.start fun _ : Unit => forumNode) [acceptedTurn ["amount"] 10 7]).Careful
      (acceptedTurn ["amount"] 11 8) := by
  unfold acceptedTurn
  decide +kernel

/-- Published once, although the change arrives twice. -/
theorem published_exactly_once_repeated :
    (mesh.run (.start fun _ : Unit => forumNode)
      [acceptedTurn ["amount"] 10 7, acceptedTurn ["amount"] 11 8]).published.map
        Publication.doc = [7] ∧
    ∀ past rest, [acceptedTurn ["amount"] 10 7, acceptedTurn ["amount"] 11 8] = past ++ rest →
      ExactlyOnce (mesh.run (.start fun _ : Unit => forumNode) past) := by
  refine ⟨by decide +kernel, published_exactly_once _ _ ?_⟩
  refine Lib.forall_cuts_cons.mpr ⟨repeated_careful.1, ?_⟩
  refine Lib.forall_cuts_cons.mpr ⟨repeated_careful.2, ?_⟩
  exact Lib.forall_cuts_nil

/-- Another projection of the same milestone, with one more field. -/
def suppressed : Mesh Unit :=
  mesh.run (.start fun _ : Unit => forumNode)
    [acceptedTurn ["amount"] 10 7, acceptedTurn ["amount", "org"] 11 8]

theorem suppressed_pairs :
    suppressed.due = [(publishing ["amount", "org"], docId), (publishing ["amount"], docId)] ∧
    suppressed.published.map Publication.pair = [(publishing ["amount"], docId)] := by
  decide +kernel

/-- **Publishing one pair suppresses another** whose derived name is the same: both are due, and
    one is published. -/
theorem second_pair_suppressed :
    (publishing ["amount", "org"], docId) ∈ suppressed.due ∧
    (publishing ["amount", "org"], docId) ∉ suppressed.published.map Publication.pair ∧
    ¬ ExactlyOnce suppressed := by
  obtain ⟨hdue, hpublished⟩ := suppressed_pairs
  have hin : (publishing ["amount", "org"], docId) ∈ suppressed.due := by
    rw [hdue]
    exact List.mem_cons_self
  have hout : (publishing ["amount", "org"], docId) ∉
      suppressed.published.map Publication.pair := by
    rw [hpublished]
    decide
  refine ⟨hin, hout, fun h => ?_⟩
  obtain ⟨x, ⟨hx, hpair⟩, -⟩ := h.once _ hin
  exact hout (List.mem_map.mpr ⟨x, hx, hpair⟩)

end

end PhReactor
