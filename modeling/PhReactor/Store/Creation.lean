/-
  What a creation leaves in the store (`Store::create_doc_in_space`, `Store::create_space_at`).

  Both put a blank entry in the space, build an `init` action on it, and apply that.  On a blank
  entry nothing can go wrong after the checks: no re-fold, no snapshot.  So a creation whose name is
  free ends in one of two ways (`born_cases`):

  1. The `init` is refused.  The blank entry stays, under no name.

  2. It is accepted.  The entry is what the model's `init` makes of a blank one, and step 7 indexes
     the name it gives.

  Either way the document is in that space, and no other entry is touched.  `Store.born` is the
  part that the two operations share.
-/
import PhReactor.Store.NameIndex
import PhReactor.Store.SpaceBinding

set_option linter.unusedSectionVars false

namespace PhReactor

/-- What a creation takes from the environment. -/
structure Draw where
  io : Io
  now : U64
  id : DocId

variable [Primitives]

/-- A blank entry in a space. -/
def Entry.newIn (id : DocId) (space : Option DocId) : Entry := { Entry.new id with space := space }

/-- A creation, after the checks on its name and id. -/
def Store.born (s : Inner) (io : Io) (now : U64) (id : DocId) (model : ModelRef) (payload : Value)
    (space : Option DocId) : Inner × Except String DocId :=
  match buildAndApply (s.putEntry id (Entry.newIn id space)) io now id model "init" payload with
  | (s, .error e) => (s, .error e)
  | (s, .ok _) => (s, .ok id)

/-- The state in which the `init` is applied. -/
def Inner.unborn (s : Inner) (now : U64) (id : DocId) (space : Option DocId) : Inner :=
  ((s.putEntry id (Entry.newIn id space)).nextTs now).1

/-- The `init` of a creation. -/
def Inner.initOf (s : Inner) (now : U64) (id : DocId) (model : ModelRef) (payload : Value)
    (space : Option DocId) : Action :=
  Action.sign {
    docId := id
    model := s.canonicalModelRef model
    kind := "init"
    payload
    ts := max s.tsHint now + 1
    clock := VecClock.empty.tick s.origin
    origin := s.origin
    cosig := []
    prevHash := none
    space
    sig := 0 } s.key

section

variable {s : Inner} {now : U64} {id : DocId} {name : String} {model : ModelRef} {payload : Value}
  {space : Option DocId} {io : Io}

/-- Building an action and applying it is to apply what is built. -/
theorem buildAndApply_of_ok {kind : String} {t : Inner} {a : Action}
    (h : s.buildAction now id model kind payload = (t, .ok a)) :
    (Store.buildAndApply s io now id model kind payload).1 = (t.applyAction io a).1 := by
  unfold Store.buildAndApply
  rw [h]
  dsimp only
  cases t.applyAction io a with
  | mk u r => cases r <;> rfl

theorem get_of_not_named (h : s.names.contains name = false) : Store.get s name = none := by
  have hnone : s.names[name]? = none := Std.ExtTreeMap.getElem?_eq_none_of_contains_eq_false h
  unfold Store.get
  rw [hnone]
  rfl

/-- A free name has no document, -/
theorem getElem?_names_of_nameFree (h : nameFree s name = true) : s.names[name]? = none :=
  Std.ExtTreeMap.getElem?_eq_none_of_contains_eq_false (nameFree_iff.mp h).2

/-- and it is a name. -/
theorem ne_empty_of_nameFree (h : nameFree s name = true) : name ≠ "" := by
  rintro rfl
  exact absurd (nameFree_iff.mp h).1 (by decide)

theorem createDocInSpace_eq (h : nameFree s name = true) :
    Store.createDocInSpace s io now id name model payload space =
      Store.born s io now id model payload space := by
  obtain ⟨hval, hname⟩ := nameFree_iff.mp h
  unfold Store.createDocInSpace
  rw [hval]
  dsimp only
  rw [hname, if_neg Bool.false_ne_true]
  rfl

theorem createDocInSpace_refused (io : Io) (now : U64) (id : DocId) (model : ModelRef)
    (payload : Value) (space : Option DocId) (h : nameFree s name = false) :
    ∃ msg, Store.createDocInSpace s io now id name model payload space = (s, .error msg) := by
  unfold Store.createDocInSpace
  cases hval : Store.validateName name with
  | error e => exact ⟨e, rfl⟩
  | ok u =>
    have hname := names_contains_of_not_nameFree (Bool.eq_false_iff.mp h) hval
    dsimp only
    rw [if_pos hname]
    exact ⟨_, rfl⟩

theorem createSpaceAt_eq (h : nameFree s name = true) (hid : s.entries.contains id = false) :
    Store.createSpaceAt s io now id name payload =
      Store.born s io now id (ModelRef.new "space" "1") payload (some id) := by
  obtain ⟨hval, hname⟩ := nameFree_iff.mp h
  unfold Store.createSpaceAt
  rw [hval]
  dsimp only
  rw [hname, if_neg Bool.false_ne_true, hid, if_neg Bool.false_ne_true]
  rfl

theorem createSpaceAt_refused (io : Io) (now : U64) (payload : Value)
    (h : nameFree s name = false ∨ s.entries.contains id = true) :
    ∃ msg, Store.createSpaceAt s io now id name payload = (s, .error msg) := by
  unfold Store.createSpaceAt
  cases hval : Store.validateName name with
  | error e => exact ⟨e, rfl⟩
  | ok u =>
    dsimp only
    cases hname : s.names.contains name with
    | true =>
      rw [if_pos rfl]
      exact ⟨_, rfl⟩
    | false =>
      have hid : s.entries.contains id = true := by
        refine h.resolve_left fun hfree => ?_
        rw [nameFree_iff.mpr ⟨hval, hname⟩] at hfree
        cases hfree
      rw [if_neg Bool.false_ne_true, if_pos hid]
      exact ⟨_, rfl⟩

/-! ## The `init` on a blank entry -/

theorem buildAction_newIn :
    (s.putEntry id (Entry.newIn id space)).buildAction now id model "init" payload =
      (s.unborn now id space, .ok (s.initOf now id model payload space)) := by
  have hget : (s.putEntry id (Entry.newIn id space)).entries[id]? =
      some (Entry.newIn id space) := by
    simp [Inner.putEntry]
  unfold Inner.buildAction Inner.nextTs
  dsimp only
  rw [hget]
  rfl

theorem entryFor_unborn : (s.unborn now id space).entryFor id = Entry.newIn id space := by
  refine entryFor_eq ?_
  show (s.entries.insert id _)[id]? = _
  simp

theorem view_unborn_ne {d : DocId} (hd : d ≠ id) : (s.unborn now id space).view d = s.view d := by
  have hput := s.view_putEntry id (Entry.newIn id space) d
  rw [if_neg hd] at hput
  exact hput

theorem docId_initOf : (s.initOf now id model payload space).docId = id := rfl

/-- A blank entry has no log to re-fold. -/
theorem outOfOrder_unborn {a : Action} (ha : a.docId = id) :
    (s.unborn now id space).outOfOrder a = false := by
  subst ha
  unfold Inner.outOfOrder
  have hget : (s.unborn now a.docId space).entries[a.docId]? =
      some (Entry.newIn a.docId space) := by
    show (s.entries.insert a.docId _)[a.docId]? = _
    simp
  rw [hget]
  rfl

/-- The entry that a creation leaves if its `init` is accepted. -/
def Inner.newborn (s : Inner) (now : U64) (id : DocId) (model : ModelRef) (payload : Value)
    (space : Option DocId) (m : Model) : Entry :=
  appended (Entry.newIn id space) m (s.initOf now id model payload space)

theorem space_newborn (m : Model) : (s.newborn now id model payload space m).space = space :=
  space_appended _ _ _

theorem settled_unborn (m : Model) :
    (s.unborn now id space).settled (s.initOf now id model payload space) m =
      s.newborn now id model payload space m := by
  unfold Inner.settled
  rw [outOfOrder_unborn docId_initOf, docId_initOf, entryFor_unborn]
  rfl

theorem finishes_unborn (io : Io) :
    (s.unborn now id space).Finishes io (s.initOf now id model payload space) := by
  constructor
  · unfold Inner.refoldStuck
    rw [outOfOrder_unborn docId_initOf, Bool.false_and]
  · unfold Inner.snapshotDue
    rw [docId_initOf, entryFor_unborn]
    intro h
    exact absurd (of_decide_eq_true h) (show ¬ 1024 ≤ 0 + 1 by decide)

/-- A log of one action is not snapshotted. -/
theorem entry_finish_newborn {v : View} {m : Model} {a : Action} :
    (View.finish { v with entry := some (s.newborn now id model payload space m) } io a).entry =
      some (s.newborn now id model payload space m) := by
  unfold View.finish
  rw [if_neg, View.entry_persist]
  intro hfull
  exact absurd (of_decide_eq_true hfull) (show ¬ 1024 ≤ 1 by decide)

theorem born_eq (s : Inner) (io : Io) (now : U64) (id : DocId) (model : ModelRef)
    (payload : Value) (space : Option DocId) :
    (Store.born s io now id model payload space).1 =
        ((s.unborn now id space).applyAction io (s.initOf now id model payload space)).1 ∧
      (Store.born s io now id model payload space).2 =
        ((s.unborn now id space).applyAction io (s.initOf now id model payload space)).2.map
          fun _ => id := by
  unfold Store.born Store.buildAndApply
  rw [buildAction_newIn]
  dsimp only
  cases (s.unborn now id space).applyAction io (s.initOf now id model payload space) with
  | mk t r => cases r <;> exact ⟨rfl, rfl⟩

/-- **How a creation ends.**  The `init` is refused, and the blank entry stays; or it is accepted,
    and the document is what the model makes of it, under the name it gives. -/
theorem born_cases (s : Inner) (io : Io) (now : U64) (id : DocId) (model : ModelRef)
    (payload : Value) (space : Option DocId) :
    ((s.unborn now id space).accepts (s.initOf now id model payload space) = false ∧
      (Store.born s io now id model payload space).1.names = s.names ∧
      (Store.born s io now id model payload space).1.entries =
        s.entries.insert id (Entry.newIn id space) ∧
      ∃ msg, (Store.born s io now id model payload space).2 = .error msg) ∨
    ∃ m, (s.unborn now id space).Accepted (s.initOf now id model payload space) m ∧
      (Store.born s io now id model payload space).1.names =
        indexed s.names id (s.newborn now id model payload space m) ∧
      (Store.born s io now id model payload space).1.entries[id]? =
        some (s.newborn now id model payload space m) ∧
      (Store.born s io now id model payload space).2 = .ok id := by
  obtain ⟨hborn, hanswer⟩ := born_eq s io now id model payload space
  cases hacc : (s.unborn now id space).accepts (s.initOf now id model payload space) with
  | false =>
    obtain ⟨msg, ⟨heq, -⟩ | ⟨-, -, hnone⟩⟩ := Inner.applyAction_refused hacc io
    · rw [heq] at hborn hanswer
      rw [hborn, hanswer]
      exact Or.inl ⟨rfl, rfl, rfl, msg, rfl⟩
    · -- the entry is there
      have hget : (s.unborn now id space).entries[id]? = some (Entry.newIn id space) := by
        show (s.entries.insert id _)[id]? = _
        simp
      rw [docId_initOf, hget] at hnone
      cases hnone
  | true =>
    obtain ⟨m, hm⟩ := Inner.accepts_iff.mp hacc
    have hok := (Inner.isOk_applyAction _ io _).mpr ⟨hacc, finishes_unborn io⟩
    have hnames := names_accept hacc io
    have hview := view_applyAction_settled hm (finishes_unborn io).1 io
    rw [if_pos (finishes_unborn io), left_of_settled hm (finishes_unborn io).1,
      settled_unborn] at hnames
    have hentry := congrArg View.entry hview
    rw [settled_unborn, docId_initOf, entry_finish_newborn] at hentry
    rw [← hborn] at hnames hentry
    refine Or.inr ⟨m, hm, hnames, hentry, ?_⟩
    rw [hanswer]
    cases happ : ((s.unborn now id space).applyAction io
        (s.initOf now id model payload space)).2 with
    | error e =>
      rw [happ] at hok
      cases hok
    | ok r => rfl

/-- No other document is touched, and nothing of the setup. -/
theorem born_frame (s : Inner) (io : Io) (now : U64) (id : DocId) (model : ModelRef)
    (payload : Value) (space : Option DocId) :
    s.SameSetup (Store.born s io now id model payload space).1 ∧
      ∀ d, d ≠ id → (Store.born s io now id model payload space).1.view d = s.view d := by
  have hsetup : s.SameSetup (s.unborn now id space) := ⟨rfl, rfl, rfl, rfl⟩
  rw [(born_eq s io now id model payload space).1]
  exact ⟨hsetup.trans (Inner.sameSetup_applyAction _ io _), fun d hd =>
    (view_applyAction_ne _ io hd).trans (view_unborn_ne hd)⟩

end

end PhReactor
