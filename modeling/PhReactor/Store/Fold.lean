/-
  Folding one action into a document, and folding a whole log.

  1. The ops of one action carry ONE stamp.  So of several ops on one key only the first counts,
     and a loop over them is `mergeField` with the first op of each key (`fields_runOps`).

  2. `foldStep` is one step of a re-fold.  On documents whose name has been lifted it is a
     `Lib.CanonStep` for `canonKey` (`foldStep_canonStep`): it keeps the name lifted, folding an
     action twice in a row is folding it once, and two actions that differ in their signatures
     only do the same.  Hence the fold of a sorted log is a function of the SET of its actions
     (`canonFold_eq_of_mem_iff`).

  3. Whether an action touches the clock at all does not depend on the state (`touches_iff`), so
     the clock that a fold leaves is a join over the log (`logClock`).
-/
import PhReactor.Store.Api

namespace PhReactor

/-- The reserved name field is not in the field map: `liftName` has run. -/
def Lifted (d : Doc) : Prop := d.fields[nameKey]? = none

theorem lifted_liftName (d : Doc) : Lifted (liftName d) := by
  unfold Lifted liftName
  cases h : d.fields[nameKey]? with
  | none => exact h
  | some f => simp

theorem liftName_of_lifted {d : Doc} (h : Lifted d) : liftName d = d := by
  unfold liftName
  rw [show d.fields[nameKey]? = none from h]

theorem id_liftName (d : Doc) : (liftName d).id = d.id := by
  unfold liftName
  cases d.fields[nameKey]? <;> rfl

theorem fields_liftName (d : Doc) {k : String} (hk : k ≠ nameKey) :
    (liftName d).fields[k]? = d.fields[k]? := by
  unfold liftName
  cases d.fields[nameKey]? with
  | none => rfl
  | some f => simp [Std.ExtTreeMap.getElem?_erase, Ne.symm hk]

/-- Two documents are equal when their names and all their fields are. -/
theorem Doc.ext_fields {d d' : Doc} (hid : d.id = d'.id) (hname : d.name = d'.name)
    (h : ∀ k : String, d.fields[k]? = d'.fields[k]?) : d = d' := by
  obtain ⟨id, name, fields⟩ := d
  obtain ⟨id', name', fields'⟩ := d'
  obtain rfl : id = id' := hid
  obtain rfl : name = name' := hname
  obtain rfl : fields = fields' := Std.ExtTreeMap.ext_getElem? fun {k} => h k
  rfl

/-! ## The ops of one action -/

/-- Apply ops in order, forgetting which of them counted. -/
def runOps (c : Cell) (ops : List Op) : Cell := ops.foldl (fun c op => (applyOp c op).1) c

theorem applyOps_fst (c : Cell) (ops : List Op) : (applyOps c ops).1 = runOps c ops := by
  have key : ∀ (ops : List Op) (c : Cell) (b : Bool),
      (ops.foldl (fun (p : Cell × Bool) op =>
        ((applyOp p.1 op).1, p.2 || (applyOp p.1 op).2.applied)) (c, b)).1 = runOps c ops := by
    intro ops
    induction ops with
    | nil => intro c b; rfl
    | cons op ops ih => intro c b; exact ih _ _
  exact key ops c false

/-- `ops` all carry the clock `clock` and the stamp `stamp`, and are all upserts or all deletes. -/
structure OneStamp (ops : List Op) (clock : VecClock) (stamp : U64 ×ₗ Origin) (none_ : Bool) :
    Prop where
  clock : ∀ op ∈ ops, op.clock = clock
  stamp : ∀ op ∈ ops, op.stamp = stamp
  isNone : ∀ op ∈ ops, op.value.isNone = none_

theorem OneStamp.tail {op : Op} {ops : List Op} {clock : VecClock} {stamp : U64 ×ₗ Origin}
    {b : Bool} (h : OneStamp (op :: ops) clock stamp b) : OneStamp ops clock stamp b :=
  ⟨fun o ho => h.clock o (List.mem_cons_of_mem op ho),
    fun o ho => h.stamp o (List.mem_cons_of_mem op ho),
    fun o ho => h.isNone o (List.mem_cons_of_mem op ho)⟩

theorem deleted_runOps (ops : List Op) (c : Cell) :
    (runOps c ops).deleted = (c.deleted || ops.any fun op => op.key.isNone) := by
  induction ops generalizing c with
  | nil => simp [runOps]
  | cons op ops ih =>
    show (runOps (applyOp c op).1 ops).deleted = _
    rw [ih, deleted_applyOp, List.any_cons, Bool.or_assoc]

theorem name_runOps (ops : List Op) (c : Cell) : (runOps c ops).doc.name = c.doc.name := by
  induction ops generalizing c with
  | nil => rfl
  | cons op ops ih =>
    show (runOps (applyOp c op).1 ops).doc.name = _
    rw [ih, name_applyOp]

theorem id_runOps (ops : List Op) (c : Cell) : (runOps c ops).doc.id = c.doc.id := by
  induction ops generalizing c with
  | nil => rfl
  | cons op ops ih =>
    show (runOps (applyOp c op).1 ops).doc.id = _
    rw [ih, id_applyOp]

theorem doc_runOps_of_deleted {c : Cell} (h : c.deleted = true) (ops : List Op) :
    (runOps c ops).doc = c.doc := by
  induction ops generalizing c with
  | nil => rfl
  | cons op ops ih =>
    show (runOps (applyOp c op).1 ops).doc = _
    rw [ih (by rw [deleted_applyOp, h, Bool.true_or]), (applyOp_of_deleted h op).1]

/-- **Of the ops of one action only the first on a key counts.** -/
theorem fields_runOps (ops : List Op) {clock : VecClock} {stamp : U64 ×ₗ Origin} {b : Bool}
    (hu : OneStamp ops clock stamp b) (c : Cell) (hc : c.deleted = false)
    (hk : ∀ op ∈ ops, op.key ≠ none) (k : String) :
    (runOps c ops).doc.fields[k]? =
      match ops.find? fun op => op.key == some k with
      | none => c.doc.fields[k]?
      | some op => mergeField c.doc.fields[k]? op := by
  induction ops generalizing c with
  | nil => rfl
  | cons op ops ih =>
    obtain ⟨k₀, hk₀⟩ := Option.ne_none_iff_exists'.mp (hk op List.mem_cons_self)
    have hc' : (applyOp c op).1.deleted = false := by rw [deleted_applyOp, hc, hk₀]; rfl
    have hrest := ih hu.tail (applyOp c op).1 hc' fun o ho => hk o (List.mem_cons_of_mem op ho)
    show (runOps (applyOp c op).1 ops).doc.fields[k]? = _
    rw [hrest, fields_applyOp hc hk₀ k, List.find?_cons]
    by_cases hkk : k₀ = k
    · -- the head writes `k`: any later op on `k` has its stamp and is absorbed
      have hhead : (op.key == some k) = true := by rw [hk₀, hkk]; exact beq_self_eq_true _
      rw [if_pos hkk, hhead]
      cases hf : ops.find? fun op => op.key == some k with
      | none => rfl
      | some op' =>
        have hmem : op' ∈ op :: ops := List.mem_cons_of_mem op (List.mem_of_find?_eq_some hf)
        exact mergeField_idem
          ((hu.clock op' hmem).trans (hu.clock op List.mem_cons_self).symm)
          ((hu.stamp op' hmem).trans (hu.stamp op List.mem_cons_self).symm)
          ((hu.isNone op' hmem).trans (hu.isNone op List.mem_cons_self).symm) _
    · have hhead : (op.key == some k) = false := by
        rw [hk₀]
        exact beq_false_of_ne fun h => hkk (Option.some.inj h)
      rw [if_neg hkk, hhead]

/-- The clock after the ops of one action: joined with the action's, if there is any op. -/
theorem clock_runOps (ops : List Op) {clock : VecClock} (h : ∀ op ∈ ops, op.clock = clock)
    (c : Cell) : (runOps c ops).clock = if ops = [] then c.clock else c.clock.merge clock := by
  induction ops generalizing c with
  | nil => rfl
  | cons op ops ih =>
    have hop : op.clock = clock := h op List.mem_cons_self
    show (runOps (applyOp c op).1 ops).clock = _
    rw [ih (fun o ho => h o (List.mem_cons_of_mem op ho)), clock_applyOp, hop,
      if_neg (List.cons_ne_nil op ops)]
    by_cases hnil : ops = []
    · rw [if_pos hnil]
    · rw [if_neg hnil, VecClock.merge_assoc, VecClock.merge_self]

/-- Ops that agree in everything `applyOp` reads. -/
structure OpEq (op op' : Op) : Prop where
  key : op'.key = op.key
  value : op'.value = op.value
  ts : op'.ts = op.ts
  clock : op'.clock = op.clock
  origin : op'.origin = op.origin

theorem applyOp_congr {op op' : Op} (h : OpEq op op') (c : Cell) :
    applyOp c op' = applyOp c op := by
  obtain ⟨docId, key, value, ts, clock, origin, sig⟩ := op
  obtain ⟨docId', key', value', ts', clock', origin', sig'⟩ := op'
  obtain ⟨rfl, rfl, rfl, rfl, rfl⟩ := h
  rfl

theorem runOps_congr {ops ops' : List Op} (h : List.Forall₂ OpEq ops ops') (c : Cell) :
    runOps c ops' = runOps c ops := by
  induction h generalizing c with
  | nil => rfl
  | cons hop _ ih =>
    show runOps (applyOp c _).1 _ = runOps (applyOp c _).1 _
    rw [applyOp_congr hop, ih]

/-! ## What a model makes of an action -/

/-- The ops of one reduction are all upserts or all deletes: an interpreted definition only writes
    values, and `open@1` has a single op. -/
theorem Model.reduce_isNone {m : Model} {d : Doc} {a : Action} {ops : List Op}
    (h : m.reduce d a = .ok ops) : ∃ b, ∀ op ∈ ops, op.value.isNone = b := by
  cases m with
  | «open» =>
    obtain rfl : [Open.op a] = ops := by injection h
    exact ⟨(Open.op a).value.isNone, fun op hop => by rw [List.mem_singleton.mp hop]⟩
  | l1 m =>
    refine ⟨false, fun op hop => ?_⟩
    obtain ⟨field, v, rfl⟩ := L1.mem_reduce h op hop
    rfl

theorem oneStamp_map_stampOp {ops : List Op} {b : Bool} (a : Action)
    (h : ∀ op ∈ ops, op.value.isNone = b) :
    OneStamp (ops.map (stampOp a)) a.clock (toLex (a.ts, a.origin)) b := by
  refine ⟨?_, ?_, ?_⟩ <;> intro op hop <;> obtain ⟨op, hop', rfl⟩ := List.mem_map.mp hop
  · rfl
  · rfl
  · exact h op hop'

/-- The two reductions of an action in two states: both fail, or both give ops of one shape. -/
theorem find?_shape {ops ops' : List Op} (h : List.Forall₂ OpShape ops ops') (k : String) :
    (ops.find? (fun op => op.key == some k) = none ∧
      ops'.find? (fun op => op.key == some k) = none) ∨
    ∃ op op', ops.find? (fun op => op.key == some k) = some op ∧
      ops'.find? (fun op => op.key == some k) = some op' ∧ OpShape op op' := by
  induction h with
  | nil => exact Or.inl ⟨rfl, rfl⟩
  | @cons op op' ops ops' hop _ ih =>
    rw [List.find?_cons, List.find?_cons, hop.key]
    cases op.key == some k with
    | true => exact Or.inr ⟨op, op', rfl, rfl, hop⟩
    | false => exact ih

/-- Which keys are written does not depend on the state either. -/
theorem any_key_shape {ops ops' : List Op} (h : List.Forall₂ OpShape ops ops')
    (p : Option String → Bool) : (ops'.any fun op => p op.key) = ops.any fun op => p op.key := by
  induction h with
  | nil => rfl
  | cons hs _ ih => rw [List.any_cons, List.any_cons, ih, hs.key]

theorem key_ne_none_of_any {ops : List Op} (h : (ops.any fun op => op.key.isNone) = false) :
    ∀ op ∈ ops, op.key ≠ none := by
  intro op hop heq
  have := List.any_eq_false.mp h op hop
  rw [heq] at this
  exact this rfl

/-- Does the action reduce to at least one op.  The state does not matter (`touches_iff`), so the
    blank document will do. -/
def Model.touches (m : Model) (a : Action) : Bool :=
  match m.reduce ⟨a.docId, "", ∅⟩ a with
  | .ok (_ :: _) => true
  | _ => false

theorem Model.touches_iff {m : Model} {a : Action} (d : Doc) {ops : List Op}
    (h : m.reduce d a = .ok ops) : m.touches a = true ↔ ops ≠ [] := by
  unfold touches
  rcases m.reduce_shape d ⟨a.docId, "", ∅⟩ a with ⟨r, hr, -⟩ | ⟨ops₁, ops₂, h₁, h₂, hshape⟩
  · rw [h] at hr; cases hr
  · obtain rfl : ops = ops₁ := by rw [h] at h₁; injection h₁
    rw [h₂]
    cases hshape <;> simp

theorem Model.touches_of_error {m : Model} {a : Action} {d : Doc} {r : Reject}
    (h : m.reduce d a = .error r) : m.touches a = false := by
  unfold touches
  rcases m.reduce_shape d ⟨a.docId, "", ∅⟩ a with ⟨r', -, hr⟩ | ⟨ops₁, ops₂, h₁, -, -⟩
  · rw [hr]
  · rw [h] at h₁; cases h₁

/-! ## One action into an entry -/

theorem applyOpsToEntry_ok {e : Entry} {m : Model} {a : Action} {ops : List Op}
    (h : m.reduce e.doc a = .ok ops) :
    (applyOpsToEntry e m a).1 =
      { e with
        doc := liftName (runOps e.cell (ops.map (stampOp a))).doc
        clock := (runOps e.cell (ops.map (stampOp a))).clock
        deleted := (runOps e.cell (ops.map (stampOp a))).deleted } := by
  unfold applyOpsToEntry
  rw [h]
  dsimp only
  rw [applyOps_fst]

theorem applyOpsToEntry_error {e : Entry} {m : Model} {a : Action} {r : Reject}
    (h : m.reduce e.doc a = .error r) : applyOpsToEntry e m a = (e, false, e.deleted) := by
  unfold applyOpsToEntry
  rw [h]

@[simp] theorem log_applyOpsToEntry (e : Entry) (m : Model) (a : Action) :
    (applyOpsToEntry e m a).1.log = e.log := by
  unfold applyOpsToEntry
  cases m.reduce e.doc a <;> rfl

@[simp] theorem space_applyOpsToEntry (e : Entry) (m : Model) (a : Action) :
    (applyOpsToEntry e m a).1.space = e.space := by
  unfold applyOpsToEntry
  cases m.reduce e.doc a <;> rfl

theorem deleted_applyOpsToEntry (e : Entry) (m : Model) (a : Action) :
    (applyOpsToEntry e m a).2.2 = (applyOpsToEntry e m a).1.deleted := by
  unfold applyOpsToEntry
  cases m.reduce e.doc a <;> rfl

@[simp] theorem id_applyOpsToEntry (e : Entry) (m : Model) (a : Action) :
    (applyOpsToEntry e m a).1.doc.id = e.doc.id := by
  cases h : m.reduce e.doc a with
  | error r => rw [applyOpsToEntry_error h]
  | ok ops =>
    rw [applyOpsToEntry_ok h]
    show (liftName (runOps e.cell _).doc).id = e.doc.id
    rw [id_liftName, id_runOps]
    rfl

theorem lifted_applyOpsToEntry {e : Entry} (he : Lifted e.doc) (m : Model) (a : Action) :
    Lifted (applyOpsToEntry e m a).1.doc := by
  cases h : m.reduce e.doc a with
  | error r => rw [applyOpsToEntry_error h]; exact he
  | ok ops => rw [applyOpsToEntry_ok h]; exact lifted_liftName _

/-- The clock moves by the action's clock, exactly when the action touches the document. -/
theorem clock_applyOpsToEntry (e : Entry) (m : Model) (a : Action) :
    (applyOpsToEntry e m a).1.clock =
      if m.touches a then e.clock.merge a.clock else e.clock := by
  cases h : m.reduce e.doc a with
  | error r => rw [applyOpsToEntry_error h, Model.touches_of_error h]; rfl
  | ok ops =>
    rw [applyOpsToEntry_ok h]
    show (runOps e.cell (ops.map (stampOp a))).clock = _
    have hclock : ∀ op ∈ ops.map (stampOp a), op.clock = a.clock := by
      intro op hop
      obtain ⟨op, -, rfl⟩ := List.mem_map.mp hop
      rfl
    rw [clock_runOps _ hclock]
    by_cases hnil : ops = []
    · rw [if_pos (List.map_eq_nil_iff.mpr hnil),
        if_neg (fun ht => (Model.touches_iff e.doc h).mp ht hnil)]
      rfl
    · rw [if_neg (fun h => hnil (List.map_eq_nil_iff.mp h)),
        if_pos ((Model.touches_iff e.doc h).mpr hnil)]
      rfl

/-- **What an action does to a field**, on a live document and without a whole-document delete. -/
theorem fields_applyOpsToEntry {e : Entry} {m : Model} {a : Action} {ops : List Op}
    (h : m.reduce e.doc a = .ok ops) (hd : e.deleted = false) (hk : ∀ op ∈ ops, op.key ≠ none)
    {k : String} (hkn : k ≠ nameKey) :
    (applyOpsToEntry e m a).1.doc.fields[k]? =
      match ops.find? fun op => op.key == some k with
      | none => e.doc.fields[k]?
      | some op => mergeField e.doc.fields[k]? (stampOp a op) := by
  obtain ⟨b, hb⟩ := Model.reduce_isNone h
  rw [applyOpsToEntry_ok h]
  show (liftName (runOps e.cell (ops.map (stampOp a))).doc).fields[k]? = _
  rw [fields_liftName _ hkn, fields_runOps _ (oneStamp_map_stampOp a hb) e.cell hd ?_ k,
    List.find?_map]
  · have hfun : ((fun op : Op => op.key == some k) ∘ stampOp a) = fun op => op.key == some k := rfl
    rw [hfun]
    cases ops.find? fun op => op.key == some k <;> rfl
  · intro op hop
    obtain ⟨op', hop', rfl⟩ := List.mem_map.mp hop
    exact hk op' hop'

/-- The name the ops of an action give a document: the string of the first op on the name key. -/
theorem name_applyOpsToEntry {e : Entry} {m : Model} {a : Action} {ops : List Op}
    (h : m.reduce e.doc a = .ok ops) (hd : e.deleted = false) (hk : ∀ op ∈ ops, op.key ≠ none)
    (hl : Lifted e.doc) :
    (applyOpsToEntry e m a).1.doc.name =
      match (ops.find? fun op => op.key == some nameKey).bind Op.value with
      | none => e.doc.name
      | some v => v.asStr?.getD "" := by
  obtain ⟨b, hb⟩ := Model.reduce_isNone h
  rw [applyOpsToEntry_ok h]
  show (liftName (runOps e.cell (ops.map (stampOp a))).doc).name = _
  have hfield := fields_runOps _ (oneStamp_map_stampOp a hb) e.cell hd (by
    intro op hop
    obtain ⟨op', hop', rfl⟩ := List.mem_map.mp hop
    exact hk op' hop') nameKey
  have hfun : ((fun op : Op => op.key == some nameKey) ∘ stampOp a) =
    fun op => op.key == some nameKey := rfl
  rw [show e.cell.doc.fields[nameKey]? = none from hl, List.find?_map, hfun] at hfield
  -- the name key is free in a lifted document, so the first op on it is written as it stands
  have hname : (runOps e.cell (ops.map (stampOp a))).doc.name = e.doc.name := name_runOps _ _
  unfold liftName
  cases hf : ops.find? fun op => op.key == some nameKey with
  | none =>
    rw [hf] at hfield
    rw [show (runOps e.cell (ops.map (stampOp a))).doc.fields[nameKey]? = none from hfield]
    exact hname
  | some op =>
    rw [hf] at hfield
    cases hv : op.value with
    | none =>
      rw [show (runOps e.cell (ops.map (stampOp a))).doc.fields[nameKey]? = none from by
        rw [hfield]; simp [mergeField, stampOp, hv]]
      simpa [hv] using hname
    | some v =>
      rw [show (runOps e.cell (ops.map (stampOp a))).doc.fields[nameKey]? =
          some (fieldFromOp (stampOp a op)) from by
        rw [hfield]; simp [mergeField, stampOp, hv]]
      show (fieldFromOp (stampOp a op)).value.asStr?.getD "" = _
      have hval : (stampOp a op).value = some v := hv
      rw [(fieldFromOp_some hval).1]
      simp [hv]

theorem deleted_applyOpsToEntry_ok {e : Entry} {m : Model} {a : Action} {ops : List Op}
    (h : m.reduce e.doc a = .ok ops) :
    (applyOpsToEntry e m a).1.deleted = (e.deleted || ops.any fun op => op.key.isNone) := by
  rw [applyOpsToEntry_ok h]
  show (runOps e.cell (ops.map (stampOp a))).deleted = _
  rw [deleted_runOps, List.any_map]
  rfl

/-- A deleted document is not written to any more. -/
theorem doc_applyOpsToEntry_of_deleted {e : Entry} (hl : Lifted e.doc) (hd : e.deleted = true)
    (m : Model) (a : Action) : (applyOpsToEntry e m a).1.doc = e.doc := by
  cases h : m.reduce e.doc a with
  | error r => rw [applyOpsToEntry_error h]
  | ok ops =>
    rw [applyOpsToEntry_ok h]
    show liftName (runOps e.cell (ops.map (stampOp a))).doc = e.doc
    rw [doc_runOps_of_deleted hd]
    exact liftName_of_lifted hl

theorem applyOpsToEntry_withModel (e : Entry) (m : Model) (a : Action) (r : ModelRef) :
    (applyOpsToEntry { e with model := r } m a).1 =
      { (applyOpsToEntry e m a).1 with model := r } := by
  have hdoc : ({ e with model := r } : Entry).doc = e.doc := rfl
  unfold applyOpsToEntry
  rw [hdoc]
  cases m.reduce e.doc a <;> rfl

/-! ## No second effect -/

/-- The same document comes out of applying an action a second time. -/
theorem doc_applyOpsToEntry_idem {e : Entry} (hl : Lifted e.doc) (m : Model) (a : Action) :
    (applyOpsToEntry (applyOpsToEntry e m a).1 m a).1.doc = (applyOpsToEntry e m a).1.doc := by
  have hl' := lifted_applyOpsToEntry hl m a
  cases hd' : (applyOpsToEntry e m a).1.deleted with
  | true => exact doc_applyOpsToEntry_of_deleted hl' hd' m a
  | false =>
    rcases m.reduce_shape e.doc (applyOpsToEntry e m a).1.doc a with
      ⟨r, -, h'⟩ | ⟨ops, ops', h, h', hshape⟩
    · rw [applyOpsToEntry_error h']
    · -- still live: no op is a whole-document delete, and the field-wise description applies twice
      rw [deleted_applyOpsToEntry_ok h, Bool.or_eq_false_iff] at hd'
      obtain ⟨hd, hnone⟩ := hd'
      have hk := key_ne_none_of_any hnone
      have hk' := key_ne_none_of_any ((any_key_shape hshape Option.isNone).trans hnone)
      have hd' : (applyOpsToEntry e m a).1.deleted = false := by
        rw [deleted_applyOpsToEntry_ok h, hd, hnone]; rfl
      refine Doc.ext_fields (by simp) ?_ fun k => ?_
      · -- the first op on the name key writes the same string both times
        rw [name_applyOpsToEntry h' hd' hk' hl']
        rcases find?_shape hshape nameKey with ⟨-, hf'⟩ | ⟨op, op', hf, hf', hs⟩
        · rw [hf']; rfl
        · rw [hf', name_applyOpsToEntry h hd hk hl, hf]
          have htext := hs.text
          simp only [Option.bind_some]
          cases hv : op.value <;> cases hv' : op'.value <;> rw [hv, hv'] at htext <;>
            simp_all
      · by_cases hkn : k = nameKey
        · rw [hkn]
          exact (lifted_applyOpsToEntry hl' m a).trans hl'.symm
        · rw [fields_applyOpsToEntry h' hd' hk' hkn]
          rcases find?_shape hshape k with ⟨-, hf'⟩ | ⟨op, op', hf, hf', hs⟩
          · rw [hf']
          · rw [hf', fields_applyOpsToEntry h hd hk hkn, hf]
            have hclock : (stampOp a op').clock = (stampOp a op).clock := rfl
            have hstamp : (stampOp a op').stamp = (stampOp a op).stamp := rfl
            have hnone : (stampOp a op').value.isNone = (stampOp a op).value.isNone := by
              simpa [stampOp] using congrArg Option.isNone hs.text
            exact mergeField_idem hclock hstamp hnone _

theorem applyOpsToEntry_idem {e : Entry} (hl : Lifted e.doc) (m : Model) (a : Action) :
    (applyOpsToEntry (applyOpsToEntry e m a).1 m a).1 = (applyOpsToEntry e m a).1 := by
  have hdoc := doc_applyOpsToEntry_idem hl m a
  have hclock : (applyOpsToEntry (applyOpsToEntry e m a).1 m a).1.clock =
      (applyOpsToEntry e m a).1.clock := by
    rw [clock_applyOpsToEntry, clock_applyOpsToEntry]
    cases m.touches a with
    | true => simp only [if_true, VecClock.merge_assoc, VecClock.merge_self]
    | false => rfl
  have hdel : (applyOpsToEntry (applyOpsToEntry e m a).1 m a).1.deleted =
      (applyOpsToEntry e m a).1.deleted := by
    rcases m.reduce_shape e.doc (applyOpsToEntry e m a).1.doc a with
      ⟨r, -, h'⟩ | ⟨ops, ops', h, h', hshape⟩
    · rw [applyOpsToEntry_error h']
    · rw [deleted_applyOpsToEntry_ok h', deleted_applyOpsToEntry_ok h,
        any_key_shape hshape Option.isNone, Bool.or_assoc, Bool.or_self]
  -- log, space and model are not written at all
  have hmodel : ∀ e : Entry, (applyOpsToEntry e m a).1.model = e.model := by
    intro e
    cases h : m.reduce e.doc a with
    | error r => rw [applyOpsToEntry_error h]
    | ok ops => rw [applyOpsToEntry_ok h]
  have hlog := log_applyOpsToEntry (applyOpsToEntry e m a).1 m a
  have hspace := space_applyOpsToEntry (applyOpsToEntry e m a).1 m a
  have hmodel := hmodel (applyOpsToEntry e m a).1
  generalize applyOpsToEntry (applyOpsToEntry e m a).1 m a = p at *
  generalize (applyOpsToEntry e m a).1 = e' at *
  obtain ⟨⟨doc, clock, deleted, log, model, space⟩, q⟩ := p
  obtain ⟨doc', clock', deleted', log', model', space'⟩ := e'
  simp_all

/-! ## Actions that differ in their signatures only -/

/-- `a` with another signature and other co-signatures. -/
def Action.resign (a : Action) (sig : Sig) (cosig : List CoSig) : Action :=
  { a with sig := sig, cosig := cosig }

theorem Action.SameSigned.eq_resign {a b : Action} (h : a.SameSigned b) :
    b = a.resign b.sig b.cosig := h.symm

theorem mapM_map_except {α β ε : Type} (f : α → Except ε β) (g : β → β) : ∀ l : List α,
    l.mapM (fun x => (f x).map g) = (l.mapM f).map (List.map g)
  | [] => rfl
  | x :: l => by
    rw [List.mapM_cons, List.mapM_cons, mapM_map_except f g l]
    cases f x with
    | error r => rfl
    | ok v => cases l.mapM f <;> rfl

/-- The reduction of a re-signed action: the same ops, under the new signature. -/
theorem Model.reduce_resign (m : Model) (d : Doc) (a : Action) (sig : Sig) (cosig : List CoSig) :
    m.reduce d (a.resign sig cosig) =
      (m.reduce d a).map (List.map fun op => { op with sig := sig }) := by
  cases m with
  | «open» => rfl
  | l1 m =>
    show m.reduce d (a.resign sig cosig) = (m.reduce d a).map _
    unfold L1.reduce
    show (match m.reducer a.kind with
      | none => _
      | some r => _ : Except Reject (List Op)) = _
    cases m.reducer a.kind with
    | none => rfl
    | some r =>
      dsimp only
      cases (r.get? "writes").bind Value.asObject? with
      | none => rfl
      | some writes =>
        dsimp only
        rw [← mapM_map_except]
        congr 1
        funext p
        show (writeValue d a p.1 p.2).map _ = ((writeValue d a p.1 p.2).map _).map _
        cases writeValue d a p.1 p.2 <;> rfl

theorem applyOpsToEntry_resign (e : Entry) (m : Model) (a : Action) (sig : Sig)
    (cosig : List CoSig) :
    (applyOpsToEntry e m (a.resign sig cosig)).1 = (applyOpsToEntry e m a).1 := by
  cases h : m.reduce e.doc a with
  | error r =>
    have h' := m.reduce_resign e.doc a sig cosig
    rw [h] at h'
    rw [applyOpsToEntry_error h, applyOpsToEntry_error h']
  | ok ops =>
    have h' := m.reduce_resign e.doc a sig cosig
    rw [h] at h'
    rw [applyOpsToEntry_ok h, applyOpsToEntry_ok h', List.map_map, runOps_congr]
    rw [List.forall₂_map_left_iff, List.forall₂_map_right_iff]
    exact List.forall₂_same.mpr fun op _ => ⟨rfl, rfl, rfl, rfl, rfl⟩

theorem Model.authorize_resign (m : Model) (d : Doc) (a : Action) (sig : Sig)
    (cosig : List CoSig) : m.authorize d (a.resign sig cosig) = m.authorize d a := by
  cases m <;> rfl

/-! ## The part of an entry that a fold reads -/

/-- Entries that agree in document and deleted flag. -/
structure SameDoc (e e' : Entry) : Prop where
  doc : e.doc = e'.doc
  deleted : e.deleted = e'.deleted

theorem SameDoc.refl (e : Entry) : SameDoc e e := ⟨rfl, rfl⟩

theorem SameDoc.symm {e e' : Entry} (h : SameDoc e e') : SameDoc e' e :=
  ⟨h.doc.symm, h.deleted.symm⟩

theorem SameDoc.trans {e e' e'' : Entry} (h : SameDoc e e') (h' : SameDoc e' e'') :
    SameDoc e e'' :=
  ⟨h.doc.trans h'.doc, h.deleted.trans h'.deleted⟩

/-- One op: the clock is written but never read. -/
theorem applyOp_sameDoc (op : Op) {c c' : Cell} (hdoc : c.doc = c'.doc)
    (hdel : c.deleted = c'.deleted) :
    (applyOp c op).1.doc = (applyOp c' op).1.doc ∧
      (applyOp c op).2.applied = (applyOp c' op).2.applied := by
  obtain ⟨doc, clock, deleted⟩ := c
  obtain ⟨doc', clock', deleted'⟩ := c'
  obtain rfl : doc = doc' := hdoc
  obtain rfl : deleted = deleted' := hdel
  unfold applyOp
  dsimp only
  repeat' split
  all_goals exact ⟨rfl, rfl⟩

theorem runOps_sameDoc (ops : List Op) {c c' : Cell} (hdoc : c.doc = c'.doc)
    (hdel : c.deleted = c'.deleted) :
    (runOps c ops).doc = (runOps c' ops).doc ∧
      (runOps c ops).deleted = (runOps c' ops).deleted := by
  induction ops generalizing c c' with
  | nil => exact ⟨hdoc, hdel⟩
  | cons op ops ih =>
    refine ih (applyOp_sameDoc op hdoc hdel).1 ?_
    rw [deleted_applyOp, deleted_applyOp, hdel]

theorem SameDoc.after_applyOps {e e' : Entry} (h : SameDoc e e') (m : Model) (a : Action) :
    SameDoc (applyOpsToEntry e m a).1 (applyOpsToEntry e' m a).1 := by
  cases hr : m.reduce e.doc a with
  | error r => rw [applyOpsToEntry_error hr, applyOpsToEntry_error (h.doc ▸ hr)]; exact h
  | ok ops =>
    rw [applyOpsToEntry_ok hr, applyOpsToEntry_ok (h.doc ▸ hr)]
    obtain ⟨hdoc, hdel⟩ := runOps_sameDoc (ops.map (stampOp a))
      (show e.cell.doc = e'.cell.doc from h.doc) h.deleted
    exact ⟨congrArg liftName hdoc, hdel⟩

/-! ## The clock of a log -/

/-- Does the action, under the model the registry has for it, reduce to at least one op. -/
def touchesIn (r : ModelRegistry) (a : Action) : Bool := (r.find a.model).any fun m => m.touches a

/-- The join of `base` with the clocks of the actions that touch the document. -/
def logClock (r : ModelRegistry) (base : VecClock) (log : List Action) : VecClock :=
  ((log.filter (touchesIn r)).map Action.clock).foldl VecClock.merge base

theorem touchesIn_eq {r : ModelRegistry} {a : Action} {m : Model} (hm : r.find a.model = some m) :
    touchesIn r a = m.touches a := by
  unfold touchesIn
  rw [hm]
  rfl

theorem logClock_cons (r : ModelRegistry) (base : VecClock) (log : List Action) {a : Action}
    {m : Model} (hm : r.find a.model = some m) :
    logClock r base (a :: log) =
      logClock r (if m.touches a then base.merge a.clock else base) log := by
  have ht := touchesIn_eq hm
  unfold logClock
  cases h : m.touches a with
  | true => rw [List.filter_cons_of_pos (ht.trans h)]; rfl
  | false => rw [List.filter_cons_of_neg (by rw [ht, h]; exact Bool.false_ne_true)]; rfl

theorem logClock_append (r : ModelRegistry) (base : VecClock) (log log' : List Action) :
    logClock r base (log ++ log') = logClock r (logClock r base log) log' := by
  unfold logClock
  rw [List.filter_append, List.map_append, List.foldl_append]

theorem logClock_concat (r : ModelRegistry) (base : VecClock) (log : List Action) {a : Action}
    {m : Model} (hm : r.find a.model = some m) :
    logClock r base (log ++ [a]) =
      if m.touches a then (logClock r base log).merge a.clock else logClock r base log := by
  rw [logClock_append, logClock_cons r _ _ hm]
  rfl

/-- **The clock of a log is a function of the set of actions.** -/
theorem logClock_eq_of_mem_iff {r r' : ModelRegistry} {base : VecClock} {l l' : List Action}
    (hmem : ∀ a, a ∈ l ↔ a ∈ l') (hr : ∀ a ∈ l, r.find a.model = r'.find a.model) :
    logClock r base l = logClock r' base l' := by
  refine Lib.foldl_join_eq (fun x => ?_) base
  simp only [List.mem_map, List.mem_filter]
  constructor
  · rintro ⟨a, ⟨ha, ht⟩, rfl⟩
    exact ⟨a, ⟨(hmem a).mp ha, by rw [touchesIn, ← hr a ha]; exact ht⟩, rfl⟩
  · rintro ⟨a, ⟨ha, ht⟩, rfl⟩
    have ha := (hmem a).mpr ha
    exact ⟨a, ⟨ha, by rw [touchesIn, hr a ha]; exact ht⟩, rfl⟩

theorem logClock_perm (r : ModelRegistry) (base : VecClock) {l l' : List Action}
    (h : l.Perm l') : logClock r base l = logClock r base l' :=
  logClock_eq_of_mem_iff (fun _ => h.mem_iff) fun _ _ => rfl

/-! ## The checks of a re-signed action -/

variable [Primitives]

theorem L1.evalPrecond_resign (m : L1) (d : Doc) (a : Action) (sig : Sig) (cosig : List CoSig) :
    ∀ (budget : ℕ) (p : Value),
      m.evalPrecond d (a.resign sig cosig) p budget = m.evalPrecond d a p budget := by
  intro budget
  induction budget with
  | zero => intro p; rfl
  | succ n ih =>
    intro p
    unfold evalPrecond
    simp only [ih]
    rfl

theorem Model.checkPrecondition_resign (m : Model) (d : Doc) (a : Action) (sig : Sig)
    (cosig : List CoSig) :
    m.checkPrecondition d (a.resign sig cosig) = m.checkPrecondition d a := by
  cases m with
  | «open» => rfl
  | l1 m =>
    show (m.preList a.kind).forM _ = (m.preList a.kind).forM _
    simp only [L1.evalPrecond_resign]

theorem refoldStep_resign (e : Entry) (m : Model) (a : Action) (sig : Sig) (cosig : List CoSig) :
    refoldStep e (a.resign sig cosig) m = refoldStep e a m := by
  unfold refoldStep
  rw [m.checkPrecondition_resign, m.authorize_resign, applyOpsToEntry_resign]
  rfl

/-! ## The canonical fold -/

/-- One step of the fold of a log: `refoldStep` with the model the registry has for the action. -/
def foldStep (r : ModelRegistry) (e : Entry) (a : Action) : Entry :=
  match r.find a.model with
  | some m => refoldStep e a m
  | none => e

theorem foldStep_eq {r : ModelRegistry} {a : Action} {m : Model} (h : r.find a.model = some m)
    (e : Entry) : foldStep r e a = refoldStep e a m := by
  unfold foldStep
  rw [h]

/-- A step either passes the action over or applies it. -/
theorem refoldStep_cases (e : Entry) (a : Action) (m : Model) :
    refoldStep e a m = e ∨
      (m.checkPrecondition e.doc a = .ok () ∧ m.authorize e.doc a = .ok () ∧
        refoldStep e a m = { (applyOpsToEntry e m a).1 with model := a.model }) := by
  unfold refoldStep
  cases hp : m.checkPrecondition e.doc a with
  | error r => exact Or.inl rfl
  | ok u =>
    cases ha : m.authorize e.doc a with
    | error r => exact Or.inl rfl
    | ok u => exact Or.inr ⟨rfl, rfl, rfl⟩

theorem lifted_refoldStep {e : Entry} (hl : Lifted e.doc) (a : Action) (m : Model) :
    Lifted (refoldStep e a m).doc := by
  rcases refoldStep_cases e a m with h | ⟨-, -, h⟩
  · rw [h]; exact hl
  · rw [h]; exact lifted_applyOpsToEntry hl m a

theorem refoldStep_idem {e : Entry} (hl : Lifted e.doc) (a : Action) (m : Model) :
    refoldStep (refoldStep e a m) a m = refoldStep e a m := by
  rcases refoldStep_cases e a m with h | ⟨-, -, h⟩
  · rw [h, h]
  · rw [h]
    rcases refoldStep_cases { (applyOpsToEntry e m a).1 with model := a.model } a m with
      h' | ⟨-, -, h'⟩
    · exact h'
    · rw [h', applyOpsToEntry_withModel, applyOpsToEntry_idem hl]

/-- Actions of `S` at one canonical position are the same up to their signatures. -/
def KeySeparates (S : Set Action) : Prop :=
  ∀ a ∈ S, ∀ b ∈ S, canonKey a = canonKey b → a.SameSigned b

/-- The hash is part of the canonical position. -/
theorem Action.HashSeparates.keySeparates {S : Set Action} (h : Action.HashSeparates S) :
    KeySeparates S := by
  intro a ha b hb hkey
  exact h a ha b hb (congrArg (fun k : CanonKey => (ofLex (ofLex k).2).2) hkey)

/-- **The fold step is canonical**: on the actions of a set that their positions tell apart,
    repetitions have no effect and the canonical position determines the effect. -/
theorem foldStep_canonStep (r : ModelRegistry) {S : Set Action} (hS : KeySeparates S) :
    Lib.CanonStep canonKey (foldStep r) (fun e => Lifted e.doc) S where
  keeps := by
    intro e a _ hl
    unfold foldStep
    cases r.find a.model with
    | none => exact hl
    | some m => exact lifted_refoldStep hl a m
  idem := by
    intro e a _ hl
    unfold foldStep
    cases r.find a.model with
    | none => rfl
    | some m => exact refoldStep_idem hl a m
  congr := by
    intro e a b ha hb hkey _
    rw [(hS a ha b hb hkey).eq_resign]
    unfold foldStep
    show _ = match r.find a.model with
      | some m => _
      | none => _
    cases r.find a.model with
    | none => rfl
    | some m => exact (refoldStep_resign e m a _ _).symm

theorem mem_sortLog {log : List Action} {a : Action} : a ∈ sortLog log ↔ a ∈ log :=
  Lib.mem_canonSort

theorem sortLog_keySorted (log : List Action) : Lib.KeySorted canonKey (sortLog log) :=
  Lib.canonSort_keySorted _ _

/-- The canonical fold of a log: sort by `canonKey` and fold from `base`, passing over exactly the
    actions whose precondition or authorization fails where they stand. -/
def canonFold (r : ModelRegistry) (base : Entry) (log : List Action) : Entry :=
  (sortLog log).foldl (foldStep r) base

theorem foldl_foldStep_congr {r r' : ModelRegistry} : ∀ (log : List Action),
    (∀ a ∈ log, r.find a.model = r'.find a.model) → ∀ e : Entry,
    log.foldl (foldStep r) e = log.foldl (foldStep r') e
  | [], _, _ => rfl
  | a :: log, h, e => by
    have hstep : foldStep r e a = foldStep r' e a := by
      unfold foldStep
      rw [h a List.mem_cons_self]
    rw [List.foldl_cons, List.foldl_cons, hstep]
    exact foldl_foldStep_congr log (fun b hb => h b (List.mem_cons_of_mem a hb)) _

/-- **The canonical fold is a function of the set of actions.** -/
theorem canonFold_eq_of_mem_iff {r r' : ModelRegistry} {base : Entry} {l l' : List Action}
    (hbase : Lifted base.doc) (hsep : KeySeparates {a | a ∈ l})
    (hmem : ∀ a, a ∈ l ↔ a ∈ l') (hr : ∀ a ∈ l, r.find a.model = r'.find a.model) :
    canonFold r base l = canonFold r' base l' := by
  have hS : ∀ a ∈ sortLog l, a ∈ {a | a ∈ l} := fun a ha => mem_sortLog.mp ha
  have hS' : ∀ a ∈ sortLog l', a ∈ {a | a ∈ l} := fun a ha =>
    (hmem a).mpr (mem_sortLog.mp ha)
  unfold canonFold
  rw [← foldl_foldStep_congr (sortLog l') (fun a ha => hr a (hS' a ha))]
  refine (foldStep_canonStep r hsep).foldl_eq _ _ _ _ le_rfl hbase hS hS'
    (sortLog_keySorted _) (sortLog_keySorted _) fun k => ?_
  constructor
  · rintro ⟨a, ha, rfl⟩
    exact ⟨a, mem_sortLog.mpr ((hmem a).mp (hS a ha)), rfl⟩
  · rintro ⟨a, ha, rfl⟩
    exact ⟨a, mem_sortLog.mpr (hS' a ha), rfl⟩

/-- An action that sorts after the whole log is one more step of its canonical fold. -/
theorem canonFold_concat (r : ModelRegistry) (base : Entry) {log : List Action} {a : Action}
    (h : Lib.KeySorted canonKey (log ++ [a])) :
    canonFold r base (log ++ [a]) = foldStep r (canonFold r base log) a := by
  have hlog : Lib.KeySorted canonKey log := (List.pairwise_append.mp h).1
  unfold canonFold sortLog
  rw [h.canonSort_eq, hlog.canonSort_eq, List.foldl_append]
  rfl

theorem canonFold_sortLog (r : ModelRegistry) (base : Entry) (log : List Action) :
    canonFold r base (sortLog log) = canonFold r base log := by
  unfold canonFold
  rw [show sortLog (sortLog log) = sortLog log from
    (sortLog_keySorted log).canonSort_eq]

/-! ### What a fold keeps -/

/-- Anything that every step keeps holds after a fold. -/
theorem foldl_foldStep_induct {r : ModelRegistry} {P : Entry → Prop}
    (step : ∀ e a m, r.find a.model = some m → P e → P (refoldStep e a m)) :
    ∀ (log : List Action) (e : Entry), P e → P (log.foldl (foldStep r) e)
  | [], _, he => he
  | a :: log, e, he => by
    refine foldl_foldStep_induct step log _ ?_
    unfold foldStep
    cases hm : r.find a.model with
    | none => exact he
    | some m => exact step e a m hm he

theorem space_refoldStep (e : Entry) (a : Action) (m : Model) :
    (refoldStep e a m).space = e.space := by
  rcases refoldStep_cases e a m with h | ⟨-, -, h⟩
  · rw [h]
  · rw [h]; exact space_applyOpsToEntry e m a

theorem id_refoldStep (e : Entry) (a : Action) (m : Model) :
    (refoldStep e a m).doc.id = e.doc.id := by
  rcases refoldStep_cases e a m with h | ⟨-, -, h⟩
  · rw [h]
  · rw [h]; exact id_applyOpsToEntry e m a

theorem lifted_canonFold (r : ModelRegistry) {base : Entry} (h : Lifted base.doc)
    (log : List Action) : Lifted (canonFold r base log).doc :=
  foldl_foldStep_induct (P := fun e => Lifted e.doc)
    (fun _ a m _ he => lifted_refoldStep he a m) _ base h

theorem id_canonFold (r : ModelRegistry) (base : Entry) (log : List Action) :
    (canonFold r base log).doc.id = base.doc.id :=
  foldl_foldStep_induct (P := fun e => e.doc.id = base.doc.id)
    (fun e a m _ he => (id_refoldStep e a m).trans he) _ base rfl

theorem SameDoc.after_refoldStep {e e' : Entry} (h : SameDoc e e') (a : Action) (m : Model) :
    SameDoc (refoldStep e a m) (refoldStep e' a m) := by
  unfold refoldStep
  rw [h.doc]
  by_cases hc : ((m.checkPrecondition e'.doc a).isOk && (m.authorize e'.doc a).isOk) = true
  · rw [if_pos hc, if_pos hc]
    exact ⟨(h.after_applyOps m a).doc, (h.after_applyOps m a).deleted⟩
  · rw [if_neg hc, if_neg hc]
    exact h

theorem SameDoc.after_foldStep {e e' : Entry} (h : SameDoc e e') (r : ModelRegistry) (a : Action) :
    SameDoc (foldStep r e a) (foldStep r e' a) := by
  unfold foldStep
  cases r.find a.model with
  | none => exact h
  | some m => exact h.after_refoldStep a m

theorem SameDoc.after_foldl {e e' : Entry} (h : SameDoc e e') (r : ModelRegistry)
    (log : List Action) : SameDoc (log.foldl (foldStep r) e) (log.foldl (foldStep r) e') := by
  induction log generalizing e e' with
  | nil => exact h
  | cons a log ih => exact ih (h.after_foldStep r a)

/-- A fold decides on the model of its last applied action from the document alone. -/
theorem SameDoc.model_after_foldl {e e' : Entry} (h : SameDoc e e') (hm : e.model = e'.model)
    (r : ModelRegistry) (log : List Action) :
    (log.foldl (foldStep r) e).model = (log.foldl (foldStep r) e').model := by
  induction log generalizing e e' with
  | nil => exact hm
  | cons a log ih =>
    refine ih (h.after_foldStep r a) ?_
    unfold foldStep
    cases r.find a.model with
    | none => exact hm
    | some m =>
      dsimp only
      unfold refoldStep
      rw [h.doc]
      split
      · rfl
      · exact hm

end PhReactor
