/-
  What an interpreted model writes, field by field.

  `L1.reduce` runs over the `writes` of a reducer and produces one op per entry; the fold then
  merges each op into its field.  For a definition whose writes are all well formed (`L1.Sound`)
  the whole chain comes down to one equation (`fields_l1`): a field the reducer does not list is
  left alone, and a field it lists is `mergeField` of its old content with the written value.

  An interpreted model never deletes a document (`deleted_l1`).

  Which KEYS an action writes does not depend on the state, whatever its model (`Model.writesKey`);
  what it does not write it leaves alone (`fields_of_not_writesKey`).
-/
import PhReactor.Store.Fold

namespace PhReactor

/-- The `writes` of a reducer, by field. -/
def L1.writes (m : L1) (kind : String) : List (String × Value) :=
  (((m.reducer kind).bind (Value.get? · "writes")).bind Value.asObject?).getD []

/-- The `writes` of a reducer's definition. -/
def writesOf (r : Value) : List (String × Value) := ((r.get? "writes").bind Value.asObject?).getD []

theorem L1.writes_of_reducer {m : L1} {kind : String} {r : Value} (h : m.reducer kind = some r) :
    m.writes kind = writesOf r := by
  unfold writes writesOf
  rw [h]
  rfl

/-- Is a write exactly one of `set`, `append`, `remove`. -/
def writeOk (w : Value) : Bool :=
  match w.asObject?.bind List.head? with
  | some (key, _) => key == "set" || key == "append" || key == "remove"
  | none => false

/-- The model knows the kind, and all its writes are well formed. -/
def L1.Sound (m : L1) (kind : String) : Prop :=
  (m.reducer kind).isSome ∧ ∀ p ∈ m.writes kind, writeOk p.2 = true

/-! ## Facts that are evaluated on a definition -/

section

variable {m : L1} {reducers : List (String × Value)} (hm : m.reducers = .object reducers)

include hm

/-- What holds of every write of a definition's reducers holds of the writes of every kind. -/
theorem L1.writes_forall {P : String → String × Value → Prop}
    (h : ∀ p ∈ reducers, ∀ w ∈ writesOf p.2, P p.1 w) (kind : String) :
    ∀ w ∈ m.writes kind, P kind w := by
  cases hr : m.reducer kind with
  | none => rw [L1.writes, hr]; exact fun w hw => absurd hw List.not_mem_nil
  | some r =>
    have hlookup : reducers.lookup kind = some r := by
      rw [L1.reducer, hm] at hr
      exact hr
    obtain ⟨l₁, l₂, rfl, -⟩ := List.lookup_eq_some_iff.mp hlookup
    rw [L1.writes_of_reducer hr]
    exact h (kind, r) (List.mem_append_right l₁ List.mem_cons_self)

theorem L1.sound_of_reducers (h : ∀ p ∈ reducers, ∀ w ∈ writesOf p.2, writeOk w.2 = true)
    {kind : String} (hk : (m.reducer kind).isSome) : m.Sound kind :=
  ⟨hk, L1.writes_forall hm (P := fun _ w => writeOk w.2 = true) h kind⟩

end

/-! ## The value of a write -/

/-- The value a well-formed write produces. -/
def written (state : Doc) (action : Action) (field : String) (w : Value) : Value :=
  (writeValue state action field w).toOption.getD .null

theorem written_append (state : Doc) (action : Action) (field tmpl : String) :
    written state action field (Def.append tmpl) =
      .array (currentArray state field ++ [evalTemplate action (.string tmpl)]) := rfl

theorem writeValue_of_ok {w : Value} (h : writeOk w = true) (state : Doc) (action : Action)
    (field : String) : writeValue state action field w = .ok (written state action field w) := by
  suffices hok : ∃ v, writeValue state action field w = .ok v by
    obtain ⟨v, hv⟩ := hok
    unfold written
    rw [hv]
    rfl
  unfold writeOk at h
  unfold writeValue
  cases hw : w.asObject?.bind List.head? with
  | none => rw [hw] at h; cases h
  | some p =>
    obtain ⟨key, tmpl⟩ := p
    rw [hw] at h
    simp only [Bool.or_eq_true, beq_iff_eq] at h
    rcases h with (rfl | rfl) | rfl
    · exact ⟨_, rfl⟩
    · exact ⟨_, rfl⟩
    · exact ⟨_, rfl⟩

theorem mapM_writeValue {state : Doc} {action : Action} : ∀ {writes : List (String × Value)},
    (∀ p ∈ writes, writeOk p.2 = true) →
    writes.mapM (fun (field, w) =>
      (writeValue state action field w).map (L1.writeOp action field)) =
    .ok (writes.map fun p => L1.writeOp action p.1 (written state action p.1 p.2))
  | [], _ => rfl
  | (field, w) :: writes, h => by
    rw [List.mapM_cons, mapM_writeValue fun p hp => h p (List.mem_cons_of_mem _ hp)]
    dsimp only
    rw [writeValue_of_ok (h (field, w) List.mem_cons_self)]
    rfl

/-- **A sound reduction**: one op per write. -/
theorem L1.reduce_eq {m : L1} {action : Action} (h : m.Sound action.kind) (state : Doc) :
    m.reduce state action = .ok ((m.writes action.kind).map fun p =>
      L1.writeOp action p.1 (written state action p.1 p.2)) := by
  obtain ⟨hsome, hok⟩ := h
  obtain ⟨r, hr⟩ := Option.isSome_iff_exists.mp hsome
  unfold L1.writes at hok ⊢
  unfold L1.reduce
  rw [hr] at hok ⊢
  dsimp only [Option.bind_some] at hok ⊢
  cases hw : (r.get? "writes").bind Value.asObject? with
  | none => rfl
  | some writes =>
    rw [hw] at hok
    exact mapM_writeValue hok

theorem find?_map_writeOp (state : Doc) (action : Action) (k : String) :
    ∀ writes : List (String × Value),
      (writes.map fun p => L1.writeOp action p.1 (written state action p.1 p.2)).find?
        (fun op => op.key == some k) =
      (writes.lookup k).map fun w => L1.writeOp action k (written state action k w) := by
  intro writes
  induction writes with
  | nil => rfl
  | cons p writes ih =>
    obtain ⟨f, w⟩ := p
    rw [List.map_cons, List.find?_cons, List.lookup_cons]
    by_cases hf : k = f
    · subst hf
      simp [L1.writeOp]
    · have hk : ((L1.writeOp action f (written state action f w)).key == some k) = false := by
        refine beq_false_of_ne fun h => hf ?_
        exact (Option.some.inj h).symm
      rw [hk, beq_false_of_ne hf]
      exact ih

/-- An interpreted model never deletes a document. -/
theorem deleted_l1 (e : Entry) (m : L1) (a : Action) :
    (applyOpsToEntry e (.l1 m) a).1.deleted = e.deleted := by
  cases h : m.reduce e.doc a with
  | error r =>
    have h' : (Model.l1 m).reduce e.doc a = .error r := h
    rw [applyOpsToEntry_error h']
  | ok ops =>
    have h' : (Model.l1 m).reduce e.doc a = .ok ops := h
    rw [deleted_applyOpsToEntry_ok h']
    have hany : (ops.any fun op => op.key.isNone) = false := by
      rw [List.any_eq_false]
      intro op hop
      obtain ⟨field, v, rfl⟩ := L1.mem_reduce h op hop
      exact Bool.false_ne_true
    rw [hany, Bool.or_false]

/-- **The effect of an interpreted action on a field.** -/
theorem fields_l1 {e : Entry} {m : L1} {a : Action} (hs : m.Sound a.kind)
    (hd : e.deleted = false) {k : String} (hk : k ≠ nameKey) :
    (applyOpsToEntry e (.l1 m) a).1.doc.fields[k]? =
      match (m.writes a.kind).lookup k with
      | none => e.doc.fields[k]?
      | some w => mergeField e.doc.fields[k]? (L1.writeOp a k (written e.doc a k w)) := by
  have hred : (Model.l1 m).reduce e.doc a = _ := L1.reduce_eq hs e.doc
  rw [fields_applyOpsToEntry hred hd ?_ hk, find?_map_writeOp]
  · cases (m.writes a.kind).lookup k <;> rfl
  · intro op hop
    obtain ⟨p, -, rfl⟩ := List.mem_map.mp hop
    exact fun h => by cases h

/-- A reducer that lists a field exists. -/
theorem L1.reducer_isSome_of_lookup {m : L1} {kind k : String} {w : Value}
    (h : (m.writes kind).lookup k = some w) : (m.reducer kind).isSome := by
  cases hr : m.reducer kind with
  | some r => rfl
  | none =>
    rw [L1.writes, hr] at h
    cases h

/-- An action of a kind the model does not know leaves the entry alone. -/
theorem applyOpsToEntry_of_unknown {m : L1} {a : Action} (h : m.reducer a.kind = none) (e : Entry) :
    (applyOpsToEntry e (.l1 m) a).1 = e := by
  have hred : (Model.l1 m).reduce e.doc a = .error (.unknownKind a.kind) := by
    show m.reduce e.doc a = _
    unfold L1.reduce
    rw [h]
  rw [applyOpsToEntry_error hred]

/-! ## The keys an action writes -/

/-- Does the action reduce to an op whose key satisfies `p`.  The state does not matter
    (`writesKey_eq`), so the blank document will do. -/
def Model.writesKey (p : Option String → Bool) (m : Model) (a : Action) : Bool :=
  match m.reduce ⟨a.docId, "", ∅⟩ a with
  | .ok ops => ops.any fun op => p op.key
  | .error _ => false

section

variable {p : Option String → Bool} {m : Model} {a : Action}

theorem Model.writesKey_eq {d : Doc} {ops : List Op} (h : m.reduce d a = .ok ops) :
    (ops.any fun op => p op.key) = m.writesKey p a := by
  unfold Model.writesKey
  rcases m.reduce_shape d ⟨a.docId, "", ∅⟩ a with ⟨r, hr, -⟩ | ⟨ops₁, ops₂, h₁, h₂, hshape⟩
  · rw [h] at hr; cases hr
  · obtain rfl : ops = ops₁ := by rw [h] at h₁; injection h₁
    rw [h₂]
    exact (any_key_shape hshape p).symm

/-- A deleted document is not written to, whatever its fields. -/
theorem fields_applyOpsToEntry_of_deleted {e : Entry} (hd : e.deleted = true) (m : Model)
    (a : Action) {k : String} (hk : k ≠ nameKey) :
    (applyOpsToEntry e m a).1.doc.fields[k]? = e.doc.fields[k]? := by
  cases h : m.reduce e.doc a with
  | error r => rw [applyOpsToEntry_error h]
  | ok ops =>
    rw [applyOpsToEntry_ok h]
    show (liftName (runOps e.cell (ops.map (stampOp a))).doc).fields[k]? = _
    rw [fields_liftName _ hk, doc_runOps_of_deleted hd]
    rfl

theorem key_of_not_writesKey (hw : m.writesKey p a = false) {d : Doc} {ops : List Op}
    (h : m.reduce d a = .ok ops) : ∀ op ∈ ops, p op.key = false := by
  intro op hop
  have hany := Model.writesKey_eq (p := p) h
  rw [hw, List.any_eq_false] at hany
  exact Bool.eq_false_iff.mpr (hany op hop)

/-- An action without a whole-document delete leaves the deleted flag alone, -/
theorem deleted_of_not_writesKey (hp : p none = true) (hw : m.writesKey p a = false) (e : Entry) :
    (applyOpsToEntry e m a).1.deleted = e.deleted := by
  cases h : m.reduce e.doc a with
  | error r => rw [applyOpsToEntry_error h]
  | ok ops =>
    rw [deleted_applyOpsToEntry_ok h, List.any_eq_false.mpr, Bool.or_false]
    intro op hop hnone
    have hkey := key_of_not_writesKey hw h op hop
    rw [Option.isNone_iff_eq_none.mp hnone, hp] at hkey
    cases hkey

/-- and **what it does not write** as well. -/
theorem fields_of_not_writesKey (hp : p none = true) (hw : m.writesKey p a = false) (e : Entry)
    {k : String} (hk : p (some k) = true) (hn : k ≠ nameKey) :
    (applyOpsToEntry e m a).1.doc.fields[k]? = e.doc.fields[k]? := by
  cases h : m.reduce e.doc a with
  | error r => rw [applyOpsToEntry_error h]
  | ok ops =>
    have hkeys := key_of_not_writesKey hw h
    cases hd : e.deleted with
    | true => exact fields_applyOpsToEntry_of_deleted hd m a hn
    | false =>
      have hsome : ∀ op ∈ ops, op.key ≠ none := by
        intro op hop hnone
        have hkey := hkeys op hop
        rw [hnone, hp] at hkey
        cases hkey
      have hfind : (ops.find? fun op => op.key == some k) = none := by
        rw [List.find?_eq_none]
        intro op hop heq
        have hfalse := hkeys op hop
        rw [beq_iff_eq.mp heq, hk] at hfalse
        cases hfalse
      rw [fields_applyOpsToEntry h hd hsome hn, hfind]

end

end PhReactor
