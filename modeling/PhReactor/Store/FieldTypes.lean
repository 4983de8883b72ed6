/-
  The types a definition DECLARES for its fields, and the values its reducers write.

  `check_state` says that every live declared field has its declared type.  Nothing calls it: an
  action is judged by the payload schema of its kind only, and its writes take what they write from
  elsewhere as well (the actor, the time, literals, payload fields without a schema).

  1. `writeFits` asks the one question that decides: does this write give a field of this type a
     value of the type, whatever well-typed list the field held before.  `L1.Fits m a` asks it of
     every write of an action to a declared field.

  2. Actions that fit keep a document well typed (`typed_applyOpsToEntry`), hence throughout a life
     of such actions `check_state` is `Ok` (`fields_typed`).  An action that does not fit spoils a
     new document (`spoiled_of_not_fits`).

  3. `L1.checked` reads the four tables of a definition against each other: payload schema, write
     templates, operations, declared types.  The actions a checked definition accepts all fit
     (`fits_of_checked`).  Groups, spaces, chats and drives are checked; packages and releases are
     not, and a package without a description is the counterexample.
-/
import PhReactor.Store.Throughout
import PhReactor.Sample

set_option linter.unusedSectionVars false

namespace PhReactor

/-! ## Types of values -/

/-- A well-typed list stays well typed with an item less, -/
theorem typeMatches_subset {want : String} {l l' : List Value} (hsub : ∀ v ∈ l', v ∈ l)
    (h : typeMatches (.array l) want = true) : typeMatches (.array l') want = true := by
  unfold typeMatches at h ⊢
  split at h
  all_goals first
    | exact h
    | (simp only [Value.asArray?, Option.map_some, Option.getD_some, List.all_eq_true] at h ⊢
       exact fun v hv => h v (hsub v hv))

/-- and with one more that makes a well-typed list by itself. -/
theorem typeMatches_concat {want : String} {l : List Value} {v : Value}
    (h : typeMatches (.array l) want = true) (hv : typeMatches (.array [v]) want = true) :
    typeMatches (.array (l ++ [v])) want = true := by
  unfold typeMatches at h hv ⊢
  split at h
  all_goals first
    | exact h
    | (simp only [Value.asArray?, Option.map_some, Option.getD_some, List.all_eq_true] at h hv ⊢
       intro x hx
       rcases List.mem_append.mp hx with hx | hx
       · exact h x hx
       · exact hv x hx)

/-- The list of a field is empty, or the value of the live field. -/
theorem currentArray_cases (d : Doc) (field : String) :
    currentArray d field = [] ∨ ∃ f, d.fields[field]? = some f ∧ f.deleted = false ∧
      f.value = .array (currentArray d field) := by
  unfold currentArray currentValue
  cases d.fields[field]? with
  | none => exact Or.inl rfl
  | some f =>
    dsimp only
    cases hdel : f.deleted with
    | true => exact Or.inl rfl
    | false =>
      cases hv : f.value with
      | array l => exact Or.inr ⟨f, rfl, hdel, hv⟩
      | _ => exact Or.inl rfl

/-! ## Well-typed documents -/

/-- The fields a definition declares, with their types. -/
def L1.declared (m : L1) : List (String × Value) := m.fields.asObject?.getD []

/-- The type string of a declaration. -/
def wantOf (t : Value) : String := t.asStr?.getD ""

/-- A field, absent or a tombstone or of the type. -/
def FieldTyped (want : String) (f : Option Field) : Prop :=
  ∀ g, f = some g → g.deleted = false → typeMatches g.value want = true

/-- Every declared field has its type. -/
def L1.Typed (m : L1) (d : Doc) : Prop :=
  ∀ p ∈ m.declared, FieldTyped (wantOf p.2) d.fields[p.1]?

section

variable [Primitives]

theorem forM_eq_ok_iff {α ε : Type} {f : α → Except ε Unit} {l : List α} :
    l.forM f = .ok () ↔ ∀ x ∈ l, f x = .ok () := by
  refine ⟨forM_eq_ok, fun h => ?_⟩
  induction l with
  | nil => rfl
  | cons x l ih =>
    rw [show (x :: l).forM f = (f x >>= fun _ => l.forM f) from rfl, h x List.mem_cons_self]
    exact ih fun y hy => h y (List.mem_cons_of_mem x hy)

/-- `check_state` says just that. -/
theorem checkState_eq_ok_iff {m : L1} {d : Doc} : m.checkState d = .ok () ↔ m.Typed d := by
  unfold L1.checkState L1.Typed L1.declared FieldTyped
  cases m.fields.asObject? with
  | none => exact ⟨fun _ p hp => absurd hp List.not_mem_nil, fun _ => rfl⟩
  | some obj =>
    dsimp only
    rw [forM_eq_ok_iff]
    refine forall₂_congr fun p _ => ?_
    unfold wantOf
    cases d.fields[p.1]? with
    | none => exact ⟨fun _ g hg => (by cases hg), fun _ => rfl⟩
    | some f =>
      cases hdel : f.deleted <;> cases ht : typeMatches f.value (p.2.asStr?.getD "") <;>
        simp [hdel, ht]

end

/-! ## Writes that fit -/

/-- Does a write of `a` give a field of the type a value of the type, whatever well-typed list the
    field held before. -/
def writeFits (a : Action) (w : Value) (want : String) : Bool :=
  match w.asObject?.bind List.head? with
  | none => true
  | some (key, tmpl) =>
    if key = "set" then typeMatches (evalTemplate a tmpl) want
    else if key = "append" then typeMatches (.array [evalTemplate a tmpl]) want
    else typeMatches (.array []) want

/-- Every write of the action to a declared field fits.  An action of an unknown kind, or with a
    malformed write, writes nothing; and the name is never checked. -/
def L1.Fits (m : L1) (a : Action) : Prop :=
  m.Sound a.kind → ∀ p ∈ m.declared, p.1 ≠ nameKey → ∀ w,
    (m.writes a.kind).lookup p.1 = some w → writeFits a w (wantOf p.2) = true

/-- On a field without a list, the value of a write has the type exactly if the write fits. -/
theorem typeMatches_written_nil {a : Action} {d : Doc} {field want : String} {w : Value}
    (hok : writeOk w = true) (hnil : currentArray d field = []) :
    typeMatches (written d a field w) want = writeFits a w want := by
  have hwritten := writeValue_of_ok hok d a field
  unfold writeOk at hok
  unfold writeFits
  unfold writeValue at hwritten
  rw [hnil] at hwritten
  cases hw : w.asObject?.bind List.head? with
  | none => rw [hw] at hok; cases hok
  | some p =>
    obtain ⟨key, tmpl⟩ := p
    rw [hw] at hok hwritten
    dsimp only at hok hwritten ⊢
    simp only [Bool.or_eq_true, beq_iff_eq] at hok
    rcases hok with (rfl | rfl) | rfl
    all_goals
      rw [← (Except.ok.inj hwritten : _ = written d a field w)]
      rfl

/-- A write that fits, on a well-typed field. -/
theorem typeMatches_written {a : Action} {d : Doc} {field want : String} {w : Value}
    (hok : writeOk w = true) (hfits : writeFits a w want = true)
    (htyped : FieldTyped want d.fields[field]?) :
    typeMatches (written d a field w) want = true := by
  rcases currentArray_cases d field with hnil | ⟨f, hf, hdel, hv⟩
  · rw [typeMatches_written_nil hok hnil]
    exact hfits
  · have hlist : typeMatches (.array (currentArray d field)) want = true := hv ▸ htyped f hf hdel
    have hwritten := writeValue_of_ok hok d a field
    unfold writeOk at hok
    unfold writeFits at hfits
    unfold writeValue at hwritten
    cases hw : w.asObject?.bind List.head? with
    | none => rw [hw] at hok; cases hok
    | some p =>
      obtain ⟨key, tmpl⟩ := p
      rw [hw] at hok hfits hwritten
      dsimp only at hok hfits hwritten
      simp only [Bool.or_eq_true, beq_iff_eq] at hok
      rcases hok with (rfl | rfl) | rfl
      all_goals rw [← (Except.ok.inj hwritten : _ = written d a field w)]
      · exact hfits
      · exact typeMatches_concat hlist hfits
      · exact typeMatches_subset (fun v h => (List.mem_filter.mp h).1) hlist

/-- A merge keeps the field or takes the op. -/
theorem mergeField_cases (cur : Option Field) (op : Op) :
    mergeField cur op = cur ∨ mergeField cur op = some (fieldFromOp op) := by
  unfold mergeField
  cases cur with
  | none => cases op.value.isNone <;> simp
  | some f =>
    dsimp only
    split
    · exact Or.inl rfl
    · split
      · exact Or.inr rfl
      · exact Or.inl rfl

section

variable [Primitives]

/-- A reduction that succeeds is of a known kind with well-formed writes. -/
theorem L1.sound_of_reduce {m : L1} {state : Doc} {a : Action} {ops : List Op}
    (h : m.reduce state a = .ok ops) : m.Sound a.kind := by
  have key : ∀ (writes : List (String × Value)) (ops : List Op),
      writes.mapM (fun p : String × Value =>
        (writeValue state a p.1 p.2).map (writeOp a p.1)) = .ok ops →
      ∀ p ∈ writes, PhReactor.writeOk p.2 = true := by
    intro writes
    induction writes with
    | nil => exact fun ops _ p hp => absurd hp List.not_mem_nil
    | cons q writes ih =>
      obtain ⟨field, w⟩ := q
      intro ops h p hp
      rw [List.mapM_cons] at h
      obtain ⟨op, hop, h⟩ := bind_eq_ok.mp h
      obtain ⟨rest, hrest, -⟩ := bind_eq_ok.mp h
      rcases List.mem_cons.mp hp with rfl | hp
      · -- a malformed write is an error
        unfold PhReactor.writeOk
        dsimp only at hop ⊢
        unfold writeValue at hop
        cases hw : w.asObject?.bind List.head? with
        | none => rw [hw] at hop; cases hop
        | some kt =>
          obtain ⟨key, tmpl⟩ := kt
          rw [hw] at hop
          dsimp only at hop ⊢
          by_cases h1 : key = "set"
          · simp [h1]
          · by_cases h2 : key = "append"
            · simp [h2]
            · by_cases h3 : key = "remove"
              · simp [h3]
              · rw [if_neg h1, if_neg h2, if_neg h3] at hop
                cases hop
      · exact ih rest hrest p hp
  unfold L1.Sound L1.writes
  unfold L1.reduce at h
  cases hr : m.reducer a.kind with
  | none => rw [hr] at h; cases h
  | some r =>
    rw [hr] at h
    refine ⟨rfl, ?_⟩
    dsimp only [Option.bind_some] at h ⊢
    cases hw : (r.get? "writes").bind Value.asObject? with
    | none => exact fun p hp => absurd hp List.not_mem_nil
    | some writes =>
      rw [hw] at h
      exact key writes ops h

/-- **Step lemma.**  An action that fits keeps a live document well typed. -/
theorem typed_applyOpsToEntry {m : L1} {a : Action} {e : Entry} (hfits : m.Fits a)
    (hdel : e.deleted = false) (hl : Lifted e.doc) (h : m.Typed e.doc) :
    m.Typed (applyOpsToEntry e (.l1 m) a).1.doc := by
  cases hred : m.reduce e.doc a with
  | error r =>
    have hred' : (Model.l1 m).reduce e.doc a = .error r := hred
    rw [applyOpsToEntry_error hred']
    exact h
  | ok ops =>
    have hs := L1.sound_of_reduce hred
    intro p hp
    by_cases hn : p.1 = nameKey
    · -- the name has been lifted
      rw [hn, show (applyOpsToEntry e (.l1 m) a).1.doc.fields[nameKey]? = none from
        lifted_applyOpsToEntry hl (.l1 m) a]
      exact fun g hg => by cases hg
    · rw [fields_l1 hs hdel hn]
      cases hlook : (m.writes a.kind).lookup p.1 with
      | none => exact h p hp
      | some w =>
        dsimp only
        rcases mergeField_cases e.doc.fields[p.1]?
          (L1.writeOp a p.1 (written e.doc a p.1 w)) with heq | heq
        · rw [heq]
          exact h p hp
        · rw [heq]
          intro g hg hlive
          rw [← Option.some.inj hg]
          obtain ⟨l₁, l₂, hmem, -⟩ := List.lookup_eq_some_iff.mp hlook
          have hok := hs.2 (p.1, w) (by
            rw [hmem]; exact List.mem_append_right l₁ List.mem_cons_self)
          exact typeMatches_written hok (hfits hs p hp hn w hlook) (h p hp)

/-- **The condition leaves out nothing else**: an action that does not fit spoils a new document. -/
theorem spoiled_of_not_fits {m : L1} {a : Action} (h : ¬ m.Fits a) (d : DocId) :
    m.checkState (applyOpsToEntry (Entry.new d) (.l1 m) a).1.doc ≠ .ok () := by
  unfold L1.Fits at h
  push Not at h
  obtain ⟨hs, p, hp, hn, w, hlook, hfits⟩ := h
  have hnone : ∀ k : String, (Entry.new d).doc.fields[k]? = none := fun k => by simp [Entry.new]
  obtain ⟨l₁, l₂, hmem, -⟩ := List.lookup_eq_some_iff.mp hlook
  have hok := hs.2 (p.1, w) (by rw [hmem]; exact List.mem_append_right l₁ List.mem_cons_self)
  rw [Ne, checkState_eq_ok_iff]
  intro htyped
  refine hfits ?_
  have hfield := fields_l1 (e := Entry.new d) hs rfl hn
  rw [hlook, hnone] at hfield
  have htype := htyped p hp _ hfield rfl
  have hnil : currentArray (Entry.new d).doc p.1 = [] := by
    unfold currentArray currentValue
    rw [hnone]
    rfl
  rw [← typeMatches_written_nil hok hnil]
  exact htype

/-! ## Throughout a life -/

theorem typed_new (m : L1) (d : DocId) : m.Typed (Entry.new d).doc :=
  fun p _ g hg => by
    rw [show (Entry.new d).doc.fields[p.1]? = none from by simp [Entry.new]] at hg
    cases hg

theorem typed_liftName {m : L1} {doc : Doc} (h : m.Typed doc) (d : DocId) :
    m.Typed (liftName { doc with id := d }) := by
  intro p hp
  by_cases hn : p.1 = nameKey
  · rw [hn, show (liftName { doc with id := d }).fields[nameKey]? = none from lifted_liftName _]
    exact fun g hg => (by cases hg)
  · rw [fields_liftName _ hn]
    exact h p hp

/-- All actions of `d` are actions of `m`, and those accepted now fit. -/
def FittingModel (m : L1) (d : DocId) (s : Inner) (acc : List Action) (h : Happening) : Prop :=
  OneModel m d s acc h ∧ ∀ io a, h = .event (.applyAction io a) → a.docId = d →
    s.accepts a = true → m.Fits a

theorem typed_of_fittingModel {m : L1} {d : DocId} {key : SigningKey} {origin : Origin}
    {extra : List Model} {s : Inner} {acc : List Action}
    (hlife : Lifetime (FittingModel m d) (Store.fresh key origin extra) s acc) {e : Entry}
    (he : s.entries[d]? = some e) : m.Typed e.doc := by
  refine (holds_of_oneModel (m := m) (K := m.Fits) (I := fun doc => Lifted doc ∧ m.Typed doc)
    (fun d => ⟨lifted_entryNew d, typed_new m d⟩) ?_ ?_ (fun s acc h hP => hP.1)
    (fun s acc io a hP hd hacc => hP.2 io a rfl hd hacc) hlife he).1.2
  · exact fun d h => ⟨lifted_liftName _, typed_liftName h.2 d⟩
  · exact fun hfits hdel h => ⟨lifted_applyOpsToEntry h.1 _ _,
      typed_applyOpsToEntry hfits hdel h.1 h.2⟩

/-- **Well typed throughout**, when what is accepted fits: `check_state` of the model is `Ok` in
    every state of every lifetime of a document of the model. -/
theorem fields_typed (m : L1) (d : DocId) (key : SigningKey) (origin : Origin)
    (extra : List Model) (s : Inner) (acc : List Action)
    (hlife : Lifetime (FittingModel m d) (Store.fresh key origin extra) s acc) (e : Entry)
    (he : s.entries[d]? = some e) : m.checkState e.doc = .ok () :=
  checkState_eq_ok_iff.mpr (typed_of_fittingModel hlife he)

end

/-! ## Definitions that are checked -/

/-- The type of the items of an array type, if it is one.  A type the interpreter does not know is
    the type of everything. -/
def itemType : String → Option String
  | "string" => none
  | "number" => none
  | "boolean" => none
  | "object" => none
  | "string[]" => some "string"
  | "number[]" => some "number"
  | "boolean[]" => some "boolean"
  | _ => some ""

/-- Does a template always give a value of the type, for payloads of the schema. -/
def templateFits (schema : List (String × Value)) (tmpl : Value) (want : String) : Bool :=
  match tmpl with
  | .string s =>
    if s = "$actor" then typeMatches (.string "") want
    else if s = "$ts" then typeMatches (.number (.posInt 0)) want
    else
      match payloadField? s with
      | some f => typeMatches .null want || ((schema.lookup f).map wantOf) == some want
      | none => typeMatches (.string s) want
  | other => typeMatches other want

/-- Does a write always fit. -/
def writeChecked (schema : List (String × Value)) (w : Value) (want : String) : Bool :=
  match w.asObject?.bind List.head? with
  | none => true
  | some (key, tmpl) =>
    if key = "set" then templateFits schema tmpl want
    else
      match itemType want with
      | none => false
      | some item => if key = "append" then templateFits schema tmpl item else true

/-- Does every write of every reducer to a declared field always fit. -/
def L1.checked (m : L1) : Bool :=
  (m.reducers.asObject?.getD []).all fun (_, r) =>
    m.declared.all fun (field, t) =>
      field == nameKey ||
        match (writesOf r).lookup field with
        | none => true
        | some w =>
          writeChecked (((r.get? "payload").bind Value.asObject?).getD []) w (wantOf t)

/-- Only `null` tells the types that are the type of everything. -/
theorem typeMatches_of_null {want : String} (h : typeMatches .null want = true) (v : Value) :
    typeMatches v want = true := by
  unfold typeMatches at h ⊢
  split at h
  all_goals first
    | rfl
    | cases h

theorem typeMatches_string (s t want : String) :
    typeMatches (.string s) want = typeMatches (.string t) want := by
  unfold typeMatches
  split <;> rfl

theorem typeMatches_number (n k : Number) (want : String) :
    typeMatches (.number n) want = typeMatches (.number k) want := by
  unfold typeMatches
  split <;> rfl

/-- A list type asks its item type of every item. -/
theorem typeMatches_array {want item : String} (h : itemType want = some item) (l : List Value) :
    typeMatches (.array l) want = l.all fun v => typeMatches v item := by
  unfold itemType at h
  split at h
  · cases h
  · cases h
  · cases h
  · cases h
  · obtain rfl := Option.some.inj h; rfl
  · obtain rfl := Option.some.inj h; rfl
  · obtain rfl := Option.some.inj h; rfl
  · obtain rfl := Option.some.inj h
    have hall : (l.all fun v => typeMatches v "") = true := List.all_eq_true.mpr fun v _ => rfl
    rw [hall]
    unfold typeMatches
    split <;> first | rfl | contradiction

theorem evalTemplate_string (a : Action) (s : String) : evalTemplate a (.string s) =
    if s = "$actor" then .string a.origin
    else if s = "$ts" then .number (.posInt a.ts)
    else (payloadField? s).elim (.string s) fun f => (a.payload.get? f).getD .null := by
  unfold evalTemplate
  cases h : payloadField? s <;> simp only [h] <;> rfl

theorem templateFits_string (schema : List (String × Value)) (s want : String) :
    templateFits schema (.string s) want =
      if s = "$actor" then typeMatches (.string "") want
      else if s = "$ts" then typeMatches (.number (.posInt 0)) want
      else (payloadField? s).elim (typeMatches (.string s) want) fun f =>
        typeMatches .null want || ((schema.lookup f).map wantOf) == some want := by
  unfold templateFits
  cases h : payloadField? s <;> simp only [h] <;> rfl

section

variable {schema : List (String × Value)} {a : Action}
  (hpayload : ∀ f t, schema.lookup f = some t →
    ∃ v, a.payload.get? f = some v ∧ typeMatches v (wantOf t) = true)

include hpayload

theorem typeMatches_of_templateFits {tmpl : Value} {want : String}
    (h : templateFits schema tmpl want = true) : typeMatches (evalTemplate a tmpl) want = true := by
  cases tmpl with
  | string s =>
    rw [templateFits_string] at h
    rw [evalTemplate_string]
    by_cases hactor : s = "$actor"
    · rw [if_pos hactor] at h ⊢
      rw [typeMatches_string _ ""]
      exact h
    · rw [if_neg hactor] at h ⊢
      by_cases hts : s = "$ts"
      · rw [if_pos hts] at h ⊢
        rw [typeMatches_number _ (.posInt 0)]
        exact h
      · rw [if_neg hts] at h ⊢
        cases hf : payloadField? s with
        | none =>
          rw [hf] at h
          exact h
        | some f =>
          rw [hf] at h
          rcases Bool.or_eq_true_iff.mp h with h | h
          · exact typeMatches_of_null h _
          · -- the schema asks for this payload field, of this type
            obtain ⟨t, ht, hwant⟩ := Option.map_eq_some_iff.mp (beq_iff_eq.mp h)
            obtain ⟨v, hv, hvt⟩ := hpayload f t ht
            show typeMatches ((a.payload.get? f).getD .null) want = true
            rw [hv, ← hwant]
            exact hvt
  | _ => exact h

theorem writeFits_of_checked {w : Value} {want : String}
    (h : writeChecked schema w want = true) : writeFits a w want = true := by
  unfold writeChecked at h
  unfold writeFits
  cases hw : w.asObject?.bind List.head? with
  | none => rfl
  | some p =>
    obtain ⟨key, tmpl⟩ := p
    rw [hw] at h
    dsimp only at h ⊢
    split at h
    · rw [if_pos ‹_›]
      exact typeMatches_of_templateFits hpayload h
    · rw [if_neg ‹_›]
      split at h
      · cases h
      · rename_i item hitem
        rw [typeMatches_array hitem, typeMatches_array hitem]
        split at h
        · rw [if_pos ‹_›, List.all_cons, typeMatches_of_templateFits hpayload h]
          rfl
        · rw [if_neg ‹_›]
          rfl

end

section

variable [Primitives]

/-- The actions that a checked definition accepts fit. -/
theorem fits_of_checked {m : L1} (hm : m.checked = true) {a : Action}
    (hpay : m.validatePayload a.kind a.payload = .ok ()) : m.Fits a := by
  intro hs p hp hn w hlook
  obtain ⟨r, hr⟩ := Option.isSome_iff_exists.mp hs.1
  rw [L1.writes_of_reducer hr] at hlook
  -- the reducer is one of the definition's
  have hmem : (a.kind, r) ∈ m.reducers.asObject?.getD [] := by
    have hget : m.reducers.get? a.kind = some r := hr
    unfold Value.get? at hget
    cases hred : m.reducers with
    | object o =>
      rw [hred] at hget
      obtain ⟨l₁, l₂, hsplit, -⟩ := List.lookup_eq_some_iff.mp hget
      show (a.kind, r) ∈ o
      rw [hsplit]
      exact List.mem_append_right l₁ List.mem_cons_self
    | _ => rw [hred] at hget; cases hget
  have hall := List.all_eq_true.mp (List.all_eq_true.mp hm _ hmem) p hp
  rw [Bool.or_eq_true_iff, hlook] at hall
  rcases hall with hname | hchecked
  · exact absurd (beq_iff_eq.mp hname) hn
  · refine writeFits_of_checked (fun f t hlookup => ?_) hchecked
    -- the payload schema has been checked
    unfold L1.validatePayload at hpay
    rw [hr] at hpay
    dsimp only at hpay
    cases hschema : (r.get? "payload").bind Value.asObject? with
    | none => rw [hschema] at hlookup; cases hlookup
    | some schema =>
      rw [hschema] at hpay hlookup
      obtain ⟨l₁, l₂, hsplit, -⟩ := List.lookup_eq_some_iff.mp hlookup
      have hone := forM_eq_ok hpay (f, t) (by
        rw [show schema = l₁ ++ (f, t) :: l₂ from hsplit]
        exact List.mem_append_right l₁ List.mem_cons_self)
      dsimp only at hone
      cases hgot : a.payload.get? f with
      | none => rw [hgot] at hone; cases hone
      | some v =>
        rw [hgot] at hone
        dsimp only at hone
        refine ⟨v, rfl, ?_⟩
        by_cases ht : typeMatches v (wantOf t) = true
        · exact ht
        · rw [if_neg (show ¬ typeMatches v (t.asStr?.getD "") = true from ht)] at hone
          cases hone

/-- **A checked definition keeps its word**, whatever is accepted. -/
theorem typed_of_checked {m : L1} (hm : m.checked = true) {d : DocId} {key : SigningKey}
    {origin : Origin} {extra : List Model} {s : Inner} {acc : List Action}
    (hlife : Lifetime (OneModel m d) (Store.fresh key origin extra) s acc) {e : Entry}
    (he : s.entries[d]? = some e) : m.checkState e.doc = .ok () := by
  refine fields_typed m d key origin extra s acc ?_ e he
  clear he
  induction hlife with
  | start => exact .start
  | step hl h hen hone ih =>
    refine ih.step h hen ⟨hone, ?_⟩
    rintro io a rfl hd hacc
    obtain ⟨m', hacc'⟩ := Inner.accepts_iff.mp hacc
    obtain rfl := Option.some.inj (hacc'.model.symm.trans (hone.1 io a rfl hd hacc))
    exact fits_of_checked hm hacc'.payload

/-- Groups, spaces, chats and drives are well typed throughout; the definitions of packages and
    releases write payload fields that their schemas do not ask for. -/
theorem builtins_checked :
    (∀ m ∈ [group, space, chat, drive], m.checked = true) ∧
      ∀ m ∈ [package, release], m.checked = false := by
  constructor
  · intro m hm
    simp only [List.mem_cons, List.not_mem_nil, or_false] at hm
    rcases hm with rfl | rfl | rfl | rfl <;> rfl
  · intro m hm
    simp only [List.mem_cons, List.not_mem_nil, or_false] at hm
    rcases hm with rfl | rfl <;> rfl

end

/-! ## A package without a description -/

section

open Sample

attribute [local instance] Sample.primitives

/-- Alice offers a package, and says nothing about it. -/
def bareInit : Action :=
  act alice "package" "init" (.object [("manifest", .string "{}"), ("name", .string "pkg"),
    ("package_name", .string "pkg"), ("package_version", .string "1.0.0"),
    ("publisher_key", .string "k")]) 10 [("alice", 1)] none

/-- The package is accepted, and its `description` is `null`. -/
theorem package_untyped :
    ∃ s acc, Lifetime (OneModel package docId) (Store.fresh alice.key alice.name []) s acc ∧
      ∃ e, s.entries[docId]? = some e ∧
        package.checkState e.doc = .error (.badState "field 'description' must be string") := by
  have hfacts : ((Store.fresh alice.key alice.name []).exec
      (.applyAction Io.ok bareInit)).entries[docId]?.map (fun e => package.checkState e.doc) =
        some (.error (.badState "field 'description' must be string")) := by
    decide +kernel
  have hpackage : ModelRegistry.seededWithBuiltins.find (ModelRef.new "package" "1") =
      some (.l1 package) := seededWithBuiltins_find ("package", package) (by simp)
  obtain ⟨e, he, hcheck⟩ := Option.map_eq_some_iff.mp hfacts
  refine ⟨_, _, Lifetime.start.step (.event (.applyAction Io.ok bareInit)) trivial
    (OneModel.apply ?_ fun b hb => absurd hb (not_logged_fresh _ _ _ _ b)), e, he, hcheck⟩
  unfold Under
  rw [Store.fresh_models]
  exact hpackage

/-- With a description and a publisher's name all is well. -/
def describedInit : Action :=
  act alice "package" "init" (.object [("description", .string "a plugin"),
    ("manifest", .string "\x7b\x7d"), ("name", .string "pkg"), ("package_name", .string "pkg"),
    ("package_version", .string "1.0.0"), ("publisher_key", .string "k"),
    ("publisher_name", .string "alice")]) 10 [("alice", 1)] none

theorem fields_typed_package :
    ∃ e, ((Store.fresh alice.key alice.name []).exec
        (.applyAction Io.ok describedInit)).entries[docId]? = some e ∧
      currentValue e.doc "description" = .string "a plugin" ∧
        package.checkState e.doc = .ok () := by
  have hfacts : ((Store.fresh alice.key alice.name []).exec
      (.applyAction Io.ok describedInit)).entries[docId]?.map
        (fun e => currentValue e.doc "description") = some (.string "a plugin") ∧
      (package.declared.all fun p => ((package.writes "init").lookup p.1).all fun w =>
        writeFits describedInit w (wantOf p.2)) = true := by
    decide +kernel
  obtain ⟨hentry, hall⟩ := hfacts
  have hpackage : ModelRegistry.seededWithBuiltins.find (ModelRef.new "package" "1") =
      some (.l1 package) := seededWithBuiltins_find ("package", package) (by simp)
  have hfits : package.Fits describedInit := by
    intro _ p hp _ w hlook
    have hone := List.all_eq_true.mp hall p hp
    rw [show (package.writes "init").lookup p.1 = some w from hlook] at hone
    exact hone
  obtain ⟨e, he, hdescription⟩ := Option.map_eq_some_iff.mp hentry
  refine ⟨e, he, hdescription, fields_typed package docId alice.key alice.name [] _ _
    (Lifetime.start.step (.event (.applyAction Io.ok describedInit)) trivial
      ⟨OneModel.apply ?_ fun b hb => absurd hb (not_logged_fresh _ _ _ _ b), ?_⟩) e he⟩
  · unfold Under
    rw [Store.fresh_models]
    exact hpackage
  · rintro io a heq - -
    injection heq with heq
    injection heq with _ heq
    rw [← heq]
    exact hfits

end

end PhReactor
