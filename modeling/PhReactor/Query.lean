/-
  A query over the live documents of a store (`src/query.rs`), and the space of a document
  (`Store::space_of`).

  A query is a projection without state of its own: it reads every document, keeps those of a model
  that have a field with a value, and sorts what is left by name.  The sort is stable and by the
  JSON text of the name.
-/
import PhReactor.Store.Api

set_option linter.unusedSectionVars false

namespace PhReactor

/-- A field-equality predicate. -/
structure FieldFilter where
  field : String
  value : Value

/-- One object of a query's answer. -/
structure DocRow where
  id : DocId
  name : String
  model : String
  fields : Std.ExtTreeMap String Value

section

variable [Primitives]

namespace Store

/-- The space a document belongs to, if any. -/
def spaceOf (s : Inner) (id : DocId) : Option DocId := s.entries[id]?.bind Entry.space

end Store

/-- Has the document the field, with that value. -/
def FieldFilter.passes (doc : Doc) : Option FieldFilter → Bool
  | none => true
  | some f =>
    match doc.fields[f.field]? with
    | some field => field.value == f.value
    | none => false

/-- The row of a document, if the query selects it. -/
def rowOf (s : Inner) (model : String) (filter : Option FieldFilter) (id : DocId) :
    Option DocRow :=
  match Store.fullState s id with
  | none => none
  | some state =>
    if state.deleted then none
    else if model != "" && state.model.name != model then none
    else if FieldFilter.passes state.doc filter then
      some ⟨state.doc.id, state.doc.name, state.model.name, state.doc.fields.map fun _ f => f.value⟩
    else none

/-- Query the store's live documents; an empty `model` selects every model. -/
def queryDocs (s : Inner) (model : String) (filter : Option FieldFilter) : List DocRow :=
  Lib.canonSort (fun r => Primitives.jsonText (.string r.name))
    (s.entries.keys.filterMap (rowOf s model filter))

/-- The fields of the live view are those without a tombstone. -/
theorem fields_live (d : Doc) (k : String) :
    d.live.fields[k]? = (d.fields[k]?).filter fun f => !f.deleted := by
  unfold Doc.live
  exact Std.ExtTreeMap.getElem?_filter'

/-- A row is the row of a live document of the model that passes the filter. -/
theorem rowOf_eq_some {s : Inner} {model : String} {filter : Option FieldFilter} {id : DocId}
    {r : DocRow} : rowOf s model filter id = some r ↔ ∃ e : Entry,
      s.entries[id]? = some e ∧ e.deleted = false ∧
      (model = "" ∨ e.model.name = model) ∧ FieldFilter.passes e.doc filter = true ∧
      r = ⟨e.doc.id, e.doc.name, e.model.name, e.doc.fields.map fun _ f => f.value⟩ := by
  have hrow : ∀ e : Entry, s.entries[id]? = some e → rowOf s model filter id =
      if e.deleted then none
      else if model != "" && e.model.name != model then none
      else if FieldFilter.passes e.doc filter then
        some ⟨e.doc.id, e.doc.name, e.model.name, e.doc.fields.map fun _ f => f.value⟩
      else none := by
    intro e he
    unfold rowOf Store.fullState
    rw [he]
    rfl
  have hmodel_iff : ∀ e : Entry, ¬ (model != "" && e.model.name != model) = true ↔
      (model = "" ∨ e.model.name = model) := by
    intro e
    rw [Bool.and_eq_true, bne_iff_ne, bne_iff_ne, not_and_or, not_not, not_not]
  constructor
  · intro hr
    cases he : s.entries[id]? with
    | none =>
      unfold rowOf Store.fullState at hr
      rw [he] at hr
      cases hr
    | some e =>
      rw [hrow e he] at hr
      split at hr
      · cases hr
      · next hlive =>
        split at hr
        · cases hr
        · next hmodel =>
          split at hr
          · next hpass =>
            exact ⟨e, rfl, Bool.eq_false_iff.mpr hlive, (hmodel_iff e).mp hmodel, hpass,
              (Option.some.inj hr).symm⟩
          · cases hr
  · rintro ⟨e, he, hlive, hmodel, hpass, rfl⟩
    rw [hrow e he, hlive, if_neg Bool.false_ne_true, if_neg ((hmodel_iff e).mpr hmodel),
      if_pos hpass]

/-- **What a query answers**: a row for every document that it selects. -/
theorem mem_queryDocs {s : Inner} {model : String} {filter : Option FieldFilter} {r : DocRow} :
    r ∈ queryDocs s model filter ↔ ∃ id, rowOf s model filter id = some r := by
  unfold queryDocs
  rw [Lib.mem_canonSort, List.mem_filterMap]
  constructor
  · rintro ⟨id, -, hr⟩
    exact ⟨id, hr⟩
  · rintro ⟨id, hr⟩
    obtain ⟨e, he, -⟩ := rowOf_eq_some.mp hr
    refine ⟨id, Std.ExtTreeMap.mem_keys.mpr (Std.ExtTreeMap.isSome_getElem?_iff_mem.mp ?_), hr⟩
    rw [he]
    rfl

end

end PhReactor
