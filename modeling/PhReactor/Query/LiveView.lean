/-
  What a query shows, and what the LIVE VIEW is.

  `Doc::live` is the view a user gets: a copy of the document without the fields that were deleted.
  `Store::list` and `Store::get` answer with it.  A query does not: it reads the full state of every
  document, and a deleted field is still there, with the value null.

  1. `liveRows` is the answer by the live view: a row for each document of `Store::list` whose model
     and live field match, with its live fields.

  2. What the two have in common is `Selected`: a query selects a document by the raw fields, so a
     filter for null selects the documents in which the field was deleted.  The rows agree exactly
     when no selected document has a deleted field (`perm_liveRows_iff`).

  3. The sort compares the names as JSON texts, quotation marks included.  The closing one sorts
     below almost everything, but not below a blank or `!` (`sorted_queryDocs_iff`).

  4. A rejected action may leave an empty entry behind, and a query shows it.

  `Showable` puts the three conditions together, and `query_shows_live_iff` says that they are exact
  in every state of every lifetime.
-/
import PhReactor.Query
import PhReactor.Store.CallLifetime
import PhReactor.Lib.TreeMap

set_option linter.unusedSectionVars false

namespace PhReactor

section

variable [Primitives]

/-! ## The live view -/

/-- Every document that is not deleted, in its live view. -/
def Store.list (s : Inner) : List Doc :=
  ((s.entries.toList.map Prod.snd).filter fun e => !e.deleted).map fun e => e.doc.live

/-- The row of a live document, if its model and its live field match. -/
def liveRow (s : Inner) (model : String) (filter : Option FieldFilter) (d : Doc) :
    Option DocRow :=
  (Store.fullState s d.id).bind fun st =>
    if (model = "" ∨ st.model.name = model) ∧ FieldFilter.passes d filter = true then
      some ⟨d.id, d.name, st.model.name, d.fields.map fun _ f => f.value⟩
    else none

/-- A row for each document of `Store::list` that matches. -/
def liveRows (s : Inner) (model : String) (filter : Option FieldFilter) : List DocRow :=
  (Store.list s).filterMap (liveRow s model filter)

/-- No field of the document has been deleted. -/
def Doc.Whole (d : Doc) : Prop :=
  ∀ (k : String) (f : Field), d.fields[k]? = some f → f.deleted = false

theorem live_of_whole {d : Doc} (h : d.Whole) : d.live = d := by
  have hfields : d.live.fields = d.fields := by
    refine Std.ExtTreeMap.ext_getElem? fun k => ?_
    rw [fields_live]
    cases hf : d.fields[k]? with
    | none => rfl
    | some f => rw [Option.filter_some, h k f hf, Bool.not_false, if_pos rfl]
  show ({ d with fields := d.live.fields } : Doc) = d
  rw [hfields]

/-- A document that shows the same in both views has no deleted field. -/
theorem whole_of_values {d : Doc}
    (h : (d.live.fields.map fun _ f => f.value) = d.fields.map fun _ f => f.value) : d.Whole := by
  intro k f hf
  by_contra hdel
  have hk := congrArg (fun m : Std.ExtTreeMap String Value => m[k]?) h
  rw [Std.ExtTreeMap.getElem?_map, Std.ExtTreeMap.getElem?_map, fields_live, hf,
    Option.filter_some, Bool.eq_true_of_not_eq_false hdel] at hk
  cases hk

/-- What the live view of a document has, the document has. -/
theorem passes_of_live {d : Doc} {filter : Option FieldFilter}
    (h : FieldFilter.passes d.live filter = true) : FieldFilter.passes d filter = true := by
  cases filter with
  | none => rfl
  | some f =>
    unfold FieldFilter.passes at h ⊢
    dsimp only at h ⊢
    rw [fields_live] at h
    cases hf : d.fields[f.field]? with
    | none =>
      rw [hf] at h
      cases h
    | some field =>
      rw [hf, Option.filter_some] at h
      cases hdel : field.deleted with
      | true =>
        rw [hdel] at h
        cases h
      | false =>
        rw [hdel] at h
        exact h

/-! ## What a query selects -/

/-- A query selects the document `e`: by its raw fields. -/
structure Selected (s : Inner) (model : String) (filter : Option FieldFilter) (id : DocId)
    (e : Entry) : Prop where
  entry : s.entries[id]? = some e
  live : e.deleted = false
  model : model = "" ∨ e.model.name = model
  passes : FieldFilter.passes e.doc filter = true

/-- The row that shows the document `d`, filed under `model`. -/
def Doc.row (d : Doc) (model : ModelRef) : DocRow :=
  ⟨d.id, d.name, model.name, d.fields.map fun _ f => f.value⟩

variable {s : Inner} {model : String} {filter : Option FieldFilter} {acc : List Action}

theorem rowOf_eq_some_iff {id : DocId} {r : DocRow} : rowOf s model filter id = some r ↔
    ∃ e, Selected s model filter id e ∧ r = e.doc.row e.model := by
  rw [rowOf_eq_some]
  constructor
  · rintro ⟨e, he, hlive, hmodel, hpasses, rfl⟩
    exact ⟨e, ⟨he, hlive, hmodel, hpasses⟩, rfl⟩
  · rintro ⟨e, h, rfl⟩
    exact ⟨e, h.entry, h.live, h.model, h.passes, rfl⟩

theorem mem_queryDocs_iff {r : DocRow} : r ∈ queryDocs s model filter ↔
    ∃ id e, Selected s model filter id e ∧ r = e.doc.row e.model := by
  rw [mem_queryDocs]
  constructor
  · rintro ⟨id, hr⟩
    exact ⟨id, rowOf_eq_some_iff.mp hr⟩
  · rintro ⟨id, e, h⟩
    exact ⟨id, rowOf_eq_some_iff.mpr ⟨e, h⟩⟩

/-! ## The rows -/

/-- Every document says its own id. -/
def OwnIds (s : Inner) : Prop :=
  ∀ (id : DocId) (e : Entry), s.entries[id]? = some e → e.doc.id = id

theorem liveRow_eq_some (hown : OwnIds s) {id : DocId} {e : Entry} (he : s.entries[id]? = some e)
    {r : DocRow} : liveRow s model filter e.doc.live = some r ↔
      (model = "" ∨ e.model.name = model) ∧ FieldFilter.passes e.doc.live filter = true ∧
        r = e.doc.live.row e.model := by
  have hstate : Store.fullState s e.doc.live.id = Store.fullState s id :=
    congrArg (Store.fullState s) (hown id e he)
  unfold liveRow
  rw [hstate]
  unfold Store.fullState
  rw [he, Option.map_some, Option.bind_some]
  dsimp only
  constructor
  · intro h
    split at h
    · next hmatch => exact ⟨hmatch.1, hmatch.2, (Option.some.inj h).symm⟩
    · cases h
  · rintro ⟨hmodel, hpasses, rfl⟩
    rw [if_pos ⟨hmodel, hpasses⟩]
    rfl

/-- A row of the live view. -/
theorem mem_liveRows (hown : OwnIds s) {r : DocRow} : r ∈ liveRows s model filter ↔
    ∃ (id : DocId) (e : Entry), s.entries[id]? = some e ∧ e.deleted = false ∧
      (model = "" ∨ e.model.name = model) ∧ FieldFilter.passes e.doc.live filter = true ∧
      r = e.doc.live.row e.model := by
  unfold liveRows Store.list
  rw [List.mem_filterMap]
  constructor
  · rintro ⟨d, hd, hr⟩
    obtain ⟨e, he, rfl⟩ := List.mem_map.mp hd
    rw [List.mem_filter] at he
    obtain ⟨⟨id, e'⟩, hp, rfl⟩ := List.mem_map.mp he.1
    have hentry := Lib.mem_toList.mp hp
    obtain ⟨hmodel, hpasses, rfl⟩ := (liveRow_eq_some hown hentry).mp hr
    exact ⟨id, e', hentry, by simpa using he.2, hmodel, hpasses, rfl⟩
  · rintro ⟨id, e, he, hlive, hmodel, hpasses, rfl⟩
    refine ⟨e.doc.live, List.mem_map.mpr ⟨e, List.mem_filter.mpr ⟨?_, by rw [hlive]; rfl⟩, rfl⟩,
      (liveRow_eq_some hown he).mpr ⟨hmodel, hpasses, rfl⟩⟩
    exact List.mem_map.mpr ⟨(id, e), Lib.mem_toList.mpr he, rfl⟩

/-- Where every selected document is whole, the query goes through the same rows. -/
theorem filterMap_rowOf_eq (hown : OwnIds s)
    (hwhole : ∀ id e, Selected s model filter id e → e.doc.Whole) :
    s.entries.keys.filterMap (rowOf s model filter) = liveRows s model filter := by
  unfold liveRows Store.list
  rw [← Std.ExtTreeMap.map_fst_toList_eq_keys, List.filterMap_map, List.filterMap_map,
    List.filterMap_filter, List.filterMap_map]
  refine List.filterMap_congr fun p hp => ?_
  obtain ⟨id, e⟩ := p
  have he := Lib.mem_toList.mp hp
  refine Option.ext fun r => ?_
  simp only [Function.comp_apply]
  rw [rowOf_eq_some_iff]
  constructor
  · rintro ⟨e', h, rfl⟩
    obtain rfl := Option.some.inj (he.symm.trans h.entry)
    have hlive := live_of_whole (hwhole id e h)
    rw [if_pos (by rw [h.live]; rfl)]
    refine (liveRow_eq_some hown he).mpr ⟨h.model, ?_, ?_⟩
    · rw [hlive]
      exact h.passes
    · rw [hlive]
  · intro hr
    split at hr
    · next hdel =>
      obtain ⟨hmodel, hpasses, rfl⟩ := (liveRow_eq_some hown he).mp hr
      have h : Selected s model filter id e :=
        ⟨he, by simpa using hdel, hmodel, passes_of_live hpasses⟩
      exact ⟨e, h, by rw [live_of_whole (hwhole id e h)]⟩
    · cases hr

/-- **When a query shows the live fields**: no document it selects has a deleted field. -/
theorem perm_liveRows_iff (hown : OwnIds s) :
    (queryDocs s model filter).Perm (liveRows s model filter) ↔
      ∀ id e, Selected s model filter id e → e.doc.Whole := by
  constructor
  · intro hperm id e h
    have hrow : e.doc.row e.model ∈ liveRows s model filter :=
      hperm.mem_iff.mp (mem_queryDocs_iff.mpr ⟨id, e, h, rfl⟩)
    obtain ⟨id', e', he', -, -, -, heq⟩ := (mem_liveRows hown).mp hrow
    -- the row says which document it is
    have hid : id' = id := by
      rw [← hown id' e' he', ← hown id e h.entry]
      exact (congrArg DocRow.id heq).symm
    subst hid
    obtain rfl := Option.some.inj (h.entry.symm.trans he')
    exact whole_of_values (congrArg DocRow.fields heq).symm
  · intro hwhole
    unfold queryDocs
    rw [filterMap_rowOf_eq hown hwhole]
    exact Lib.canonSort_perm _ _

/-! ## The order -/

/-- The printer tells strings apart: what `serde_json` prints can be read back. -/
def StringsApart : Prop :=
  ∀ a b : String, Primitives.jsonText (.string a) = Primitives.jsonText (.string b) → a = b

/-- **When a query is sorted by name**: the JSON texts of the names it shows are in the order of the
    names. -/
theorem sorted_queryDocs_iff (hjson : StringsApart) :
    (queryDocs s model filter).Pairwise (fun r r' => r.name ≤ r'.name) ↔
      ∀ id e id' e', Selected s model filter id e → Selected s model filter id' e' →
        Primitives.jsonText (.string e.doc.name) < Primitives.jsonText (.string e'.doc.name) →
          e.doc.name ≤ e'.doc.name := by
  have hmem : ∀ r, r ∈ s.entries.keys.filterMap (rowOf s model filter) ↔
      ∃ id e, Selected s model filter id e ∧ r = e.doc.row e.model := fun r => by
    rw [← mem_queryDocs_iff]
    unfold queryDocs
    exact Lib.mem_canonSort.symm
  unfold queryDocs
  rw [Lib.canonSort_pairwise_iff fun r _ r' _ heq => le_of_eq (hjson _ _ heq)]
  constructor
  · intro h id e id' e' hsel hsel'
    exact h _ ((hmem _).mpr ⟨id, e, hsel, rfl⟩) _ ((hmem _).mpr ⟨id', e', hsel', rfl⟩)
  · intro h r hr r' hr'
    obtain ⟨id, e, hsel, rfl⟩ := (hmem r).mp hr
    obtain ⟨id', e', hsel', rfl⟩ := (hmem r').mp hr'
    exact h id e id' e' hsel hsel'

/-! ## The answer as a whole -/

/-- The query shows exactly the live view: sorted by name, a row for each document of `Store::list`
    that matches with its live fields, and none for a document without an accepted action. -/
structure ShowsLive (s : Inner) (acc : List Action) (model : String)
    (filter : Option FieldFilter) : Prop where
  sorted : (queryDocs s model filter).Pairwise fun r r' => r.name ≤ r'.name
  rows : (queryDocs s model filter).Perm (liveRows s model filter)
  founded : ∀ r ∈ queryDocs s model filter, ∃ a ∈ acc, a.docId = r.id

/-- Of the documents a query selects, none has a deleted field, each has an accepted action, and the
    JSON texts of their names are in the order of the names. -/
structure Showable (s : Inner) (acc : List Action) (model : String)
    (filter : Option FieldFilter) : Prop where
  whole : ∀ id e, Selected s model filter id e → e.doc.Whole
  founded : ∀ id e, Selected s model filter id e → ∃ a ∈ acc, a.docId = id
  ordered : ∀ id e id' e', Selected s model filter id e → Selected s model filter id' e' →
    Primitives.jsonText (.string e.doc.name) < Primitives.jsonText (.string e'.doc.name) →
      e.doc.name ≤ e'.doc.name

theorem showsLive_iff (hjson : StringsApart) (hown : OwnIds s) :
    ShowsLive s acc model filter ↔ Showable s acc model filter := by
  have hfounded : (∀ r ∈ queryDocs s model filter, ∃ a ∈ acc, a.docId = r.id) ↔
      ∀ id e, Selected s model filter id e → ∃ a ∈ acc, a.docId = id := by
    constructor
    · intro h id e hsel
      rw [← hown id e hsel.entry]
      exact h _ (mem_queryDocs_iff.mpr ⟨id, e, hsel, rfl⟩)
    · intro h r hr
      obtain ⟨id, e, hsel, rfl⟩ := mem_queryDocs_iff.mp hr
      obtain ⟨a, ha, hid⟩ := h id e hsel
      exact ⟨a, ha, hid.trans (hown id e hsel.entry).symm⟩
  constructor
  · rintro ⟨hsorted, hrows, hfound⟩
    exact ⟨(perm_liveRows_iff hown).mp hrows, hfounded.mp hfound,
      (sorted_queryDocs_iff hjson).mp hsorted⟩
  · rintro ⟨hwhole, hfound, hordered⟩
    exact ⟨(sorted_queryDocs_iff hjson).mpr hordered, (perm_liveRows_iff hown).mpr hwhole,
      hfounded.mpr hfound⟩

/-- A query that selects less needs less. -/
theorem Showable.of_all (h : Showable s acc "" none) (model : String)
    (filter : Option FieldFilter) : Showable s acc model filter := by
  have hall : ∀ {id e}, Selected s model filter id e → Selected s "" none id e :=
    fun hsel => ⟨hsel.entry, hsel.live, Or.inl rfl, rfl⟩
  exact ⟨fun id e hsel => h.whole id e (hall hsel), fun id e hsel => h.founded id e (hall hsel),
    fun id e id' e' hsel hsel' => h.ordered id e id' e' (hall hsel) (hall hsel')⟩

theorem ownIds_lifetime {P : Inner → List Action → Happening → Prop} {key : SigningKey}
    {origin : Origin} {extra : List Model}
    (h : Lifetime P (Store.fresh key origin extra) s acc) : OwnIds s :=
  fun id e he => (ownId_lifetime h id).entry e he

/-- **A query shows the live view** in a state of a lifetime exactly when none of the documents it
    selects has a deleted field or lacks an accepted action, and their names sort as their JSON
    texts do.  Every query does when that holds of all live documents, and only then. -/
theorem query_shows_live_iff (hjson : StringsApart) (key : SigningKey) (origin : Origin)
    (extra : List Model) (s : Inner) (acc : List Action)
    (h : Lifetime (fun _ _ _ => True) (Store.fresh key origin extra) s acc) :
    (∀ (model : String) (filter : Option FieldFilter),
      ShowsLive s acc model filter ↔ Showable s acc model filter) ∧
    ((∀ (model : String) (filter : Option FieldFilter), ShowsLive s acc model filter) ↔
      Showable s acc "" none) := by
  have hown := ownIds_lifetime h
  refine ⟨fun model filter => showsLive_iff hjson hown, ?_⟩
  constructor
  · exact fun hall => (showsLive_iff hjson hown).mp (hall "" none)
  · exact fun hall model filter => (showsLive_iff hjson hown).mpr (hall.of_all model filter)

end

section

open Sample

attribute [local instance] Sample.primitives

theorem stringsApart_sample : StringsApart := by
  intro a b h
  replace h : "\"" ++ a ++ "\"" = "\"" ++ b ++ "\"" := h
  exact (String.append_right_inj _).mp ((String.append_left_inj _).mp h)

/-- Alice creates the sample group on her own node. -/
def groupLife : List Happening := [.event (.applyAction Io.ok groupInit)]

/-- Alice sets two fields of a note and deletes one of them. -/
def clearedLife : List Happening :=
  [.event (.applyAction Io.ok (aliceSets "title" "minutes" 1)),
    .event (.applyAction Io.ok (aliceSets "due" "monday" 2)),
    .event (.applyAction Io.ok
      (act alice "open" "delete" (.object [("field", .string "due")]) 3 [("alice", 3)] none))]

theorem groupLife_facts :
    (((Store.fresh alice.key alice.name []).happenAll [] groupLife).1.entries.toList.all fun p =>
      p.1 == docId && p.2.doc.fields.toList.all fun q => !q.2.deleted) = true ∧
    (((Store.fresh alice.key alice.name []).happenAll [] groupLife).2.any fun a =>
      a.docId == docId) = true := by
  decide +kernel

theorem group_shown : ShowsLive ((Store.fresh alice.key alice.name []).happenAll [] groupLife).1
    ((Store.fresh alice.key alice.name []).happenAll [] groupLife).2 "group" none := by
  obtain ⟨hentries, hacc⟩ := groupLife_facts
  have hlife : Lifetime (fun _ _ _ => True) (Store.fresh alice.key alice.name [])
      ((Store.fresh alice.key alice.name []).happenAll [] groupLife).1
      ((Store.fresh alice.key alice.name []).happenAll [] groupLife).2 :=
    Lifetime.start.happenAll groupLife fun h hh s acc => by
      rw [List.mem_singleton.mp hh]
      exact ⟨trivial, trivial⟩
  have hentry : ∀ {id e}, Selected
      ((Store.fresh alice.key alice.name []).happenAll [] groupLife).1 "group" none id e →
      id = docId ∧ e.doc.Whole := by
    intro id e hsel
    have hboth := List.all_eq_true.mp hentries _ (Lib.mem_toList.mpr hsel.entry)
    rw [Bool.and_eq_true, beq_iff_eq, List.all_eq_true] at hboth
    refine ⟨hboth.1, fun k f hf => ?_⟩
    simpa using hboth.2 (k, f) (Lib.mem_toList.mpr hf)
  refine ((query_shows_live_iff stringsApart_sample alice.key alice.name [] _ _ hlife).1 "group"
    none).mpr ⟨fun id e hsel => (hentry hsel).2, fun id e hsel => ?_, ?_⟩
  · obtain ⟨a, ha, hid⟩ := List.any_eq_true.mp hacc
    exact ⟨a, ha, (beq_iff_eq.mp hid).trans (hentry hsel).1.symm⟩
  · -- there is only one document
    intro id e id' e' hsel hsel' _
    obtain rfl := (hentry hsel).1.trans (hentry hsel').1.symm
    obtain rfl := Option.some.inj (hsel.entry.symm.trans hsel'.entry)
    exact le_refl _

/-- The filter for documents that have the field `due`, with null in it. -/
def dueNull : Option FieldFilter := some ⟨"due", .null⟩

theorem clearedLife_facts :
    (queryDocs ((Store.fresh alice.key alice.name []).happenAll [] clearedLife).1 "" dueNull).length
      = 1 ∧
    (liveRows ((Store.fresh alice.key alice.name []).happenAll [] clearedLife).1 "" dueNull).length
      = 0 := by
  decide +kernel

/-- **A deleted field is shown**: a filter for null finds the note whose field was deleted. -/
theorem deleted_field_shown :
    ¬ ∀ (key : SigningKey) (origin : Origin) (extra : List Model) (s : Inner) (acc : List Action),
      Lifetime (fun _ _ _ => True) (Store.fresh key origin extra) s acc →
      ∀ (model : String) (filter : Option FieldFilter), ShowsLive s acc model filter := by
  intro h
  have hlife : Lifetime (fun _ _ _ => True) (Store.fresh alice.key alice.name [])
      ((Store.fresh alice.key alice.name []).happenAll [] clearedLife).1
      ((Store.fresh alice.key alice.name []).happenAll [] clearedLife).2 :=
    Lifetime.start.happenAll clearedLife fun h hh s acc => by
      simp only [clearedLife, List.mem_cons, List.not_mem_nil, or_false] at hh
      obtain rfl | rfl | rfl := hh <;> exact ⟨trivial, trivial⟩
  have hperm := (h alice.key alice.name [] _ _ hlife "" dueNull).rows
  have hlength := hperm.length_eq
  rw [clearedLife_facts.1, clearedLife_facts.2] at hlength
  cases hlength

end

end PhReactor
