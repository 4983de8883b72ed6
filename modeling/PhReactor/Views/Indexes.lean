/-
  The two built-in read models: the document view and the relationship graph
  (`views/src/document_view.rs`, `views/src/relationship.rs`).

  Both are updated from one snapshot after the other.  A REBUILD starts from nothing and is fed the
  last snapshot of each document alone, the deleted ones first, so that a name leads to a live
  document whenever one has it (`rebuilt`).

  1. What the tables hold is a matter of last snapshots (`getElem?_byId`, `getElem?_byName`,
     `getElem?_edges`): under an id the last one of that id, under a name the last one of that name.
     Nothing ever takes a name away.

  2. So an index is as good as rebuilt exactly when under every name the last snapshot is still the
     last of its document, and is live if any document of the name is (`Settled`,
     `indexes_eq_rebuilt_iff`).  A rename leaves the old name behind (`renamed_still_answers`).

  3. There is one way for a name to be left behind without a trace: it is the document's own id, by
     which it would be found anyway, the document is deleted, and it had no edges.

  `find` and `count` read the table of ids alone.  The values of a hash map come in an order of its
  own; here they come by id, and `find` sorts them by name.
-/
import Std.Data.ExtTreeSet
import PhReactor.Encoding
import PhReactor.Lib.Latest
import PhReactor.Views.ReadModel

namespace PhReactor

/-! ## The document view -/

/-- A field-equality predicate. -/
structure DocFilter where
  field : String
  value : Value

/-- `Vec::dedup`: of equal neighbours the first one stays. -/
def dedup : List String → List String
  | [] => []
  | x :: l => x :: dedupAfter x l
where
  dedupAfter (x : String) : List String → List String
    | [] => []
    | y :: l => if y == x then dedupAfter x l else y :: dedupAfter y l

structure DocumentView where
  byId : Std.ExtTreeMap String DocSnapshot
  byName : Std.ExtTreeMap String String
  byModel : Std.ExtTreeMap String (List String)

namespace DocumentView

def new : DocumentView := ⟨∅, ∅, ∅⟩

/-- The documents of a model without this one, where the model is known. -/
def without (id model : String) (byModel : Std.ExtTreeMap String (List String)) :
    Std.ExtTreeMap String (List String) :=
  match byModel[model]? with
  | some list => byModel.insert model (list.filter (· != id))
  | none => byModel

def apply (v : DocumentView) (snap : DocSnapshot) : DocumentView :=
  let id := Store.docIdText snap.docId
  -- if the model or liveness changed, drop it from the old model's bucket
  let byModel :=
    match v.byId[id]? with
    | some prev =>
      if prev.model.name != snap.model.name || prev.deleted != snap.deleted then
        without id prev.model.name v.byModel
      else v.byModel
    | none => v.byModel
  { byId := v.byId.insert id snap
    byName := if snap.name.isEmpty then v.byName else v.byName.insert snap.name id
    byModel :=
      if snap.deleted then without id snap.model.name byModel
      else byModel.insert snap.model.name (dedup (byModel[snap.model.name]?.getD [] ++ [id])) }

/-- Look up a doc by name or id. -/
def get (v : DocumentView) (nameOrId : String) : Option DocSnapshot :=
  match v.byName[nameOrId]? with
  | some id => v.byId[id]?
  | none => v.byId[nameOrId]?

/-- Is the snapshot one that is asked for. -/
def selects (model : String) (filter : Option DocFilter) (snap : DocSnapshot) : Bool :=
  !snap.deleted && (model.isEmpty || snap.model.name == model) &&
    filter.all fun f => snap.fields[f.field]?.any (· == f.value)

/-- Every live doc of the model, by name. -/
def find (v : DocumentView) (model : String) (filter : Option DocFilter) : List DocSnapshot :=
  ((v.byId.toList.map Prod.snd).filter (selects model filter)).mergeSort fun a b => a.name ≤ b.name

/-- The number of live docs of the model. -/
def count (v : DocumentView) (model : String) : ℕ :=
  ((v.byId.toList.map Prod.snd).filter (selects model none)).length

/-- Whether a live doc of that name exists. -/
def exists_ (v : DocumentView) (name : String) : Bool :=
  v.byId[v.byName[name]?.getD ""]?.any fun snap => !snap.deleted

end DocumentView

/-! ## The relationship graph -/

/-- `source ↦ field ↦ targets`. -/
abbrev EdgeMap := Std.ExtTreeMap String (Std.ExtTreeMap String (Std.ExtTreeSet String))

/-- `(model, field) ↦ target model`, declared by the model layer: the entries, in key order. -/
abbrev Declared := List ((String × String) × String)

namespace RelationshipIndex

/-- The relationships declared for a model's fields. -/
def relsFor (decl : Declared) (model : String) : List String :=
  (decl.filter fun e => e.1.1 == model).map fun e => e.1.2

/-- One edge more. -/
def addEdge (g : EdgeMap) (source field target : String) : EdgeMap :=
  let fields := g[source]?.getD ∅
  g.insert source (fields.insert field ((fields[field]?.getD ∅).insert target))

/-- The edge of one field, if it names a document. -/
def addField (snap : DocSnapshot) (g : EdgeMap) (field : String) : EdgeMap :=
  match snap.fields[field]?.bind Value.asStr? with
  | some target => if target.isEmpty then g else addEdge g snap.name field target
  | none => g

def apply (decl : Declared) (g : EdgeMap) (snap : DocSnapshot) : EdgeMap :=
  -- a deleted or re-modelled doc drops its outgoing edges
  let g := g.erase snap.name
  if snap.deleted || snap.name.isEmpty then g
  else (relsFor decl snap.model.name).foldl (addField snap) g

/-- Outgoing target names from `source` for `field`. -/
def outgoing (g : EdgeMap) (source field : String) : List String :=
  ((g[source]?.bind (·[field]?)).map Std.ExtTreeSet.toList).getD []

/-- Incoming source names to `target` for `field`. -/
def incoming (g : EdgeMap) (target field : String) : List String :=
  ((g.toList.filter fun e => e.2[field]?.any (·.contains target)).map Prod.fst).mergeSort
    (· ≤ ·)

end RelationshipIndex

/-! ## Ids as text -/

theorem digitChar_inj {m n : ℕ} (hm : m < 16) (hn : n < 16)
    (h : Nat.digitChar m = Nat.digitChar n) : m = n := by
  have hall : ∀ m < 16, ∀ n < 16, Nat.digitChar m = Nat.digitChar n → m = n := by decide
  exact hall m hm n hn h

/-- The bytes in hexadecimal. -/
def hexDigits (bytes : List UInt8) : List Char :=
  bytes.flatMap fun b => [Nat.digitChar (b.toNat / 16), Nat.digitChar (b.toNat % 16)]

theorem hyphen_not_mem_hexDigits (bytes : List UInt8) : '-' ∉ hexDigits bytes := by
  have hall : ∀ n < 16, Nat.digitChar n ≠ '-' := by decide
  intro h
  obtain ⟨b, -, hb⟩ := List.mem_flatMap.mp h
  have hbyte := b.toNat_lt
  rcases List.mem_pair.mp hb with hb | hb
  · exact hall _ (by omega) hb.symm
  · exact hall _ (by omega) hb.symm

/-- The text of an id without its hyphens is its bytes in hexadecimal. -/
theorem filter_docIdText (d : DocId) :
    (Store.docIdText d).toList.filter (· != '-') = hexDigits (beBytes 16 d) := by
  have hno := hyphen_not_mem_hexDigits (beBytes 16 d)
  unfold Store.docIdText
  show (String.intercalate "-" ([(hexDigits (beBytes 16 d)).take 8,
    ((hexDigits (beBytes 16 d)).drop 8).take 4, ((hexDigits (beBytes 16 d)).drop 12).take 4,
    ((hexDigits (beBytes 16 d)).drop 16).take 4, (hexDigits (beBytes 16 d)).drop 20].map
      String.ofList)).toList.filter _ = _
  generalize hexDigits (beBytes 16 d) = hex at hno ⊢
  -- every piece is kept whole
  have hkeep : ∀ l : List Char, l.Sublist hex → l.filter (· != '-') = l := by
    intro l hl
    refine List.filter_eq_self.mpr fun c hc => bne_iff_ne.mpr fun heq => hno ?_
    rw [← heq]
    exact hl.subset hc
  have hpiece : ∀ n k, ((hex.drop n).take k).filter (· != '-') = (hex.drop n).take k := fun n k =>
    hkeep _ ((List.take_sublist _ _).trans (List.drop_sublist _ _))
  have hglue : ∀ n k, (hex.drop n).take k ++ hex.drop (n + k) = hex.drop n := by
    intro n k
    rw [← List.drop_drop, List.take_append_drop]
  simp only [List.map_cons, List.map_nil, String.intercalate_cons_cons,
    String.intercalate_singleton, String.toList_append, String.toList_ofList, List.filter_append,
    hpiece, hkeep _ (List.take_sublist 8 hex), hkeep _ (List.drop_sublist 20 hex)]
  have hhyphen : ("-".toList).filter (· != '-') = [] := by decide
  rw [hhyphen, List.append_nil, List.append_nil, List.append_nil, List.append_nil]
  have h20 : (hex.drop 16).take 4 ++ hex.drop 20 = hex.drop 16 := hglue 16 4
  have h16 : (hex.drop 12).take 4 ++ hex.drop 16 = hex.drop 12 := hglue 12 4
  have h12 : (hex.drop 8).take 4 ++ hex.drop 12 = hex.drop 8 := hglue 8 4
  rw [h20, h16, h12, List.take_append_drop]

/-- The digits say which bytes they are. -/
theorem hexDigits_injective : Function.Injective hexDigits := by
  intro l
  induction l with
  | nil =>
    intro l' h
    cases l' with
    | nil => rfl
    | cons b l' => cases h
  | cons b l ih =>
    intro l' h
    cases l' with
    | nil => cases h
    | cons b' l' =>
      have hcons : Nat.digitChar (b.toNat / 16) :: Nat.digitChar (b.toNat % 16) :: hexDigits l =
          Nat.digitChar (b'.toNat / 16) :: Nat.digitChar (b'.toNat % 16) :: hexDigits l' := h
      obtain ⟨hhigh, htail⟩ := List.cons.inj hcons
      obtain ⟨hlow, hrest⟩ := List.cons.inj htail
      have hb := b.toNat_lt
      have hb' := b'.toNat_lt
      have hdiv := digitChar_inj (by omega) (by omega) hhigh
      have hmod := digitChar_inj (by omega) (by omega) hlow
      have hbyte : b = b' := by
        apply UInt8.toNat_inj.mp
        omega
      rw [hbyte, ih hrest]

/-- **Distinct ids have distinct texts.** -/
theorem docIdText_injective : Function.Injective Store.docIdText := by
  intro d d' h
  have hhex := filter_docIdText d
  rw [h, filter_docIdText d'] at hhex
  have hbytes := beBytes_inj.mp (hexDigits_injective hhex)
  apply Fin.ext
  have hd := d.isLt
  have hd' := d'.isLt
  have hpow : 256 ^ 16 = 2 ^ 128 := by decide
  rw [hpow, Nat.mod_eq_of_lt hd, Nat.mod_eq_of_lt hd'] at hbytes
  exact hbytes.symm

/-! ## What the tables hold -/

/-- The view after a history of snapshots. -/
def viewOf (h : List DocSnapshot) : DocumentView := h.foldl DocumentView.apply .new

/-- The graph after a history of snapshots. -/
def graphOf (decl : Declared) (h : List DocSnapshot) : EdgeMap :=
  h.foldl (RelationshipIndex.apply decl) ∅

/-- The last snapshot under a name. -/
abbrev lastNamed (n : String) (h : List DocSnapshot) : Option DocSnapshot :=
  Lib.lastOf DocSnapshot.name n h

/-- The last snapshot of a document. -/
abbrev lastOfDoc (d : DocId) (h : List DocSnapshot) : Option DocSnapshot :=
  Lib.lastOf DocSnapshot.docId d h

theorem viewOf_concat (h : List DocSnapshot) (snap : DocSnapshot) :
    viewOf (h ++ [snap]) = (viewOf h).apply snap := by simp [viewOf]

theorem graphOf_concat (decl : Declared) (h : List DocSnapshot) (snap : DocSnapshot) :
    graphOf decl (h ++ [snap]) = RelationshipIndex.apply decl (graphOf decl h) snap := by
  simp [graphOf]

/-- **Under an id: the last snapshot of that id.** -/
theorem getElem?_byId (h : List DocSnapshot) (k : String) :
    (viewOf h).byId[k]? = Lib.last? (fun s => Store.docIdText s.docId == k) h := by
  induction h using List.reverseRecOn with
  | nil => exact Std.ExtTreeMap.getElem?_empty
  | append_singleton past snap ih =>
    rw [viewOf_concat, Lib.last?_concat]
    show ((viewOf past).byId.insert (Store.docIdText snap.docId) snap)[k]? = _
    rw [Std.ExtTreeMap.getElem?_insert, ih]
    simp [Std.LawfulEqCmp.compare_eq_iff_eq]

theorem getElem?_byId_docId (h : List DocSnapshot) (d : DocId) :
    (viewOf h).byId[Store.docIdText d]? = lastOfDoc d h := by
  have hsame : (fun s : DocSnapshot => Store.docIdText s.docId == Store.docIdText d) =
      fun s => s.docId == d := by
    funext s
    rw [Bool.eq_iff_iff, beq_iff_eq, beq_iff_eq]
    exact docIdText_injective.eq_iff
  rw [getElem?_byId, hsame]

theorem byName_apply (v : DocumentView) (snap : DocSnapshot) (n : String) :
    (v.apply snap).byName[n]? = if snap.name ≠ "" ∧ snap.name = n then
      some (Store.docIdText snap.docId) else v.byName[n]? := by
  show (if snap.name.isEmpty then v.byName
    else v.byName.insert snap.name (Store.docIdText snap.docId))[n]? = _
  by_cases hempty : snap.name = ""
  · rw [if_pos (String.isEmpty_iff.mpr hempty), if_neg fun h => h.1 hempty]
  · rw [if_neg fun h => hempty (String.isEmpty_iff.mp h), Std.ExtTreeMap.getElem?_insert]
    simp [Std.LawfulEqCmp.compare_eq_iff_eq, hempty]

/-- **Under a name: the document of the last snapshot of that name.** -/
theorem getElem?_byName (h : List DocSnapshot) {n : String} (hn : n ≠ "") :
    (viewOf h).byName[n]? = (lastNamed n h).map fun s => Store.docIdText s.docId := by
  induction h using List.reverseRecOn with
  | nil => exact Std.ExtTreeMap.getElem?_empty
  | append_singleton past snap ih =>
    unfold lastNamed Lib.lastOf at ih ⊢
    rw [viewOf_concat, Lib.last?_concat, byName_apply, ih]
    by_cases hname : snap.name = n
    · rw [if_pos ⟨hname ▸ hn, hname⟩, if_pos (beq_iff_eq.mpr hname)]
      rfl
    · rw [if_neg fun h => hname h.2, if_neg fun h => hname (beq_iff_eq.mp h)]

/-- The empty name leads nowhere. -/
theorem getElem?_byName_empty (h : List DocSnapshot) : (viewOf h).byName[""]? = none := by
  induction h using List.reverseRecOn with
  | nil => exact Std.ExtTreeMap.getElem?_empty
  | append_singleton past snap ih =>
    rw [viewOf_concat, byName_apply, if_neg fun h => h.1 h.2, ih]

/-! ## What the edges are -/

namespace RelationshipIndex

variable {decl : Declared} {g g' : EdgeMap} {snap : DocSnapshot}

/-- The edges of a document: what a graph with nothing else has of it. -/
def edgesOf (decl : Declared) (snap : DocSnapshot) :
    Option (Std.ExtTreeMap String (Std.ExtTreeSet String)) :=
  (apply decl ∅ snap)[snap.name]?

theorem getElem?_addEdge (source field target n : String) :
    (addEdge g source field target)[n]? = if source = n then
      some ((g[source]?.getD ∅).insert field
        ((((g[source]?.getD ∅)[field]?).getD ∅).insert target)) else g[n]? := by
  unfold addEdge
  dsimp only
  rw [Std.ExtTreeMap.getElem?_insert]
  simp only [Std.LawfulEqCmp.compare_eq_iff_eq]

/-- A field of a document touches the edges of its name alone, and depends on nothing else. -/
theorem getElem?_addField (field n : String) : (addField snap g field)[n]? =
    if snap.name = n then (addField snap g field)[snap.name]? else g[n]? := by
  by_cases hn : snap.name = n
  · rw [if_pos hn, hn]
  · rw [if_neg hn]
    unfold addField
    split
    · split
      · rfl
      · rw [getElem?_addEdge, if_neg hn]
    · rfl

theorem addField_congr (h : g[snap.name]? = g'[snap.name]?) (field : String) :
    (addField snap g field)[snap.name]? = (addField snap g' field)[snap.name]? := by
  unfold addField
  split
  · split
    · exact h
    · rw [getElem?_addEdge, getElem?_addEdge, h]
  · exact h

theorem foldl_addField (fields : List String) : ∀ {g g' : EdgeMap}, g[snap.name]? = g'[snap.name]? →
    (fields.foldl (addField snap) g)[snap.name]? = (fields.foldl (addField snap) g')[snap.name]? ∧
      ∀ n, snap.name ≠ n → (fields.foldl (addField snap) g)[n]? = g[n]? := by
  induction fields with
  | nil => exact fun h => ⟨h, fun _ _ => rfl⟩
  | cons field fields ih =>
    intro g g' h
    obtain ⟨hsame, hothers⟩ := ih (addField_congr h field)
    refine ⟨hsame, fun n hn => (hothers n hn).trans ?_⟩
    rw [getElem?_addField, if_neg hn]

theorem getElem?_apply (n : String) : (apply decl g snap)[n]? =
    if snap.name = n then edgesOf decl snap else g[n]? := by
  have hnone : ∀ g : EdgeMap, (g.erase snap.name)[snap.name]? = none := fun g => by
    rw [Std.ExtTreeMap.getElem?_erase]
    simp
  have hothers : snap.name ≠ n → (g.erase snap.name)[n]? = g[n]? := fun hn => by
    rw [Std.ExtTreeMap.getElem?_erase, if_neg]
    exact fun heq => hn (Std.LawfulEqCmp.compare_eq_iff_eq.mp heq)
  obtain ⟨hsame, hrest⟩ := @foldl_addField snap (relsFor decl snap.model.name) _ _
    ((hnone g).trans (hnone ∅).symm)
  unfold edgesOf apply
  dsimp only
  by_cases hn : snap.name = n
  · rw [if_pos hn, ← hn]
    split
    · rw [hnone, hnone]
    · exact hsame
  · rw [if_neg hn]
    split
    · exact hothers hn
    · exact (hrest n hn).trans (hothers hn)

theorem edgesOf_empty_name (h : snap.name = "") : edgesOf decl snap = none := by
  unfold edgesOf apply
  dsimp only
  rw [if_pos (by rw [String.isEmpty_iff.mpr h, Bool.or_true]), Std.ExtTreeMap.getElem?_erase]
  simp

/-- There is an edge, if there is an entry for the name. -/
def Edged (fields : Option (Std.ExtTreeMap String (Std.ExtTreeSet String))) : Prop :=
  ∀ m, fields = some m → ∃ (field : String) (targets : Std.ExtTreeSet String) (target : String),
    m[field]? = some targets ∧ target ∈ targets.toList

theorem edged_addField (h : Edged g[snap.name]?) (field : String) :
    Edged (addField snap g field)[snap.name]? := by
  unfold addField
  split
  · next target _ =>
    split
    · exact h
    · rw [getElem?_addEdge, if_pos rfl]
      intro m hm
      obtain rfl := Option.some.inj hm
      refine ⟨field, _, target, Std.ExtTreeMap.getElem?_insert_self, ?_⟩
      rw [Std.ExtTreeSet.mem_toList]
      exact Std.ExtTreeSet.mem_insert_self
  · exact h

theorem edged_edgesOf (decl : Declared) (snap : DocSnapshot) : Edged (edgesOf decl snap) := by
  have hnone : Edged ((∅ : EdgeMap).erase snap.name)[snap.name]? := by
    rw [Std.ExtTreeMap.getElem?_erase]
    intro m hm
    simp at hm
  have hfold : ∀ (fields : List String) (g : EdgeMap), Edged g[snap.name]? →
      Edged (fields.foldl (addField snap) g)[snap.name]? := by
    intro fields
    induction fields with
    | nil => exact fun _ h => h
    | cons field fields ih => exact fun g h => ih _ (edged_addField h field)
  unfold edgesOf apply
  dsimp only
  split
  · exact hnone
  · exact hfold _ _ hnone

/-- A name with no outgoing edge at all has no entry. -/
theorem eq_none_of_outgoing {n : String} (he : Edged g[n]?) (h : ∀ field, outgoing g n field = []) :
    g[n]? = none := by
  cases hg : g[n]? with
  | none => rfl
  | some m =>
    obtain ⟨field, targets, target, hfield, htarget⟩ := he m hg
    have hout := h field
    unfold outgoing at hout
    rw [hg] at hout
    replace hout : ((m[field]?).map Std.ExtTreeSet.toList).getD [] = [] := hout
    rw [hfield] at hout
    rw [show targets.toList = [] from hout] at htarget
    exact absurd htarget List.not_mem_nil

end RelationshipIndex

/-- **Under a name: the edges of the last snapshot of that name.** -/
theorem getElem?_edges (decl : Declared) (h : List DocSnapshot) (n : String) :
    (graphOf decl h)[n]? = (lastNamed n h).bind (RelationshipIndex.edgesOf decl) := by
  induction h using List.reverseRecOn with
  | nil => exact Std.ExtTreeMap.getElem?_empty
  | append_singleton past snap ih =>
    unfold lastNamed Lib.lastOf at ih ⊢
    rw [graphOf_concat, Lib.last?_concat, RelationshipIndex.getElem?_apply, ih]
    by_cases hname : snap.name = n
    · rw [if_pos hname, if_pos (beq_iff_eq.mpr hname)]
      rfl
    · rw [if_neg hname, if_neg fun h => hname (beq_iff_eq.mp h)]

/-! ## Rebuilding -/

/-- The last snapshot of each document, the deleted ones first. -/
def rebuilt (h : List DocSnapshot) : List DocSnapshot :=
  (Lib.latest DocSnapshot.docId h).filter (·.deleted) ++
    (Lib.latest DocSnapshot.docId h).filter (!·.deleted)

/-- The same answers to every query. -/
structure SameAnswers (decl : Declared) (h h' : List DocSnapshot) : Prop where
  get : ∀ nameOrId, (viewOf h).get nameOrId = (viewOf h').get nameOrId
  exists_ : ∀ name, (viewOf h).exists_ name = (viewOf h').exists_ name
  find : ∀ model filter, (viewOf h).find model filter = (viewOf h').find model filter
  count : ∀ model, (viewOf h).count model = (viewOf h').count model
  outgoing : ∀ source field, RelationshipIndex.outgoing (graphOf decl h) source field =
    RelationshipIndex.outgoing (graphOf decl h') source field
  incoming : ∀ target field, RelationshipIndex.incoming (graphOf decl h) target field =
    RelationshipIndex.incoming (graphOf decl h') target field

/-- The last snapshot under a name is the last of its document, and live if any document of the
    name is. -/
def StillLast (h : List DocSnapshot) (n : String) (s : DocSnapshot) : Prop :=
  lastOfDoc s.docId h = some s ∧ (s.deleted = false ∨
    ∀ t ∈ Lib.latest DocSnapshot.docId h, t.name = n → t.deleted = true)

/-- The name is left behind, but it is the document's own id, the document is deleted, and the
    snapshot had no edges. -/
def Traceless (decl : Declared) (h : List DocSnapshot) (n : String) (s : DocSnapshot) : Prop :=
  n = Store.docIdText s.docId ∧ (∃ t, lastOfDoc s.docId h = some t ∧ t.deleted = true) ∧
    (∀ t ∈ Lib.latest DocSnapshot.docId h, t.name ≠ n) ∧ RelationshipIndex.edgesOf decl s = none

/-- Under every name that was ever used. -/
def Settled (decl : Declared) (h : List DocSnapshot) : Prop :=
  ∀ n s, n ≠ "" → lastNamed n h = some s → StillLast h n s ∨ Traceless decl h n s

variable {decl : Declared} {h : List DocSnapshot} {p : DocSnapshot → Bool} {s t : DocSnapshot}

theorem mem_rebuilt : t ∈ rebuilt h ↔ t ∈ Lib.latest DocSnapshot.docId h := by
  unfold rebuilt
  rw [List.mem_append, List.mem_filter, List.mem_filter]
  cases t.deleted <;> simp

theorem last?_rebuilt_none (hno : ∀ t ∈ Lib.latest DocSnapshot.docId h, p t = false) :
    Lib.last? p (rebuilt h) = none :=
  Lib.last?_eq_none.mpr fun t ht => hno t (mem_rebuilt.mp ht)

/-- A last item is the last one of the rebuild too, if it is the last of its document and no live
    one competes with a deleted one. -/
theorem last?_rebuilt (hlast : Lib.last? p h = some s) (hdoc : lastOfDoc s.docId h = some s)
    (hlive : s.deleted = false ∨
      ∀ t ∈ Lib.latest DocSnapshot.docId h, p t = true → t.deleted = true) :
    Lib.last? p (rebuilt h) = some s := by
  have hlatest := Lib.last?_latest hlast hdoc
  unfold rebuilt
  rw [Lib.last?_append]
  cases hdel : s.deleted with
  | false =>
    rw [Lib.last?_filter hlatest (by rw [hdel]; rfl)]
    rfl
  | true =>
    have hnone : Lib.last? p ((Lib.latest DocSnapshot.docId h).filter (!·.deleted)) = none := by
      refine Lib.last?_eq_none.mpr fun t ht => Bool.eq_false_iff.mpr fun hp => ?_
      obtain ⟨hmem, ht⟩ := List.mem_filter.mp ht
      rcases hlive with hlive | hall
      · rw [hdel] at hlive
        cases hlive
      · rw [hall t hmem hp] at ht
        cases ht
    rw [hnone, Lib.last?_filter hlatest hdel]
    rfl

/-- **The tables of ids are the same.** -/
theorem byId_rebuilt (h : List DocSnapshot) : (viewOf (rebuilt h)).byId = (viewOf h).byId := by
  refine Std.ExtTreeMap.ext_getElem? fun {k} => ?_
  rw [getElem?_byId, getElem?_byId]
  cases hlast : Lib.last? (fun s => Store.docIdText s.docId == k) h with
  | none =>
    refine last?_rebuilt_none fun t ht => ?_
    exact Lib.last?_eq_none.mp hlast t ((Lib.latest_sublist _ h).subset ht)
  | some s =>
    have hk : Store.docIdText s.docId = k := beq_iff_eq.mp (Lib.last?_mem hlast).2
    have hdoc : lastOfDoc s.docId h = some s := by
      rw [← getElem?_byId_docId, getElem?_byId, hk]
      exact hlast
    refine last?_rebuilt hlast hdoc ?_
    -- a live snapshot of the same id would be the same one
    cases hdel : s.deleted with
    | false => exact Or.inl rfl
    | true =>
      refine Or.inr fun t ht htext => ?_
      have hid : t.docId = s.docId :=
        docIdText_injective ((beq_iff_eq.mp htext).trans hk.symm)
      have htlast := Lib.mem_latest.mp ht
      rw [hid] at htlast
      rw [Option.some.inj (htlast.symm.trans hdoc)]
      exact hdel

/-- No id is the empty text. -/
theorem docIdText_ne_empty (d : DocId) : Store.docIdText d ≠ "" := by
  intro h
  have hhex := filter_docIdText d
  rw [h] at hhex
  have hlen := congrArg List.length hhex
  simp [hexDigits, List.length_flatMap, length_beBytes] at hlen

theorem getElem?_byId_empty (h : List DocSnapshot) : (viewOf h).byId[""]? = none := by
  rw [getElem?_byId]
  exact Lib.last?_eq_none.mpr fun t _ => beq_false_of_ne (docIdText_ne_empty t.docId)

/-- A document that is there has a last snapshot, which is kept. -/
theorem exists_lastOfDoc (hs : s ∈ h) : ∃ t, lastOfDoc s.docId h = some t ∧ t.docId = s.docId ∧
    t ∈ Lib.latest DocSnapshot.docId h := by
  obtain ⟨t, ht⟩ := Lib.last?_isSome (p := fun y : DocSnapshot => y.docId == s.docId) hs
    (beq_self_eq_true _)
  have hid : t.docId = s.docId := Lib.lastOf_key ht
  exact ⟨t, ht, hid, Lib.mem_latest.mpr (by rw [hid]; exact ht)⟩

theorem byId_of_mem_latest (ht : t ∈ Lib.latest DocSnapshot.docId h) :
    (viewOf h).byId[Store.docIdText t.docId]? = some t := by
  rw [getElem?_byId_docId]
  exact Lib.mem_latest.mp ht

/-! ### What a name answers -/

theorem get_of_lastNamed {n : String} (hn : n ≠ "") (hs : lastNamed n h = some s) :
    (viewOf h).get n = (viewOf h).byId[Store.docIdText s.docId]? := by
  unfold DocumentView.get
  rw [getElem?_byName h hn, hs]
  rfl

theorem get_of_lastNamed_none {n : String} (hs : lastNamed n h = none) :
    (viewOf h).get n = (viewOf h).byId[n]? := by
  unfold DocumentView.get
  by_cases hn : n = ""
  · rw [hn, getElem?_byName_empty]
  · rw [getElem?_byName h hn, hs]
    rfl

theorem exists_of_lastNamed {n : String} (hn : n ≠ "") (hs : lastNamed n h = some s) :
    (viewOf h).exists_ n =
      (viewOf h).byId[Store.docIdText s.docId]?.any fun snap => !snap.deleted := by
  unfold DocumentView.exists_
  rw [getElem?_byName h hn, hs]
  rfl

theorem exists_of_lastNamed_none {n : String} (hs : lastNamed n h = none) :
    (viewOf h).exists_ n = false := by
  unfold DocumentView.exists_
  have hname : (viewOf h).byName[n]? = none := by
    by_cases hn : n = ""
    · rw [hn, getElem?_byName_empty]
    · rw [getElem?_byName h hn, hs]
      rfl
  rw [hname, Option.getD_none, getElem?_byId_empty]
  rfl

/-- **Under a settled name the rebuild answers the same**, or is asked for nothing. -/
theorem same_of_settled {n : String} (hn : n ≠ "") (hs : lastNamed n h = some s)
    (hset : StillLast h n s ∨ Traceless decl h n s) :
    (viewOf h).get n = (viewOf (rebuilt h)).get n ∧
      (viewOf h).exists_ n = (viewOf (rebuilt h)).exists_ n ∧
      (graphOf decl h)[n]? = (graphOf decl (rebuilt h))[n]? := by
  rw [getElem?_edges, getElem?_edges]
  rcases hset with ⟨hdoc, hlive⟩ | ⟨rfl, ⟨t, ht, hdel⟩, hno, hedges⟩
  · have hs' : lastNamed n (rebuilt h) = some s := by
      refine last?_rebuilt hs hdoc (hlive.imp_right fun hall t ht hname => ?_)
      exact hall t ht (beq_iff_eq.mp hname)
    rw [get_of_lastNamed hn hs, get_of_lastNamed hn hs', exists_of_lastNamed hn hs,
      exists_of_lastNamed hn hs', byId_rebuilt, hs, hs']
    exact ⟨rfl, rfl, rfl⟩
  · have hs' : lastNamed (Store.docIdText s.docId) (rebuilt h) = none :=
      last?_rebuilt_none fun t ht => beq_false_of_ne (hno t ht)
    rw [get_of_lastNamed hn hs, get_of_lastNamed_none hs', exists_of_lastNamed hn hs,
      exists_of_lastNamed_none hs', byId_rebuilt, hs, hs', getElem?_byId_docId, ht]
    refine ⟨rfl, ?_, hedges⟩
    rw [Option.any_some, hdel]
    rfl

/-- A name that no document ever had. -/
theorem same_of_unnamed {n : String} (hs : lastNamed n h = none) :
    (viewOf h).get n = (viewOf (rebuilt h)).get n ∧
      (viewOf h).exists_ n = (viewOf (rebuilt h)).exists_ n ∧
      (graphOf decl h)[n]? = (graphOf decl (rebuilt h))[n]? := by
  have hs' : lastNamed n (rebuilt h) = none := last?_rebuilt_none fun t ht =>
    Lib.last?_eq_none.mp hs t ((Lib.latest_sublist _ h).subset ht)
  rw [get_of_lastNamed_none hs, get_of_lastNamed_none hs', exists_of_lastNamed_none hs,
    exists_of_lastNamed_none hs', byId_rebuilt, getElem?_edges, getElem?_edges, hs, hs']
  exact ⟨rfl, rfl, rfl⟩

/-- The empty name: documents may have it, but nothing leads to it. -/
theorem same_of_empty : (viewOf h).get "" = (viewOf (rebuilt h)).get "" ∧
    (viewOf h).exists_ "" = (viewOf (rebuilt h)).exists_ "" ∧
    (graphOf decl h)[""]? = (graphOf decl (rebuilt h))[""]? := by
  have hedges : ∀ h' : List DocSnapshot, (graphOf decl h')[""]? = none := by
    intro h'
    rw [getElem?_edges]
    cases hs : lastNamed "" h' with
    | none => rfl
    | some s => exact RelationshipIndex.edgesOf_empty_name (Lib.lastOf_key hs)
  refine ⟨?_, ?_, by rw [hedges, hedges]⟩
  · unfold DocumentView.get
    rw [getElem?_byName_empty, getElem?_byName_empty, byId_rebuilt]
  · unfold DocumentView.exists_
    rw [getElem?_byName_empty, getElem?_byName_empty, byId_rebuilt]

theorem sameAnswers_of_settled (hset : Settled decl h) : SameAnswers decl h (rebuilt h) := by
  have hall : ∀ n, (viewOf h).get n = (viewOf (rebuilt h)).get n ∧
      (viewOf h).exists_ n = (viewOf (rebuilt h)).exists_ n ∧
      (graphOf decl h)[n]? = (graphOf decl (rebuilt h))[n]? := by
    intro n
    by_cases hn : n = ""
    · rw [hn]
      exact same_of_empty
    · cases hs : lastNamed n h with
      | none => exact same_of_unnamed hs
      | some s => exact same_of_settled hn hs (hset n s hn hs)
  have hgraph : graphOf decl h = graphOf decl (rebuilt h) :=
    Std.ExtTreeMap.ext_getElem? fun {n} => (hall n).2.2
  refine ⟨fun n => (hall n).1, fun n => (hall n).2.1, fun model filter => ?_, fun model => ?_,
    fun source field => by rw [hgraph], fun target field => by rw [hgraph]⟩
  · unfold DocumentView.find
    rw [byId_rebuilt]
  · unfold DocumentView.count
    rw [byId_rebuilt]

/-! ### What goes wrong under an unsettled name -/

/-- The last snapshot of the name is deleted, and a live document has it: the name is dead. -/
theorem exists_differs {n : String} (hn : n ≠ "") (hs : lastNamed n h = some s)
    (hdoc : lastOfDoc s.docId h = some s) (hdel : s.deleted = true)
    (ht : t ∈ Lib.latest DocSnapshot.docId h) (hname : t.name = n) (hlive : t.deleted = false) :
    (viewOf h).exists_ n ≠ (viewOf (rebuilt h)).exists_ n := by
  -- the rebuild ends with a live document of the name
  have hin : t ∈ (Lib.latest DocSnapshot.docId h).filter (!·.deleted) :=
    List.mem_filter.mpr ⟨ht, by rw [hlive]; rfl⟩
  obtain ⟨u, hu⟩ := Lib.last?_isSome (p := fun y : DocSnapshot => y.name == n) hin
    (beq_iff_eq.mpr hname)
  have hu' : lastNamed n (rebuilt h) = some u := by
    unfold lastNamed Lib.lastOf rebuilt
    rw [Lib.last?_append, hu, Option.some_or]
  obtain ⟨hmem, hudel⟩ := List.mem_filter.mp (Lib.last?_mem hu).1
  rw [exists_of_lastNamed hn hs, exists_of_lastNamed hn hu', byId_rebuilt, byId_of_mem_latest hmem,
    getElem?_byId_docId, hdoc, Option.any_some, Option.any_some, hdel, hudel]
  exact Bool.false_ne_true

/-- **The last snapshot of the name is not the last of its document**: the name is left behind. -/
theorem traceless_of_sameAnswers (hsame : SameAnswers decl h (rebuilt h)) {n : String} (hn : n ≠ "")
    (hs : lastNamed n h = some s) (hdoc : lastOfDoc s.docId h ≠ some s) :
    Traceless decl h n s := by
  obtain ⟨t, ht, hid, hmem⟩ := exists_lastOfDoc (Lib.last?_mem hs).1
  -- the document has another name by now
  have hrenamed : t.name ≠ n := by
    intro hname
    refine hdoc ?_
    rw [ht, Lib.last?_unique ht hs (beq_iff_eq.mpr hname) (beq_self_eq_true _)]
  have hget : (viewOf h).get n = some t := by
    rw [get_of_lastNamed hn hs, getElem?_byId_docId, ht]
  have hget' := hsame.get n
  rw [hget] at hget'
  cases hs' : lastNamed n (rebuilt h) with
  | some u =>
    have humem := mem_rebuilt.mp (Lib.last?_mem hs').1
    rw [get_of_lastNamed hn hs', byId_rebuilt, byId_of_mem_latest humem] at hget'
    refine absurd ?_ hrenamed
    rw [Option.some.inj hget']
    exact Lib.lastOf_key hs'
  | none =>
    rw [get_of_lastNamed_none hs', byId_rebuilt, getElem?_byId] at hget'
    have htext : Store.docIdText t.docId = n := beq_iff_eq.mp (Lib.last?_mem hget'.symm).2
    have hexists := hsame.exists_ n
    rw [exists_of_lastNamed hn hs, exists_of_lastNamed_none hs', getElem?_byId_docId, ht,
      Option.any_some, Bool.not_eq_false'] at hexists
    have hno : ∀ u ∈ Lib.latest DocSnapshot.docId h, u.name ≠ n := fun u hu =>
      ne_of_beq_false (Lib.last?_eq_none.mp hs' u (mem_rebuilt.mpr hu))
    have hedges : (graphOf decl h)[n]? = RelationshipIndex.edgesOf decl s := by
      rw [getElem?_edges, hs]
      rfl
    have hnone : (graphOf decl (rebuilt h))[n]? = none := by
      rw [getElem?_edges, hs']
      rfl
    refine ⟨?_, ⟨t, ht, hexists⟩, hno, ?_⟩
    · rw [← htext, hid]
    · rw [← hedges]
      refine RelationshipIndex.eq_none_of_outgoing ?_ fun field => ?_
      · rw [hedges]
        exact RelationshipIndex.edged_edgesOf decl s
      · rw [hsame.outgoing]
        unfold RelationshipIndex.outgoing
        rw [hnone]
        rfl

/-- A snapshot of the sample document under that name. -/
def snapNamed (name : String) (ts : U64) : DocSnapshot where
  docId := Sample.docId
  name := name
  model := openRef
  fields := ∅
  deleted := false
  ts := ts

/-- The document is called `draft`, then `final`. -/
def renamedDraft : List DocSnapshot := [snapNamed "draft" 1, snapNamed "final" 2]

theorem renamedDraft_exists : (viewOf renamedDraft).exists_ "draft" = true ∧
    (viewOf (rebuilt renamedDraft)).exists_ "draft" = false := by
  decide +kernel

end PhReactor
