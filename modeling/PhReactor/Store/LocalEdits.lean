/-
  Concurrent LOCAL edits of one document (`update_field`, `delete_field`, `delete_doc`).

  Each of these calls builds its action under one lock acquisition and applies it under the next.
  In between other calls may build and apply theirs, so two actions can carry the SAME vector
  clock; `apply_op` then takes the one that comes second for a repeat of the first and drops it,
  while its caller is told that all went well.

  1. **What the calls are for.**  `Edit.run` is the sequential meaning of a call, on what a reader
     is shown of a document (`Shown`): set a field, remove a field, remove the document.

  2. **What one application does.**  An action is folded in at its canonical place: on the entry
     `Inner.meets`, with the logged actions `Inner.ahead` folded in after it (`settled_meets`).
     `Edit.Lands` says when the edit is then what the reader sees: its field is replaced there, and
     what follows leaves it alone.

  3. **Sessions.**  `Session` interleaves the two halves of any number of calls in any order.  If
     every application lands, the document shows the edits in the order in which they were APPLIED
     (`local_edits_linearize`); else it need not (`second_edit_is_lost`).  A call that nothing
     interrupts always lands (`uncontended_edit_lands`, `shown_call`).
-/
import PhReactor.Store.Deletion
import PhReactor.Store.Snapshots
import PhReactor.Store.Timestamps

set_option linter.unusedSectionVars false

namespace PhReactor

section

/-! ## Edits and what a reader is shown -/

/-- One local call on a document: `update_field`, `delete_field` or `delete_doc`. -/
inductive Edit where
  | set (field : String) (value : Value)
  | unset (field : String)
  | drop
  deriving DecidableEq

namespace Edit

/-- The kind of the action that the call builds. -/
def kind : Edit → String
  | .set _ _ => "set"
  | .unset _ => "delete"
  | .drop => "delete"

/-- The payload of the action that the call builds. -/
def payload : Edit → Value
  | .set field value => Store.setPayload field value
  | .unset field => .object [("field", .string field)]
  | .drop => .object []

def field : Edit → Option String
  | .set field _ => some field
  | .unset field => some field
  | .drop => none

def value : Edit → Option Value
  | .set _ value => some value
  | .unset _ => none
  | .drop => none

end Edit

/-- What `get` shows of a document: the values of its live fields, and its name under the name
    key. -/
abbrev Shown := String → Option Value

/-- What a reader of field `k` finds in an entry. -/
def Entry.read (e : Entry) (k : String) : Option Value :=
  if k = nameKey then some (.string e.doc.live.name) else (e.doc.live.fields[k]?).map Field.value

/-- What is shown of an entry; nothing when the document is deleted. -/
def Entry.shown (e : Entry) : Option Shown := if e.deleted then none else some e.read

/-- What a reader of field `k` finds after `v` was written to it.  A name is a string. -/
def storedAs (k : String) (v : Value) : Value :=
  if k = nameKey then .string (v.asStr?.getD "") else v

/-- **The sequential meaning of a call.**  A name cannot be removed, and a deleted document stays
    deleted. -/
def Edit.run (sh : Option Shown) : Edit → Option Shown
  | .set k v => sh.map fun sh => Function.update sh k (some (storedAs k v))
  | .unset k => sh.map fun sh => if k = nameKey then sh else Function.update sh k none
  | .drop => none

/-- The edit is what a reader of its field finds. -/
def Edit.ReadBack (sh : Shown) : Edit → Prop
  | .set k v => sh k = some (storedAs k v)
  | .unset k => k ≠ nameKey → sh k = none
  | .drop => False

/-- The edit leaves what it writes for the next reader. -/
theorem Edit.readBack_run {edit : Edit} {o : Option Shown} {sh : Shown}
    (h : edit.run o = some sh) : edit.ReadBack sh := by
  cases edit with
  | drop => exact nomatch h
  | set k v =>
    obtain ⟨sh₀, -, rfl⟩ := Option.map_eq_some_iff.mp h
    exact Function.update_self ..
  | unset k =>
    obtain ⟨sh₀, -, rfl⟩ := Option.map_eq_some_iff.mp h
    intro hk
    rw [if_neg hk]
    exact Function.update_self ..

/-- An edit of one field leaves every other as it was. -/
theorem Edit.run_some {edit : Edit} {o : Option Shown} {sh : Shown} (h : edit.run o = some sh) :
    ∃ sh₀, o = some sh₀ ∧ ∀ k, edit.field ≠ some k → sh k = sh₀ k := by
  cases edit with
  | drop => exact nomatch h
  | set k' v =>
    obtain ⟨sh₀, ho, rfl⟩ := Option.map_eq_some_iff.mp h
    refine ⟨sh₀, ho, fun k hk => ?_⟩
    exact Function.update_of_ne (fun heq => hk (by rw [heq]; rfl)) _ _
  | unset k' =>
    obtain ⟨sh₀, ho, rfl⟩ := Option.map_eq_some_iff.mp h
    refine ⟨sh₀, ho, fun k hk => ?_⟩
    split
    · rfl
    · exact Function.update_of_ne (fun heq => hk (by rw [heq]; rfl)) _ _

theorem Edit.ReadBack.congr {edit : Edit} {sh sh' : Shown} (h : edit.ReadBack sh)
    (heq : ∀ k, edit.field = some k → sh' k = sh k) : edit.ReadBack sh' := by
  cases edit with
  | drop => exact h
  | set k v => exact (heq k rfl).trans h
  | unset k => exact fun hk => (heq k rfl).trans (h hk)

/-- **The last edit of a field is the one read back.** -/
theorem readBack_foldl {edit : Edit} (l : List Edit) (hl : ∀ e ∈ l, e.field ≠ edit.field)
    {o : Option Shown} (hread : ∀ sh, o = some sh → edit.ReadBack sh) {sh : Shown}
    (h : l.foldl Edit.run o = some sh) : edit.ReadBack sh := by
  induction l generalizing o with
  | nil => exact hread sh h
  | cons next l ih =>
    refine ih (fun e he => hl e (List.mem_cons_of_mem next he)) (fun sh' h' => ?_) h
    obtain ⟨sh₀, ho, hsame⟩ := Edit.run_some h'
    refine (hread sh₀ ho).congr fun k hk => hsame k ?_
    rw [← hk]
    exact hl next List.mem_cons_self

/-! ## One action of `open@1` -/

/-- What an `open@1` action on field `kb` does to a field. -/
theorem fields_open {e : Entry} (hd : e.deleted = false) {b : Action} {kb : String}
    (hkb : (Open.op b).key = some kb) {k : String} (hk : k ≠ nameKey) :
    (applyOpsToEntry e .open b).1.doc.fields[k]? =
      if kb = k then mergeField e.doc.fields[k]? (Open.op b) else e.doc.fields[k]? := by
  have hops : ∀ op ∈ [Open.op b], op.key ≠ none := by
    intro op hop
    rw [List.mem_singleton.mp hop, hkb]
    exact fun h => nomatch h
  have hred : Model.open.reduce e.doc b = .ok [Open.op b] := rfl
  rw [fields_applyOpsToEntry hred hd hops hk]
  by_cases hkk : kb = k
  · rw [if_pos hkk, List.find?_cons_of_pos (by rw [hkb, hkk]; exact beq_self_eq_true _)]
    rfl
  · rw [if_neg hkk, List.find?_cons_of_neg (by rw [hkb]; simpa using hkk)]
    rfl

/-- What it does to the name: only an upsert of the name key changes it. -/
theorem name_open {e : Entry} (hd : e.deleted = false) (hl : Lifted e.doc) {b : Action}
    {kb : String} (hkb : (Open.op b).key = some kb) :
    (applyOpsToEntry e .open b).1.doc.name =
      if kb = nameKey then ((Open.op b).value.map fun v => v.asStr?.getD "").getD e.doc.name
      else e.doc.name := by
  have hops : ∀ op ∈ [Open.op b], op.key ≠ none := by
    intro op hop
    rw [List.mem_singleton.mp hop, hkb]
    exact fun h => nomatch h
  have hred : Model.open.reduce e.doc b = .ok [Open.op b] := rfl
  rw [name_applyOpsToEntry hred hd hops hl]
  by_cases hkk : kb = nameKey
  · rw [if_pos hkk, List.find?_cons_of_pos (by rw [hkb, hkk]; exact beq_self_eq_true _)]
    cases hv : (Open.op b).value with
    | none => simp [hv]
    | some v => simp [hv]
  · rw [if_neg hkk, List.find?_cons_of_neg (by rw [hkb]; simpa using hkk)]
    rfl

theorem deleted_open (e : Entry) (b : Action) :
    (applyOpsToEntry e .open b).1.deleted = (e.deleted || (Open.op b).key.isNone) := by
  have hred : Model.open.reduce e.doc b = .ok [Open.op b] := rfl
  rw [deleted_applyOpsToEntry_ok hred]
  simp

/-! ## Two entries that differ in one field -/

/-- Two live entries that differ in field `k` at most; in the name, if `k` is the name key. -/
structure Apart (k : String) (x y : Entry) : Prop where
  liveLeft : x.deleted = false
  liveRight : y.deleted = false
  liftedLeft : Lifted x.doc
  liftedRight : Lifted y.doc
  fields : ∀ k' ≠ k, x.doc.fields[k']? = y.doc.fields[k']?
  name : k ≠ nameKey → x.doc.name = y.doc.name

/-- The action does not touch field `k` of `y`: it writes another, or is stale there. -/
def Passes (k : String) (y : Entry) (b : Action) : Prop :=
  ∃ kb, (Open.op b).key = some kb ∧ (kb = k → k ≠ nameKey ∧
    ∃ f, y.doc.fields[k]? = some f ∧ f.version.covers b.clock = true)

/-- Field `k` is the same in both entries; the name, if `k` is the name key. -/
structure SameAt (k : String) (y y' : Entry) : Prop where
  field : k ≠ nameKey → y'.doc.fields[k]? = y.doc.fields[k]?
  name : k = nameKey → y'.doc.name = y.doc.name

theorem SameAt.trans {k : String} {y y' y'' : Entry} (h : SameAt k y y') (h' : SameAt k y' y'') :
    SameAt k y y'' :=
  ⟨fun hk => (h'.field hk).trans (h.field hk), fun hk => (h'.name hk).trans (h.name hk)⟩

theorem Passes.of_sameAt {k : String} {y y' : Entry} {b : Action} (h : Passes k y b)
    (hs : SameAt k y y') : Passes k y' b := by
  obtain ⟨kb, hkb, hstale⟩ := h
  refine ⟨kb, hkb, fun hkk => ?_⟩
  obtain ⟨hk, f, hf, hcov⟩ := hstale hkk
  exact ⟨hk, f, by rw [hs.field hk]; exact hf, hcov⟩

/-- **One action that passes field `k`** keeps two entries apart there only, and leaves it as it
    is in the second. -/
theorem Apart.after_open {k : String} {x y : Entry} (h : Apart k x y) {b : Action}
    (hp : Passes k y b) :
    Apart k (applyOpsToEntry x .open b).1 (applyOpsToEntry y .open b).1 ∧
      SameAt k y (applyOpsToEntry y .open b).1 := by
  obtain ⟨kb, hkb, hstale⟩ := hp
  have hlive : ∀ e : Entry, e.deleted = false → (applyOpsToEntry e .open b).1.deleted = false := by
    intro e he
    rw [deleted_open, he, hkb]
    rfl
  refine ⟨⟨hlive x h.liveLeft, hlive y h.liveRight, lifted_applyOpsToEntry h.liftedLeft _ _,
    lifted_applyOpsToEntry h.liftedRight _ _, fun k' hk' => ?_, fun hk => ?_⟩,
    ⟨fun hk => ?_, fun hk => ?_⟩⟩
  · by_cases hn : k' = nameKey
    · rw [hn]
      exact (lifted_applyOpsToEntry h.liftedLeft _ _).trans
        (lifted_applyOpsToEntry h.liftedRight _ _).symm
    · rw [fields_open h.liveLeft hkb hn, fields_open h.liveRight hkb hn, h.fields k' hk']
  · rw [name_open h.liveLeft h.liftedLeft hkb, name_open h.liveRight h.liftedRight hkb, h.name hk]
  · rw [fields_open h.liveRight hkb hk]
    by_cases hkk : kb = k
    · obtain ⟨-, f, hf, hcov⟩ := hstale hkk
      rw [if_pos hkk, hf]
      exact if_pos hcov
    · rw [if_neg hkk]
  · rw [name_open h.liveRight h.liftedRight hkb, if_neg]
    intro hkn
    exact (hstale (hkn.trans hk.symm)).1 hk

variable [Primitives]

theorem foldStep_open {r : ModelRegistry} {b : Action} (hm : r.find b.model = some .open)
    (e : Entry) : SameDoc (foldStep r e b) (applyOpsToEntry e .open b).1 := by
  rw [foldStep_eq hm]
  exact ⟨rfl, rfl⟩

theorem Apart.congr {k : String} {x y x' y' : Entry} (h : Apart k x y) (hx : SameDoc x' x)
    (hy : SameDoc y' y) : Apart k x' y' := by
  refine ⟨?_, ?_, ?_, ?_, ?_, ?_⟩
  · rw [hx.deleted]; exact h.liveLeft
  · rw [hy.deleted]; exact h.liveRight
  · rw [hx.doc]; exact h.liftedLeft
  · rw [hy.doc]; exact h.liftedRight
  · rw [hx.doc, hy.doc]; exact h.fields
  · rw [hx.doc, hy.doc]; exact h.name

/-- The same for a run of such actions. -/
theorem Apart.after_foldl {r : ModelRegistry} {k : String} : ∀ (l : List Action) {x y : Entry},
    Apart k x y → (∀ b ∈ l, r.find b.model = some .open) → (∀ b ∈ l, Passes k y b) →
    Apart k (l.foldl (foldStep r) x) (l.foldl (foldStep r) y) ∧
      SameAt k y (l.foldl (foldStep r) y) := by
  intro l
  induction l with
  | nil => exact fun h _ _ => ⟨h, fun _ => rfl, fun _ => rfl⟩
  | cons b l ih =>
    intro x y h hm hp
    obtain ⟨hnext, hsame⟩ := h.after_open (hp b List.mem_cons_self)
    have hx := foldStep_open (hm b List.mem_cons_self) x
    have hy := foldStep_open (hm b List.mem_cons_self) y
    have hsame' : SameAt k y (foldStep r y b) :=
      ⟨fun hk => by rw [hy.doc]; exact hsame.field hk,
        fun hk => by rw [hy.doc]; exact hsame.name hk⟩
    obtain ⟨hapart, hrest⟩ := ih (hnext.congr hx hy)
      (fun c hc => hm c (List.mem_cons_of_mem b hc))
      (fun c hc => (hp c (List.mem_cons_of_mem b hc)).of_sameAt hsame')
    exact ⟨hapart, hsame'.trans hrest⟩

/-- What is read in the second entry: the same as in the first, except at `k`. -/
theorem Apart.shown {k : String} {x y : Entry} (h : Apart k x y) :
    y.shown = x.shown.map fun sh => Function.update sh k (y.read k) := by
  unfold Entry.shown
  rw [h.liveLeft, h.liveRight]
  refine congrArg some (funext fun k' => ?_)
  show y.read k' = Function.update x.read k (y.read k) k'
  by_cases hk : k' = k
  · rw [hk, Function.update_self]
  · rw [Function.update_of_ne hk]
    unfold Entry.read
    by_cases hn : k' = nameKey
    · rw [if_pos hn, if_pos hn]
      exact congrArg (fun n => some (Value.string n)) (h.name fun h => hk (hn.trans h.symm)).symm
    · rw [if_neg hn, if_neg hn]
      unfold Doc.live
      rw [Std.ExtTreeMap.getElem?_filter', Std.ExtTreeMap.getElem?_filter', h.fields k' hk]

/-! ## Where an action is folded in -/

/-- The entry that `a` meets: in order the one there is, else the fold of what sorts before `a`. -/
def Inner.meets (s : Inner) (a : Action) : Entry :=
  if s.outOfOrder a then
    canonFold s.models (s.baseEntry a.docId)
      ((s.entryFor a.docId).log.filter fun b => !decide (canonKey a < canonKey b))
  else s.entryFor a.docId

/-- The logged actions that are folded in after `a`. -/
def Inner.ahead (s : Inner) (a : Action) : List Action :=
  if s.outOfOrder a then
    (s.entryFor a.docId).log.filter fun b => decide (canonKey a < canonKey b)
  else []

/-- **The entry before and after an accepted action**: the fold of what is ahead, from the entry
    that the action meets, without and with it. -/
theorem settled_meets {s : Inner} {a : Action} (hacc : s.Accepted a .open)
    (hl : Lifted (s.entryFor a.docId).doc)
    (hfold : s.outOfOrder a = true →
      FoldInv s.models (s.baseEntry a.docId) (s.entryFor a.docId)) :
    Lifted (s.meets a).doc ∧
      SameDoc (s.entryFor a.docId) ((s.ahead a).foldl (foldStep s.models) (s.meets a)) ∧
      SameDoc (s.settled a .open)
        ((s.ahead a).foldl (foldStep s.models) (applyOpsToEntry (s.meets a) .open a).1) := by
  unfold Inner.meets Inner.ahead
  cases hord : s.outOfOrder a with
  | false =>
    rw [Inner.settled_of_inOrder hord]
    have happ := (sameDoc_stamped (s.entryFor a.docId) a).after_applyOps .open a
    exact ⟨hl, SameDoc.refl _, happ.doc, happ.deleted⟩
  | true =>
    have hinv := hfold hord
    have hsorted := hinv.sorted
    have hearlier : Lib.KeySorted canonKey ((s.entryFor a.docId).log.filter fun b =>
        !decide (canonKey a < canonKey b)) := hsorted.sublist List.filter_sublist
    refine ⟨lifted_canonFold _ hinv.lifted _, ?_, ?_⟩
    · -- the log is the part before `a` and the part after it
      have hstate := hinv.state
      unfold canonFold at hstate
      rw [show sortLog _ = (s.entryFor a.docId).log from hsorted.canonSort_eq,
        ← hsorted.filter_append a, List.foldl_append] at hstate
      unfold canonFold
      rw [if_pos rfl, if_pos rfl, show sortLog _ = _ from hearlier.canonSort_eq]
      exact hstate
    · obtain ⟨hset, -⟩ := foldInv_settled hacc hinv
      have hstate := hset.state
      rw [log_settled hsorted, canonFold_sortLog] at hstate
      unfold canonFold at hstate
      rw [show sortLog _ = _ from hsorted.canonSort_concat_filter a, List.foldl_append,
        List.foldl_cons] at hstate
      unfold canonFold
      rw [if_pos rfl, if_pos rfl, show sortLog _ = _ from hearlier.canonSort_eq]
      exact hstate.trans ((foldStep_open hacc.model _).after_foldl s.models _)

/-! ## When an edit lands -/

/-- The edit `a` of field `k` takes effect where it is folded in, and what is ahead of it is stale
    against it. -/
def Inner.Replaces (s : Inner) (a : Action) (k : String) : Prop :=
  (Open.op a).replaces (s.meets a).doc.fields[k]? = true ∧
    ∀ b ∈ s.ahead a, (Open.op b).key = some k → a.clock.covers b.clock = true

/-- Nothing ahead of `a` writes field `k`. -/
def Inner.Clears (s : Inner) (a : Action) (k : String) : Prop :=
  ∀ b ∈ s.ahead a, (Open.op b).key ≠ some k

/-- **When an edit lands.**  Fields are compared by version; the name has none, so the canonically
    last write of it counts; a field that is not there is not there after its removal. -/
def Edit.Lands (s : Inner) (a : Action) : Edit → Prop
  | .set k _ => if k = nameKey then s.Clears a k else s.Replaces a k
  | .unset k => k = nameKey ∨ s.Replaces a k ∨
      ((s.meets a).doc.fields[k]? = none ∧ s.Clears a k)
  | .drop => True

/-- The condition on one application: the snapshot, if one is due, is written; what a late action
    is folded in before are field edits; and the edit lands, unless the document is deleted. -/
structure Landing (s : Inner) (io : Io) (edit : Edit) (a : Action) : Prop where
  disk : io.snap = .ok
  fold : s.outOfOrder a = true → FoldInv s.models (s.baseEntry a.docId) (s.entryFor a.docId)
  edits : ∀ b ∈ s.ahead a, s.models.find b.model = some .open
  lands : (s.entryFor a.docId).deleted = true ∨ edit.Lands s a

/-- `a` is the action that the call `edit` on `d` has built. -/
structure Carries (d : DocId) (edit : Edit) (a : Action) : Prop where
  docId : a.docId = d
  model : a.model = openRef
  payload : a.payload = edit.payload

theorem Carries.key {d : DocId} {edit : Edit} {a : Action} (h : Carries d edit a) :
    (Open.op a).key = edit.field := by
  unfold Open.op
  rw [h.payload]
  cases edit <;> rfl

theorem Carries.value {d : DocId} {edit : Edit} {a : Action} (h : Carries d edit a) :
    (Open.op a).value = edit.value := by
  unfold Open.op
  rw [h.payload]
  cases edit <;> rfl

theorem SameDoc.shown {e e' : Entry} (h : SameDoc e e') : e.shown = e'.shown := by
  unfold Entry.shown Entry.read
  rw [h.doc, h.deleted]

theorem SameAt.read {k : String} {y y' : Entry} (h : SameAt k y y') : y'.read k = y.read k := by
  unfold Entry.read
  by_cases hk : k = nameKey
  · rw [if_pos hk, if_pos hk]
    exact congrArg (fun n => some (Value.string n)) (h.name hk)
  · rw [if_neg hk, if_neg hk]
    unfold Doc.live
    rw [Std.ExtTreeMap.getElem?_filter', Std.ExtTreeMap.getElem?_filter', h.field hk]

theorem deleted_foldl_open {r : ModelRegistry} : ∀ (l : List Action) (e : Entry),
    (∀ b ∈ l, r.find b.model = some .open) → (l.foldl (foldStep r) e).deleted =
      (e.deleted || l.any fun b => (Open.op b).key.isNone) := by
  intro l
  induction l with
  | nil => exact fun e _ => (Bool.or_false _).symm
  | cons b l ih =>
    intro e hm
    rw [List.foldl_cons, ih _ fun c hc => hm c (List.mem_cons_of_mem b hc),
      (foldStep_open (hm b List.mem_cons_self) e).deleted, deleted_open, List.any_cons,
      Bool.or_assoc]

/-- An edit of field `k` changes at most that field. -/
theorem apart_open {e : Entry} (hd : e.deleted = false) (hl : Lifted e.doc) {a : Action}
    {k : String} (hk : (Open.op a).key = some k) : Apart k e (applyOpsToEntry e .open a).1 := by
  refine ⟨hd, ?_, hl, lifted_applyOpsToEntry hl _ _, fun k' hk' => ?_, fun hn => ?_⟩
  · rw [deleted_open, hd, hk]
    rfl
  · by_cases hn : k' = nameKey
    · rw [hn]
      exact hl.trans (lifted_applyOpsToEntry hl _ _).symm
    · rw [fields_open hd hk hn, if_neg (Ne.symm hk')]
  · rw [name_open hd hl hk, if_neg hn]

/-- What a write of field `k` leaves to read there, when it replaces the field. -/
theorem read_open_of_replaces {e : Entry} (hd : e.deleted = false) {a : Action} {k : String}
    (hk : (Open.op a).key = some k) (hn : k ≠ nameKey)
    (hrep : (Open.op a).replaces e.doc.fields[k]? = true) :
    (applyOpsToEntry e .open a).1.doc.fields[k]? = some (fieldFromOp (Open.op a)) ∧
      (applyOpsToEntry e .open a).1.read k = (Open.op a).value := by
  have hfield : (applyOpsToEntry e .open a).1.doc.fields[k]? = some (fieldFromOp (Open.op a)) := by
    rw [fields_open hd hk hn, if_pos rfl, mergeField_eq_step]
    exact if_pos hrep
  refine ⟨hfield, ?_⟩
  unfold Entry.read Doc.live
  rw [if_neg hn, Std.ExtTreeMap.getElem?_filter', hfield]
  cases hv : (Open.op a).value with
  | none => simp [fieldFromOp, hv, Field.tombstoneFromOp]
  | some v => simp [fieldFromOp, hv, Field.fromOp]

/-- Folded in on the entry it meets, an edit of field `k` that nothing ahead touches leaves in
    that field what it writes, and every other as it was. -/
theorem shown_foldl_open {s : Inner} {a : Action} {k : String} (hk : (Open.op a).key = some k)
    (hl : Lifted (s.meets a).doc) (hd : (s.meets a).deleted = false)
    (hedits : ∀ b ∈ s.ahead a, s.models.find b.model = some .open)
    (hpass : ∀ b ∈ s.ahead a, Passes k (applyOpsToEntry (s.meets a) .open a).1 b) :
    ((s.ahead a).foldl (foldStep s.models) (applyOpsToEntry (s.meets a) .open a).1).shown =
      (((s.ahead a).foldl (foldStep s.models) (s.meets a)).shown).map fun sh =>
        Function.update sh k ((applyOpsToEntry (s.meets a) .open a).1.read k) := by
  obtain ⟨hapart, hsame⟩ := (apart_open hd hl hk).after_foldl (s.ahead a) hedits hpass
  rw [hapart.shown, hsame.read]

/-- What is ahead of an action in the log of a live document are field edits. -/
theorem ahead_keys {s : Inner} {a : Action}
    (hedits : ∀ b ∈ s.ahead a, s.models.find b.model = some .open)
    (hlive : ((s.ahead a).foldl (foldStep s.models) (s.meets a)).deleted = false) :
    (s.meets a).deleted = false ∧ ∀ b ∈ s.ahead a, ∃ kb, (Open.op b).key = some kb := by
  rw [deleted_foldl_open _ _ hedits, Bool.or_eq_false_iff, List.any_eq_false] at hlive
  refine ⟨hlive.1, fun b hb => ?_⟩
  have hkey := hlive.2 b hb
  cases hk : (Open.op b).key with
  | none => rw [hk] at hkey; exact absurd rfl hkey
  | some kb => exact ⟨kb, rfl⟩

theorem Inner.Clears.passes {s : Inner} {a : Action} {k : String} (h : s.Clears a k)
    (hkeys : ∀ b ∈ s.ahead a, ∃ kb, (Open.op b).key = some kb) (y : Entry) :
    ∀ b ∈ s.ahead a, Passes k y b := by
  intro b hb
  obtain ⟨kb, hkb⟩ := hkeys b hb
  exact ⟨kb, hkb, fun hkk => absurd (hkk ▸ hkb) (h b hb)⟩

theorem Inner.Replaces.passes {s : Inner} {a : Action} {k : String} (h : s.Replaces a k)
    (hk : (Open.op a).key = some k) (hn : k ≠ nameKey) (hd : (s.meets a).deleted = false)
    (hkeys : ∀ b ∈ s.ahead a, ∃ kb, (Open.op b).key = some kb) :
    ∀ b ∈ s.ahead a, Passes k (applyOpsToEntry (s.meets a) .open a).1 b := by
  intro b hb
  obtain ⟨kb, hkb⟩ := hkeys b hb
  refine ⟨kb, hkb, fun hkk => ⟨hn, _, (read_open_of_replaces hd hk hn h.1).1, ?_⟩⟩
  rw [fieldFromOp_version]
  exact h.2 b hb (hkk ▸ hkb)

/-- Removing the name is without effect. -/
theorem sameDoc_unset_name {e : Entry} (hd : e.deleted = false) (hl : Lifted e.doc) {a : Action}
    (hk : (Open.op a).key = some nameKey) (hv : (Open.op a).value = none) :
    SameDoc (applyOpsToEntry e .open a).1 e := by
  constructor
  · refine Doc.ext_fields (id_applyOpsToEntry e .open a) ?_ fun k => ?_
    · rw [name_open hd hl hk, if_pos rfl, hv]
      rfl
    · by_cases hn : k = nameKey
      · rw [hn]
        exact (lifted_applyOpsToEntry hl _ _).trans hl.symm
      · rw [fields_open hd hk hn, if_neg (Ne.symm hn)]
  · rw [deleted_open, hk, hd]
    rfl

/-- A write that lands. -/
theorem shown_set {s : Inner} {a : Action} {k : String} {v : Value}
    (hc : Carries a.docId (.set k v) a) (hl : Lifted (s.meets a).doc)
    (hd : (s.meets a).deleted = false)
    (hedits : ∀ b ∈ s.ahead a, s.models.find b.model = some .open)
    (hkeys : ∀ b ∈ s.ahead a, ∃ kb, (Open.op b).key = some kb)
    (h : if k = nameKey then s.Clears a k else s.Replaces a k) :
    ((s.ahead a).foldl (foldStep s.models) (applyOpsToEntry (s.meets a) .open a).1).shown =
      (Edit.set k v).run ((s.ahead a).foldl (foldStep s.models) (s.meets a)).shown := by
  have hkey := hc.key
  suffices hread : (∀ b ∈ s.ahead a, Passes k (applyOpsToEntry (s.meets a) .open a).1 b) ∧
      (applyOpsToEntry (s.meets a) .open a).1.read k = some (storedAs k v) by
    rw [shown_foldl_open hkey hl hd hedits hread.1, hread.2]
    rfl
  by_cases hn : k = nameKey
  · rw [if_pos hn] at h
    refine ⟨h.passes hkeys _, ?_⟩
    unfold Entry.read storedAs
    rw [if_pos hn, if_pos hn]
    show some (Value.string (applyOpsToEntry (s.meets a) .open a).1.doc.name) = _
    rw [name_open hd hl hkey, if_pos hn, hc.value]
    rfl
  · rw [if_neg hn] at h
    refine ⟨h.passes hkey hn hd hkeys, ?_⟩
    rw [(read_open_of_replaces hd hkey hn h.1).2, hc.value, storedAs, if_neg hn]
    rfl

/-- A removal that lands. -/
theorem shown_unset {s : Inner} {a : Action} {k : String} (hc : Carries a.docId (.unset k) a)
    (hl : Lifted (s.meets a).doc) (hd : (s.meets a).deleted = false)
    (hedits : ∀ b ∈ s.ahead a, s.models.find b.model = some .open)
    (hkeys : ∀ b ∈ s.ahead a, ∃ kb, (Open.op b).key = some kb)
    (h : (Edit.unset k).Lands s a) :
    ((s.ahead a).foldl (foldStep s.models) (applyOpsToEntry (s.meets a) .open a).1).shown =
      (Edit.unset k).run ((s.ahead a).foldl (foldStep s.models) (s.meets a)).shown := by
  have hkey := hc.key
  by_cases hn : k = nameKey
  · -- nothing changes where it is folded in, so nothing changes after it
    rw [((sameDoc_unset_name hd hl (hn ▸ hkey) hc.value).after_foldl s.models _).shown]
    simp [Edit.run, hn]
  · suffices hread : (∀ b ∈ s.ahead a, Passes k (applyOpsToEntry (s.meets a) .open a).1 b) ∧
        (applyOpsToEntry (s.meets a) .open a).1.read k = none by
      rw [shown_foldl_open hkey hl hd hedits hread.1, hread.2]
      simp [Edit.run, hn]
    rcases h with h | h | ⟨habs, h⟩
    · exact absurd h hn
    · exact ⟨h.passes hkey hn hd hkeys, (read_open_of_replaces hd hkey hn h.1).2.trans hc.value⟩
    · refine ⟨h.passes hkeys _, ?_⟩
      unfold Entry.read Doc.live
      rw [if_neg hn, Std.ExtTreeMap.getElem?_filter', fields_open hd hkey hn, if_pos rfl, habs]
      simp [mergeField, hc.value, Edit.value]

/-- **One application.**  An edit that lands shows in the document as its sequential meaning. -/
theorem shown_settled {s : Inner} {io : Io} {edit : Edit} {a : Action}
    (hacc : s.Accepted a .open) (hc : Carries a.docId edit a)
    (hl : Lifted (s.entryFor a.docId).doc) (hland : Landing s io edit a) :
    (s.settled a .open).shown = edit.run (s.entryFor a.docId).shown := by
  obtain ⟨hlift, hbefore, hafter⟩ := settled_meets hacc hl hland.fold
  rw [hbefore.shown, hafter.shown]
  have hflag := deleted_foldl_open _ (applyOpsToEntry (s.meets a) .open a).1 hland.edits
  rw [deleted_open] at hflag
  cases hdel : (s.entryFor a.docId).deleted with
  | true =>
    -- deleted before, hence after
    rw [hbefore.deleted, deleted_foldl_open _ _ hland.edits] at hdel
    have hgone : ((s.ahead a).foldl (foldStep s.models)
        (applyOpsToEntry (s.meets a) .open a).1).deleted = true := by
      rw [hflag]
      rcases Bool.or_eq_true_iff.mp hdel with h | h
      · rw [h]; rfl
      · rw [h, Bool.or_true]
    unfold Entry.shown
    rw [hgone, deleted_foldl_open _ _ hland.edits, hdel]
    cases edit <;> rfl
  | false =>
    have hlands : edit.Lands s a := by
      rcases hland.lands with h | h
      · rw [hdel] at h; exact nomatch h
      · exact h
    rw [hbefore.deleted] at hdel
    obtain ⟨hlive, hkeys⟩ := ahead_keys hland.edits hdel
    cases edit with
    | drop =>
      rw [hc.key] at hflag
      unfold Entry.shown
      rw [hflag]
      simp [Edit.field, Edit.run]
    | set k v => exact shown_set hc hlift hlive hland.edits hkeys hlands
    | unset k => exact shown_unset hc hlift hlive hland.edits hkeys hlands

/-! ## Sessions -/

/-- Any number of calls on `d`, each in two halves, in any order.  From `s₀` the store has come to
    `s`; the calls in `flight` have built their actions and not yet applied them; the calls `done`
    have returned without an error, in the order in which they were applied. -/
inductive Session (P : Inner → Io → Edit → Action → Prop) (d : DocId) (s₀ : Inner) :
    Inner → List (Edit × Action) → List Edit → Prop
  | start : Session P d s₀ s₀ [] []
  | build {s : Inner} {flight : List (Edit × Action)} {done : List Edit}
    (h : Session P d s₀ s flight done) (now : U64) (edit : Edit) {a : Action}
    (hb : (s.buildAction now d openRef edit.kind edit.payload).2 = .ok a) :
    Session P d s₀ (s.buildAction now d openRef edit.kind edit.payload).1
      (flight ++ [(edit, a)]) done
  | apply {s : Inner} {flight₁ flight₂ : List (Edit × Action)} {done : List Edit} {edit : Edit}
    {a : Action} (h : Session P d s₀ s (flight₁ ++ (edit, a) :: flight₂) done) (io : Io)
    (hP : P s io edit a) :
    Session P d s₀ (s.applyAction io a).1 (flight₁ ++ flight₂)
      (if (s.applyAction io a).2.isOk then done ++ [edit] else done)
  /-- Whatever else the store does, as long as it leaves `d` and the models alone. -/
  | other {s : Inner} {flight : List (Edit × Action)} {done : List Edit}
    (h : Session P d s₀ s flight done) (ev : Event) (hview : (s.exec ev).view d = s.view d)
    (hmodels : (s.exec ev).models = s.models) : Session P d s₀ (s.exec ev) flight done

theorem carries_build {s : Inner} (hopen : s.models.find openRef = some .open) {now : U64}
    {d : DocId} {edit : Edit} {a : Action}
    (hb : (s.buildAction now d openRef edit.kind edit.payload).2 = .ok a) : Carries d edit a := by
  unfold Inner.buildAction Inner.nextTs at hb
  dsimp only at hb
  cases he : s.entries[d]? with
  | none => rw [he] at hb; exact nomatch hb
  | some e =>
    rw [he] at hb
    rw [← Except.ok.inj hb]
    refine ⟨rfl, ?_, rfl⟩
    show Inner.canonicalModelRef _ openRef = openRef
    unfold Inner.canonicalModelRef
    rw [show ModelRegistry.find _ openRef = some .open from hopen]
    rfl

theorem snapshot_isOk (s : Inner) {io : Io} (hdisk : io.snap = .ok) (d : DocId) :
    (s.snapshot io d).2 = .ok () := by
  unfold Inner.snapshot
  cases s.entries[d]? with
  | none => rfl
  | some e => rw [hdisk]

/-- When the snapshot is written the steps after the fold succeed. -/
theorem isOk_finishApply (s : Inner) {io : Io} (hdisk : io.snap = .ok) (a : Action)
    (any del : Bool) : (s.finishApply io a any del).2.isOk = true := by
  rcases s.finishApply_cases io a any del with ⟨-, hbad⟩ | ⟨-, heq⟩
  · refine absurd ?_ hbad
    unfold Inner.recorded Inner.autoSnapshot
    generalize (if any then (s.persistAction io a).publish a else s.persistAction io a) = t
    split
    · exact snapshot_isOk t hdisk a.docId
    · rfl
  · rw [heq]
    rfl

/-- **The two outcomes of an application**: the call succeeds and the settled entry is in place, or
    it fails and nothing has happened to the document. -/
theorem apply_outcome {s : Inner} {io : Io} {a : Action} (hm : s.models.find a.model = some .open)
    (hdisk : io.snap = .ok)
    (hfold : s.outOfOrder a = true →
      FoldInv s.models (s.baseEntry a.docId) (s.entryFor a.docId)) :
    ((s.applyAction io a).2.isOk = true ∧ s.Accepted a .open ∧
      SameDoc ((s.applyAction io a).1.entryFor a.docId) (s.settled a .open)) ∨
    ((s.applyAction io a).2.isOk = false ∧
      (s.applyAction io a).1.view a.docId = s.view a.docId) := by
  have haccept : ∀ any del, s.Accepted a .open →
      s.applyAction io a = (s.putEntry a.docId (s.settled a .open)).finishApply io a any del →
      (s.applyAction io a).2.isOk = true ∧ s.Accepted a .open ∧
        SameDoc ((s.applyAction io a).1.entryFor a.docId) (s.settled a .open) := by
    intro any del hacc heq
    refine ⟨by rw [heq]; exact isOk_finishApply _ hdisk a any del, hacc, ?_⟩
    have hview : (s.applyAction io a).1.view a.docId =
        View.finish { s.view a.docId with entry := some (s.settled a .open) } io a := by
      rw [heq, Inner.view_finishApply, if_pos rfl, Inner.view_putEntry, if_pos rfl]
    obtain ⟨l, hentry⟩ :=
      View.entry_finish (v := { s.view a.docId with entry := some (s.settled a .open) }) rfl io a
    rw [← hview] at hentry
    rw [entryFor_eq hentry]
    exact ⟨rfl, rfl⟩
  rcases s.applyAction_cases io a with
    ⟨r, -, heq⟩ | ⟨m, r, hadm, hpre, -⟩ | ⟨m, msg, hacc, hres, heq⟩ | ⟨m, hacc, any, del, heq⟩
  · rw [heq]
    exact Or.inr ⟨rfl, rfl⟩
  · -- `open@1` has no precondition
    obtain rfl : m = .open := Option.some.inj (hadm.model.symm.trans hm)
    exact nomatch hpre
  · obtain rfl : m = .open := Option.some.inj (hacc.model.symm.trans hm)
    cases hord : s.outOfOrder a with
    | true => exact absurd (resolves_appended (hfold hord) hacc.model) hres
    | false =>
      obtain ⟨any, del, happ⟩ := Inner.applyAction_of_accepted hacc io
      refine Or.inl (haccept any del hacc ?_)
      rw [happ, hord, Inner.settled_of_inOrder hord]
      rfl
  · obtain rfl : m = .open := Option.some.inj (hacc.model.symm.trans hm)
    exact Or.inl (haccept any del hacc heq)

/-! ### Whole sessions -/

/-- What a session keeps. -/
structure SessionInv (d : DocId) (s₀ s : Inner) (flight : List (Edit × Action))
    (done : List Edit) : Prop where
  models : s.models.find openRef = some .open
  lifted : Lifted (s.entryFor d).doc
  flight : ∀ p ∈ flight, Carries d p.1 p.2
  shown : (s.entryFor d).shown = done.foldl Edit.run (s₀.entryFor d).shown

/-- **Step lemma**: an application that lands. -/
theorem sessionInv_apply {d : DocId} {s₀ s : Inner} {flight₁ flight₂ : List (Edit × Action)}
    {done : List Edit} {edit : Edit} {a : Action} {io : Io}
    (h : SessionInv d s₀ s (flight₁ ++ (edit, a) :: flight₂) done) (hland : Landing s io edit a) :
    SessionInv d s₀ (s.applyAction io a).1 (flight₁ ++ flight₂)
      (if (s.applyAction io a).2.isOk then done ++ [edit] else done) := by
  have hc : Carries d edit a := h.flight (edit, a) (by simp)
  have hflight : ∀ p ∈ flight₁ ++ flight₂, Carries d p.1 p.2 := by
    intro p hp
    refine h.flight p ?_
    rcases List.mem_append.mp hp with hp | hp
    · exact List.mem_append_left _ hp
    · exact List.mem_append_right _ (List.mem_cons_of_mem _ hp)
  obtain rfl := hc.docId
  have hmodels : (s.applyAction io a).1.models.find openRef = some .open := by
    rw [(s.sameSetup_applyAction io a).models]
    exact h.models
  have hm : s.models.find a.model = some .open := by rw [hc.model]; exact h.models
  rcases apply_outcome hm hland.disk hland.fold with ⟨hok, hacc, hsame⟩ | ⟨herr, hview⟩
  · refine ⟨hmodels, ?_, hflight, ?_⟩
    · rw [hsame.doc]
      exact lifted_settled .open h.lifted
    · rw [if_pos hok, List.foldl_append, ← h.shown, hsame.shown,
        shown_settled hacc hc h.lifted hland]
      rfl
  · have hfor := entryFor_congr hview
    refine ⟨hmodels, by rw [hfor]; exact h.lifted, hflight, ?_⟩
    rw [hfor, herr]
    exact h.shown

/-- **Run lemma.** -/
theorem sessionInv_session {d : DocId} {s₀ s : Inner} {flight : List (Edit × Action)}
    {done : List Edit} (hopen : s₀.models.find openRef = some .open)
    (hl : Lifted (s₀.entryFor d).doc) (h : Session Landing d s₀ s flight done) :
    SessionInv d s₀ s flight done := by
  induction h with
  | start => exact ⟨hopen, hl, fun p hp => absurd hp List.not_mem_nil, rfl⟩
  | @build s flight done h now edit a hb ih =>
    -- a build draws a timestamp and touches nothing else
    rw [buildAction_fst]
    refine ⟨ih.models, ih.lifted, fun p hp => ?_, ih.shown⟩
    rcases List.mem_append.mp hp with hp | hp
    · exact ih.flight p hp
    · rw [List.mem_singleton.mp hp]
      exact carries_build ih.models hb
  | apply h io hP ih => exact sessionInv_apply ih hP
  | other h ev hview hmodels ih =>
    have hfor := entryFor_congr hview
    exact ⟨by rw [hmodels]; exact ih.models, by rw [hfor]; exact ih.lifted, ih.flight,
      by rw [hfor]; exact ih.shown⟩

/-- **Local edits are sequential.**  From any state a store can be in, with `open@1` built in, and
    for any number of calls on `d` interleaved in any way: if every application lands, the document
    shows the calls that returned `Ok` one after the other in the order of their applications, and
    of two edits of a field the one applied later is read back. -/
theorem local_edits_linearize {key : SigningKey} {origin : Origin} {extra : List Model}
    {s₀ : Inner} {acc : List Action}
    (hlife : Lifetime (fun _ _ _ => True) (Store.fresh key origin extra) s₀ acc) {d : DocId}
    (hopen : s₀.models.find openRef = some .open) {s : Inner} {flight : List (Edit × Action)}
    {done : List Edit} (h : Session Landing d s₀ s flight done) :
    (s.entryFor d).shown = done.foldl Edit.run (s₀.entryFor d).shown ∧
      ∀ (l₁ : List Edit) (edit : Edit) (l₂ : List Edit), done = l₁ ++ edit :: l₂ →
        (∀ e ∈ l₂, e.field ≠ edit.field) → ∀ sh, (s.entryFor d).shown = some sh →
          edit.ReadBack sh := by
  have hshown := (sessionInv_session hopen (lifted_lifetime hlife d) h).shown
  refine ⟨hshown, fun l₁ edit l₂ hdone hlast sh hsh => ?_⟩
  rw [hshown, hdone, List.foldl_append, List.foldl_cons] at hsh
  exact readBack_foldl l₂ hlast (fun sh' h' => Edit.readBack_run h') hsh

/-! ## Calls that nothing interrupts -/

/-- Nothing the document holds is ahead of the store: fields are within its clock, actions within
    the timestamp mark. -/
structure UpToDate (s : Inner) (d : DocId) : Prop where
  fields : ∀ (k : String) f, (s.entryFor d).doc.fields[k]? = some f →
    (s.entryFor d).clock.covers f.version = true
  log : ∀ b ∈ (s.entryFor d).log, b.ts ≤ s.tsHint

/-- An op one tick above everything the document holds replaces any field that is there, and an
    upsert also one that is not. -/
theorem replaces_tick {e : Entry} {o : Origin} (hcount : (e.clock.get o).val < u64Max)
    (hfields : ∀ (k : String) f, e.doc.fields[k]? = some f → e.clock.covers f.version = true)
    {op : Op} (hclock : op.clock = e.clock.tick o) {k : String}
    (hk : op.value.isSome = true ∨ e.doc.fields[k]?.isSome = true) :
    op.replaces e.doc.fields[k]? = true := by
  cases hf : e.doc.fields[k]? with
  | none =>
    rw [hf] at hk
    exact hk.resolve_right fun h => (nomatch h)
  | some f =>
    have hcov := VecClock.covers_iff.mp (hfields k f hf)
    have hnew : f.version.covers op.clock = false := by
      rw [← Bool.not_eq_true]
      intro h
      have hle := VecClock.covers_iff.mp h o
      rw [hclock, VecClock.get_tick, if_pos rfl] at hle
      exact absurd (hle.trans (hcov o)) (not_le.mpr (lt_add_one hcount))
    have hold : op.clock.covers f.version = true := by
      refine VecClock.covers_iff.mpr fun o' => (hcov o').trans ?_
      rw [hclock, VecClock.get_tick]
      split
      · next ho => rw [ho]; exact (lt_add_one hcount).le
      · exact le_rfl
    show (!f.version.covers op.clock && (op.clock.covers f.version || _)) = true
    rw [hnew, hold]
    rfl

/-- **A call that is applied right after its build lands**, as long as neither counter wraps. -/
theorem uncontended_edit_lands {s : Inner} {d : DocId} (hup : UpToDate s d)
    (hopen : s.models.find openRef = some .open) {now : U64} {edit : Edit} {a : Action}
    (hts : (max s.tsHint now).val < u64Max)
    (hcount : ((s.entryFor d).clock.get s.origin).val < u64Max)
    (hb : (s.buildAction now d openRef edit.kind edit.payload).2 = .ok a) {io : Io}
    (hdisk : io.snap = .ok) :
    Landing (s.buildAction now d openRef edit.kind edit.payload).1 io edit a := by
  have hc := carries_build hopen hb
  obtain ⟨haTs, -, -, e, he, hclock⟩ := buildAction_ok hb
  have hfor := entryFor_eq he
  rw [buildAction_fst]
  obtain rfl := hc.docId
  -- everything in the log has an earlier timestamp
  have horder : (s.nextTs now).1.outOfOrder a = false := by
    unfold Inner.outOfOrder
    rw [show (s.nextTs now).1.entries[a.docId]? = some e from he, Option.bind_some]
    cases hz : e.log.getLast? with
    | none => rfl
    | some z =>
      have hle := hup.log z (by rw [hfor]; exact List.mem_of_getLast? hz)
      have hlt : z.ts < a.ts := by
        rw [haTs]
        exact hle.trans_lt (lt_nextTs hts).1
      refine decide_eq_false fun h => absurd h (lt_asymm ?_)
      exact Prod.Lex.toLex_lt_toLex.mpr (Or.inl hlt)
  have hmeets : (s.nextTs now).1.meets a = s.entryFor a.docId := by
    unfold Inner.meets
    rw [horder]
    rfl
  have hahead : (s.nextTs now).1.ahead a = [] := by
    unfold Inner.ahead
    rw [horder]
    rfl
  have hclear : ∀ k, (s.nextTs now).1.Clears a k := by
    intro k b hb
    rw [hahead] at hb
    exact absurd hb List.not_mem_nil
  have hreplaces : ∀ k, (Open.op a).value.isSome = true ∨ e.doc.fields[k]?.isSome = true →
      (s.nextTs now).1.Replaces a k := by
    intro k hk
    refine ⟨?_, fun b hb => absurd hb (by rw [hahead]; exact List.not_mem_nil)⟩
    rw [hmeets, hfor]
    rw [hfor] at hcount
    exact replaces_tick hcount (fun k f hf => by rw [← hfor] at hf ⊢; exact hup.fields k f hf)
      hclock hk
  refine ⟨hdisk, fun h => ?_, fun b hb => ?_, Or.inr ?_⟩
  · rw [horder] at h
    exact nomatch h
  · rw [hahead] at hb
    exact absurd hb List.not_mem_nil
  · have hvalue := hc.value
    cases edit with
    | drop => exact trivial
    | set k v =>
      show if k = nameKey then _ else _
      split
      · exact hclear k
      · exact hreplaces k (Or.inl (by rw [hvalue]; rfl))
    | unset k =>
      cases hf : e.doc.fields[k]? with
      | none => exact Or.inr (Or.inr ⟨by rw [hmeets, hfor]; exact hf, hclear k⟩)
      | some f => exact Or.inr (Or.inl (hreplaces k (Or.inr (by rw [hf]; rfl))))

/-- The call itself, both halves in a row. -/
def Edit.call (s : Inner) (io : Io) (now : U64) (name : String) :
    Edit → Inner × Except String Action
  | .set field value => Store.updateField s io now name field value
  | .unset field => Store.deleteField s io now name field
  | .drop => Store.deleteDoc s io now name

theorem Edit.call_eq (s : Inner) (io : Io) (now : U64) {name : String} {d : DocId}
    (hname : s.names[name]? = some d) (edit : Edit) :
    edit.call s io now name =
      Store.buildAndApply s io now d openRef edit.kind edit.payload := by
  cases edit
  all_goals
    show Store.onNamed s io now _ name openRef _ _ = _
    unfold Store.onNamed
    rw [hname]
    rfl

/-- **An uninterrupted call has its sequential meaning.** -/
theorem shown_call {s : Inner} {d : DocId} (hl : Lifted (s.entryFor d).doc) (hup : UpToDate s d)
    (hopen : s.models.find openRef = some .open) {name : String}
    (hname : s.names[name]? = some d) {now : U64} (hts : (max s.tsHint now).val < u64Max)
    (hcount : ((s.entryFor d).clock.get s.origin).val < u64Max) {io : Io} (hdisk : io.snap = .ok)
    {edit : Edit} (hok : (edit.call s io now name).2.isOk = true) :
    ((edit.call s io now name).1.entryFor d).shown = edit.run (s.entryFor d).shown := by
  rw [Edit.call_eq s io now hname] at hok ⊢
  unfold Store.buildAndApply at hok ⊢
  cases hb : s.buildAction now d openRef edit.kind edit.payload with
  | mk t r =>
    rw [hb] at hok
    cases r with
    | error e => exact nomatch hok
    | ok a =>
      dsimp only at hok ⊢
      have hbuilt : (s.buildAction now d openRef edit.kind edit.payload).2 = .ok a := by rw [hb]
      have hland := uncontended_edit_lands hup hopen hts hcount hbuilt hdisk
      have hs : Session Landing d s _ ([] ++ (edit, a) :: []) [] :=
        Session.start.build now edit hbuilt
      have hinv := sessionInv_session hopen hl (hs.apply io hland)
      rw [hb] at hinv
      cases happ : t.applyAction io a with
      | mk u r =>
        rw [happ] at hok hinv
        cases r with
        | error e => exact nomatch hok
        | ok res => exact hinv.shown

end

section

open Sample

attribute [local instance] Sample.primitives

/-- Alice's document with a title. -/
def titledStore : Inner :=
  (Store.fresh alice.key alice.name []).execAll (deliver [aliceSets "title" "minutes" 1])

theorem titledStore_life :
    Lifetime (fun _ _ _ => True) (Store.fresh alice.key alice.name []) titledStore
      ([] ++ Happening.acceptedBy (Store.fresh alice.key alice.name [])
        (.event (.applyAction Io.ok (aliceSets "title" "minutes" 1)))) :=
  Lifetime.start.step (.event (.applyAction Io.ok (aliceSets "title" "minutes" 1))) trivial trivial

theorem titledStore_open : titledStore.models.find openRef = some .open := by
  have hmodels : titledStore.models = loadedModels [] :=
    (Inner.sameSetup_applyAction _ Io.ok (aliceSets "title" "minutes" 1)).models.trans
      (Store.fresh_models alice.key alice.name [])
  rw [hmodels]
  exact (openStays_loadedModels fun m hm => absurd hm List.not_mem_nil).found

/-- The first half of a call on the sample document: the state after it, and its action. -/
def firstHalf (s : Inner) (edit : Edit) : Inner × Action :=
  ((s.buildAction 0 docId openRef edit.kind edit.payload).1,
    (s.buildAction 0 docId openRef edit.kind edit.payload).2.toOption.getD groupInit)

theorem firstHalf_ok {s : Inner} {edit : Edit}
    (h : (s.buildAction 0 docId openRef edit.kind edit.payload).2.isOk = true) :
    (s.buildAction 0 docId openRef edit.kind edit.payload).2 = .ok (firstHalf s edit).2 := by
  unfold firstHalf
  cases hres : (s.buildAction 0 docId openRef edit.kind edit.payload).2 with
  | error e => rw [hres] at h; exact nomatch h
  | ok a => rfl

/-- Two calls on the titled document are built before either is applied. -/
def twoBuilt (e₁ e₂ : Edit) : Inner := (firstHalf (firstHalf titledStore e₁).1 e₂).1

/-- The builds have drawn two timestamps. -/
theorem twoBuilt_eq (e₁ e₂ : Edit) :
    twoBuilt e₁ e₂ = ((titledStore.nextTs 0).1.nextTs 0).1 := by
  unfold twoBuilt firstHalf
  rw [buildAction_fst, buildAction_fst]

theorem session_twoBuilt {P : Inner → Io → Edit → Action → Prop} {e₁ e₂ : Edit}
    (h₁ : (titledStore.buildAction 0 docId openRef e₁.kind e₁.payload).2.isOk = true)
    (h₂ : ((firstHalf titledStore e₁).1.buildAction 0 docId openRef e₂.kind
      e₂.payload).2.isOk = true) :
    Session P docId titledStore (twoBuilt e₁ e₂)
      [(e₁, (firstHalf titledStore e₁).2), (e₂, (firstHalf (firstHalf titledStore e₁).1 e₂).2)]
      [] :=
  (Session.start.build 0 e₁ (firstHalf_ok h₁)).build 0 e₂ (firstHalf_ok h₂)

def agenda : Edit := .set "title" (.string "agenda")

def hall : Edit := .set "place" (.string "hall")

def notes : Edit := .set "title" (.string "notes")

/-- The actions of two such calls. -/
def firstAction (e₁ : Edit) : Action := (firstHalf titledStore e₁).2

def secondAction (e₁ e₂ : Edit) : Action := (firstHalf (firstHalf titledStore e₁).1 e₂).2

/-- Two calls on different fields, applied in the opposite order. -/
def crossed : Inner :=
  (((twoBuilt agenda hall).applyAction Io.ok (secondAction agenda hall)).1.applyAction Io.ok
    (firstAction agenda)).1

theorem local_edits_linearize_crossed :
    (crossed.entryFor docId).shown =
        [hall, agenda].foldl Edit.run (titledStore.entryFor docId).shown ∧
      ∀ sh, (crossed.entryFor docId).shown = some sh → hall.ReadBack sh ∧ agenda.ReadBack sh := by
  have hfacts : (titledStore.buildAction 0 docId openRef agenda.kind agenda.payload).2.isOk = true ∧
      ((firstHalf titledStore agenda).1.buildAction 0 docId openRef hall.kind
        hall.payload).2.isOk = true ∧
      ((twoBuilt agenda hall).applyAction Io.ok (secondAction agenda hall)).2.isOk = true ∧
      (((twoBuilt agenda hall).applyAction Io.ok (secondAction agenda hall)).1.applyAction Io.ok
        (firstAction agenda)).2.isOk = true ∧
      (twoBuilt agenda hall).outOfOrder (secondAction agenda hall) = false ∧
      ((twoBuilt agenda hall).applyAction Io.ok (secondAction agenda hall)).1.ahead
        (firstAction agenda) = [secondAction agenda hall] ∧
      (Open.op (secondAction agenda hall)).replaces
        ((twoBuilt agenda hall).meets (secondAction agenda hall)).doc.fields["place"]? = true ∧
      (Open.op (firstAction agenda)).replaces
        (((twoBuilt agenda hall).applyAction Io.ok (secondAction agenda hall)).1.meets
          (firstAction agenda)).doc.fields["title"]? = true ∧
      (Open.op (secondAction agenda hall)).key = some "place" ∧
      (secondAction agenda hall).model = openRef ∧ (firstAction agenda).docId = docId ∧
      plainEvents docId (Store.fresh alice.key alice.name [])
        [.applyAction Io.ok (aliceSets "title" "minutes" 1), .nextTs 0, .nextTs 0,
          .applyAction Io.ok (secondAction agenda hall)] = true := by
    decide +kernel
  obtain ⟨hb₁, hb₂, hok₁, hok₂, hord, hahead, hrep₁, hrep₂, hkey, hmodel, hdoc, hplain⟩ := hfacts
  -- the first application is in order
  have hnil : (twoBuilt agenda hall).ahead (secondAction agenda hall) = [] := by
    unfold Inner.ahead
    rw [hord]
    rfl
  have hland₁ : Landing (twoBuilt agenda hall) Io.ok hall (secondAction agenda hall) := by
    refine ⟨rfl, fun h => ?_, fun b hb => ?_, Or.inr ⟨hrep₁, fun b hb => ?_⟩⟩
    · rw [hord] at h
      exact nomatch h
    · rw [hnil] at hb
      exact absurd hb List.not_mem_nil
    · rw [hnil] at hb
      exact absurd hb List.not_mem_nil
  -- the second is late; what it is folded in before is on another field
  have hland₂ : Landing ((twoBuilt agenda hall).applyAction Io.ok (secondAction agenda hall)).1
      Io.ok agenda (firstAction agenda) := by
    refine ⟨rfl, fun _ => ?_, fun b hb => ?_, Or.inr ⟨hrep₂, fun b hb hk => ?_⟩⟩
    · have hinv : PlainInv docId
          ((twoBuilt agenda hall).applyAction Io.ok (secondAction agenda hall)).1 := by
        rw [twoBuilt_eq]
        exact plainInv_run (run_of_plainEvents _ _ hplain)
      rw [hdoc, Inner.baseEntry_of_none hinv.noSnapshot]
      exact hinv.entryFor
    · rw [hahead, List.mem_singleton] at hb
      rw [hb, hmodel, (Inner.sameSetup_applyAction _ _ _).models, twoBuilt_eq]
      exact titledStore_open
    · rw [hahead, List.mem_singleton] at hb
      rw [hb, hkey] at hk
      exact absurd (Option.some.inj hk) (by decide)
  have hs : Session Landing docId titledStore (twoBuilt agenda hall)
      ([(agenda, firstAction agenda)] ++ (hall, secondAction agenda hall) :: []) [] :=
    session_twoBuilt hb₁ hb₂
  have hs := hs.apply Io.ok hland₁
  rw [if_pos hok₁] at hs
  have hs : Session Landing docId titledStore
      ((twoBuilt agenda hall).applyAction Io.ok (secondAction agenda hall)).1
      ([] ++ (agenda, firstAction agenda) :: []) [hall] := hs
  have hs := hs.apply Io.ok hland₂
  rw [if_pos hok₂] at hs
  obtain ⟨hshown, hread⟩ := local_edits_linearize titledStore_life titledStore_open hs
  exact ⟨hshown, fun sh hsh => ⟨hread [] hall [agenda] rfl (by decide) sh hsh,
    hread [hall] agenda [] rfl (fun e he => absurd he List.not_mem_nil) sh hsh⟩⟩

/-- Two calls on the same field, applied in the order in which they were built. -/
def collided : Inner :=
  (((twoBuilt agenda notes).applyAction Io.ok (firstAction agenda)).1.applyAction Io.ok
    (secondAction agenda notes)).1

/-- **The second edit is lost.**  Both calls return `Ok`; the one applied later is not read back. -/
theorem second_edit_is_lost :
    ¬ ∀ (s₀ : Inner) (acc : List Action),
      Lifetime (fun _ _ _ => True) (Store.fresh alice.key alice.name []) s₀ acc →
      ∀ (d : DocId) (s : Inner) (done : List Edit),
        Session (fun _ io _ _ => io = Io.ok) d s₀ s [] done →
        (∃ order : List Edit, order.Perm done ∧
          (s.entryFor d).shown = order.foldl Edit.run (s₀.entryFor d).shown) ∧
        ∀ (l₁ : List Edit) (edit : Edit) (l₂ : List Edit), done = l₁ ++ edit :: l₂ →
          (∀ e ∈ l₂, e.field ≠ edit.field) → ∀ sh, (s.entryFor d).shown = some sh →
            edit.ReadBack sh := by
  intro h
  have hfacts : (titledStore.buildAction 0 docId openRef agenda.kind agenda.payload).2.isOk = true ∧
      ((firstHalf titledStore agenda).1.buildAction 0 docId openRef notes.kind
        notes.payload).2.isOk = true ∧
      ((twoBuilt agenda notes).applyAction Io.ok (firstAction agenda)).2.isOk = true ∧
      (((twoBuilt agenda notes).applyAction Io.ok (firstAction agenda)).1.applyAction Io.ok
        (secondAction agenda notes)).2.isOk = true ∧
      (collided.entryFor docId).deleted = false ∧
      (collided.entryFor docId).read "title" = some (.string "agenda") := by
    decide +kernel
  obtain ⟨hb₁, hb₂, hok₁, hok₂, hlive, hread⟩ := hfacts
  have hs : Session (fun _ io _ _ => io = Io.ok) docId titledStore (twoBuilt agenda notes)
      ([] ++ (agenda, firstAction agenda) :: [(notes, secondAction agenda notes)]) [] :=
    session_twoBuilt hb₁ hb₂
  have hs := hs.apply Io.ok rfl
  rw [if_pos hok₁] at hs
  have hs : Session (fun _ io _ _ => io = Io.ok) docId titledStore
      ((twoBuilt agenda notes).applyAction Io.ok (firstAction agenda)).1
      ([] ++ (notes, secondAction agenda notes) :: []) [agenda] := hs
  have hs := hs.apply Io.ok rfl
  rw [if_pos hok₂] at hs
  have hback := (h _ _ titledStore_life docId collided [agenda, notes] hs).2 [agenda] notes [] rfl
    (fun e he => absurd he List.not_mem_nil) (collided.entryFor docId).read
    (by unfold Entry.shown; rw [hlive]; rfl)
  have hback : (collided.entryFor docId).read "title" = some (.string "notes") := hback
  rw [hread] at hback
  exact absurd hback (by decide)

end

end PhReactor
