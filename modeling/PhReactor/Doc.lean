/-
  The document model: per-field last-writer-wins merge (`src/doc.rs`).

  1. **Vector clocks.**  `VecClock` is the map origin ↦ highest sequence; an absent origin counts
     as `0`, and an entry `0` may also be present (a peer can send one), so two clocks with the
     same counters need not be equal.  `covers` compares counters (`covers_iff`); `merge` is the
     join of the MAPS (`counts_merge`), hence commutative, associative and idempotent on the nose.

  2. **The merge of one field.**  `applyOp` decides between the current field and an incoming op
     by version vector, and by `(ts, origin)` when the versions are concurrent.  `mergeField` is
     that decision alone, on the optional current field; `fields_applyOp` says that an op on key
     `k` is `mergeField` at `k` and nothing elsewhere, and `mergeField_idem` that a second op with
     the stamp of the first never changes anything.
-/
import Mathlib.Data.Prod.Lex
import Mathlib.Data.String.Basic
import Mathlib.Order.Fin.Basic
import Std.Data.ExtTreeMap
import PhReactor.Json
import PhReactor.Lib.TreeMap

namespace PhReactor

/-- A stable document identifier: the 128 bits of a UUID. -/
abbrev DocId := Fin (2 ^ 128)

/-- A peer's identity as an op origin. -/
abbrev Origin := String

/-- A SHA-256 digest, ordered as its 32 bytes are. -/
abbrev Hash32 := Fin (2 ^ 256)

/-- An ed25519 signature: 64 bytes. -/
abbrev Sig := Fin (2 ^ 512)

instance docIdNeZero : @NeZero ℕ Zero.ofOfNat0 (2 ^ 128) := ⟨two_pow_ne_zero 128⟩

instance hash32NeZero : @NeZero ℕ Zero.ofOfNat0 (2 ^ 256) := ⟨two_pow_ne_zero 256⟩

instance sigNeZero : @NeZero ℕ Zero.ofOfNat0 (2 ^ 512) := ⟨two_pow_ne_zero 512⟩

instance docIdTransOrd : Std.TransOrd DocId := inferInstance

instance docIdLawfulEqOrd : Std.LawfulEqOrd DocId := inferInstance

instance hash32TransOrd : Std.TransOrd Hash32 := inferInstance

instance hash32LawfulBEq : LawfulBEq Hash32 := inferInstance

/-! ## Vector clocks -/

/-- Per-document vector clock: origin ↦ highest op sequence applied from that origin. -/
@[ext] structure VecClock where
  counts : Std.ExtTreeMap Origin U64
  deriving DecidableEq

namespace VecClock

/-- `VecClock::default()`. -/
def empty : VecClock := ⟨∅⟩

instance : Inhabited VecClock := ⟨empty⟩

def get (c : VecClock) (origin : Origin) : U64 := c.counts[origin]?.getD 0

/-- Bump `origin`'s counter by one (the new sequence number is the counter itself). -/
def tick (c : VecClock) (origin : Origin) : VecClock :=
  ⟨c.counts.insert origin (c.get origin + 1)⟩

/-- Element-wise maximum merge. -/
def merge (self other : VecClock) : VecClock :=
  ⟨other.counts.toList.foldl
    (fun m (k, v) =>
      match m[k]? with
      | some slot => m.insert k (max slot v)
      | none => m.insert k v)
    self.counts⟩

/-- `self ⊇ other`: every origin in `other` is at or below `self`. -/
def covers (self other : VecClock) : Bool :=
  other.counts.toList.all fun (k, v) => v ≤ self.get k

/-- `covers` compares the counters of every origin; absent counters are `0`. -/
theorem covers_iff {a b : VecClock} : a.covers b = true ↔ ∀ o, b.get o ≤ a.get o := by
  unfold covers
  rw [List.all_eq_true]
  constructor
  · intro h o
    cases hb : b.counts[o]? with
    | none => rw [show b.get o = 0 from by rw [get, hb]; rfl]; exact Fin.zero_le _
    | some v =>
      rw [show b.get o = v from by rw [get, hb]; rfl]
      exact of_decide_eq_true (h (o, v) (Lib.mem_toList.mpr hb))
  · rintro h ⟨o, v⟩ hmem
    have hle := h o
    rw [get, Lib.mem_toList.mp hmem] at hle
    exact decide_eq_true hle

theorem covers_refl (a : VecClock) : a.covers a = true := covers_iff.mpr fun _ => le_rfl

theorem covers_trans {a b c : VecClock} (hab : a.covers b = true) (hbc : b.covers c = true) :
    a.covers c = true :=
  covers_iff.mpr fun o => (covers_iff.mp hbc o).trans (covers_iff.mp hab o)

theorem get_tick (c : VecClock) (o o' : Origin) :
    (c.tick o).get o' = if o' = o then c.get o + 1 else c.get o' := by
  by_cases h : o' = o
  · subst h
    simp [tick, get]
  · rw [if_neg h]
    simp [tick, get, Std.ExtTreeMap.getElem?_insert, Ne.symm h]

/-- One step of `merge`'s loop, read at every origin. -/
theorem getElem?_merge_step (m : Std.ExtTreeMap Origin U64) (k o : Origin) (v : U64) :
    (match m[k]? with
      | some slot => m.insert k (max slot v)
      | none => m.insert k v)[o]? = if k = o then Option.merge max m[o]? (some v) else m[o]? := by
  by_cases hk : k = o
  · subst hk
    cases hm : m[k]? <;> simp
  · cases hm : m[k]? <;> simp [Std.ExtTreeMap.getElem?_insert, hk]

/-- `merge`'s loop over any list of entries with distinct origins. -/
theorem getElem?_merge_foldl (o : Origin) : ∀ (l : List (Origin × U64))
    (m : Std.ExtTreeMap Origin U64), l.Pairwise (fun p q => p.1 ≠ q.1) →
    (l.foldl (fun m (k, v) =>
      match m[k]? with
      | some slot => m.insert k (max slot v)
      | none => m.insert k v) m)[o]? = Option.merge max m[o]? (l.lookup o) := by
  intro l
  induction l with
  | nil => intro m _; rw [List.foldl_nil, List.lookup_nil, Option.merge_none_right]
  | cons p l ih =>
    obtain ⟨k, v⟩ := p
    intro m hp
    obtain ⟨hhead, htail⟩ := List.pairwise_cons.mp hp
    rw [List.foldl_cons, ih _ htail, getElem?_merge_step, List.lookup_cons]
    by_cases hk : k = o
    · subst hk
      have hnone : l.lookup k = none :=
        List.lookup_eq_none_iff.mpr fun q hq => by simpa using hhead q hq
      rw [if_pos rfl, hnone, Option.merge_none_right, beq_self_eq_true]
    · rw [if_neg hk, beq_false_of_ne (Ne.symm hk)]

/-- **`merge` is the join of the two maps.** -/
theorem counts_merge (a b : VecClock) (o : Origin) :
    (a.merge b).counts[o]? = Option.merge max a.counts[o]? b.counts[o]? := by
  rw [← Lib.lookup_toList b.counts o]
  exact getElem?_merge_foldl o b.counts.toList a.counts (Lib.distinct_toList b.counts)

theorem get_merge (a b : VecClock) (o : Origin) : (a.merge b).get o = max (a.get o) (b.get o) := by
  unfold get
  rw [counts_merge]
  cases a.counts[o]? <;> cases b.counts[o]? <;> simp

theorem ext_counts {a b : VecClock} (h : ∀ o : Origin, a.counts[o]? = b.counts[o]?) : a = b :=
  VecClock.ext (Std.ExtTreeMap.ext_getElem? fun {o} => h o)

theorem merge_comm (a b : VecClock) : a.merge b = b.merge a := by
  apply ext_counts
  intro o
  rw [counts_merge, counts_merge]
  exact (inferInstance : Std.Commutative (Option.merge max)).comm _ _

theorem merge_assoc (a b c : VecClock) : (a.merge b).merge c = a.merge (b.merge c) := by
  apply ext_counts
  intro o
  simp only [counts_merge]
  exact (inferInstance : Std.Associative (Option.merge max)).assoc _ _ _

theorem merge_self (a : VecClock) : a.merge a = a := by
  apply ext_counts
  intro o
  rw [counts_merge]
  exact (inferInstance : Std.IdempotentOp (Option.merge max)).idempotent _

instance : Std.Commutative merge := ⟨merge_comm⟩
instance : Std.Associative merge := ⟨merge_assoc⟩
instance : Std.IdempotentOp merge := ⟨merge_self⟩

theorem covers_merge_left (a b : VecClock) : (a.merge b).covers a = true :=
  covers_iff.mpr fun o => by rw [get_merge]; exact le_max_left _ _

theorem covers_merge_right (a b : VecClock) : (a.merge b).covers b = true :=
  covers_iff.mpr fun o => by rw [get_merge]; exact le_max_right _ _

end VecClock

/-! ## Documents and operations -/

/-- One field value with the version of the write that set it. -/
structure Field where
  value : Value
  /-- The writer's vector clock at write time. -/
  version : VecClock
  ts : U64
  origin : Origin
  /-- True when this entry is a delete tombstone. -/
  deleted : Bool
  deriving DecidableEq

/-- A document: a name plus a field map. -/
structure Doc where
  id : DocId
  name : String
  fields : Std.ExtTreeMap String Field
  deriving DecidableEq

/-- A copy with delete tombstones removed (the user-facing view). -/
def Doc.live (d : Doc) : Doc := { d with fields := d.fields.filter fun _ f => !f.deleted }

/-- Upsert or delete of a single field, or delete the whole document (`key = none`). -/
structure Op where
  docId : DocId
  key : Option String
  value : Option Value
  ts : U64
  clock : VecClock
  origin : Origin
  sig : Sig

/-- A fresh value field from an op. -/
def Field.fromOp (op : Op) : Field where
  value := op.value.getD .null
  version := op.clock
  ts := op.ts
  origin := op.origin
  deleted := false

/-- A delete tombstone from an op. -/
def Field.tombstoneFromOp (op : Op) : Field where
  value := .null
  version := op.clock
  ts := op.ts
  origin := op.origin
  deleted := true

def fieldFromOp (op : Op) : Field :=
  if op.value.isNone then Field.tombstoneFromOp op else Field.fromOp op

/-- The tie-break of concurrent writes: `(ts, origin)`, lexicographically. -/
def Op.stamp (op : Op) : U64 ×ₗ Origin := toLex (op.ts, op.origin)

def Field.stamp (f : Field) : U64 ×ₗ Origin := toLex (f.ts, f.origin)

/-- Result of `applyOp`: did the op change the read model, is the document deleted. -/
structure ApplyResult where
  applied : Bool
  docDeleted : Bool
  deriving DecidableEq

/-- The three places `applyOp` writes: a document's read model, its clock and its deleted flag. -/
structure Cell where
  doc : Doc
  clock : VecClock
  deleted : Bool

/-- Write one field of the cell's document. -/
def Cell.putField (c : Cell) (key : String) (f : Field) : Cell :=
  { c with doc := { c.doc with fields := c.doc.fields.insert key f } }

/-- Apply `op` to a document's read model and document clock. -/
def applyOp (c : Cell) (op : Op) : Cell × ApplyResult :=
  let c := { c with clock := c.clock.merge op.clock }
  if c.deleted then
    -- terminal: post-deletion work for this document is ignored
    (c, { applied := false, docDeleted := true })
  else
    match op.key with
    | none =>
      ({ c with doc := { c.doc with fields := ∅ }, deleted := true },
        { applied := true, docDeleted := true })
    | some key =>
      match c.doc.fields[key]? with
      | none =>
        match op.value with
        | none => (c, { applied := false, docDeleted := false })
        | some _ => (c.putField key (fieldFromOp op), { applied := true, docDeleted := false })
      | some current =>
        if current.version.covers op.clock then
          (c, { applied := false, docDeleted := false })
        else if op.clock.covers current.version then
          (c.putField key (fieldFromOp op), { applied := true, docDeleted := false })
        else if current.stamp < op.stamp then
          (c.putField key (fieldFromOp op), { applied := true, docDeleted := false })
        else
          (c, { applied := false, docDeleted := false })

/-! ## What one op does -/

@[simp] theorem fieldFromOp_version (op : Op) : (fieldFromOp op).version = op.clock := by
  unfold fieldFromOp; split <;> rfl

@[simp] theorem fieldFromOp_stamp (op : Op) : (fieldFromOp op).stamp = op.stamp := by
  unfold fieldFromOp; split <;> rfl

theorem fieldFromOp_some {op : Op} {v : Value} (h : op.value = some v) :
    (fieldFromOp op).value = v ∧ (fieldFromOp op).deleted = false := by
  simp [fieldFromOp, h, Field.fromOp]

/-- The decision of `applyOp` between the current field and the op, alone. -/
def mergeField (cur : Option Field) (op : Op) : Option Field :=
  match cur with
  | none => if op.value.isNone then none else some (fieldFromOp op)
  | some f =>
    if f.version.covers op.clock then some f
    else if op.clock.covers f.version ∨ f.stamp < op.stamp then some (fieldFromOp op)
    else some f

theorem clock_applyOp (c : Cell) (op : Op) : (applyOp c op).1.clock = c.clock.merge op.clock := by
  unfold applyOp
  dsimp only
  repeat' split
  all_goals rfl

theorem deleted_applyOp (c : Cell) (op : Op) :
    (applyOp c op).1.deleted = (c.deleted || op.key.isNone) := by
  unfold applyOp
  dsimp only
  repeat' split
  all_goals simp_all [Cell.putField]

theorem id_applyOp (c : Cell) (op : Op) : (applyOp c op).1.doc.id = c.doc.id := by
  unfold applyOp
  dsimp only
  repeat' split
  all_goals rfl

theorem name_applyOp (c : Cell) (op : Op) : (applyOp c op).1.doc.name = c.doc.name := by
  unfold applyOp
  dsimp only
  repeat' split
  all_goals rfl

/-- On a deleted document only the clock moves. -/
theorem applyOp_of_deleted {c : Cell} (h : c.deleted = true) (op : Op) :
    (applyOp c op).1.doc = c.doc ∧ (applyOp c op).2.applied = false := by
  simp [applyOp, h]

/-- **An op on `k` is `mergeField` at `k` and nothing elsewhere.** -/
theorem fields_applyOp {c : Cell} {op : Op} {k : String} (h : c.deleted = false)
    (hk : op.key = some k) (k' : String) :
    (applyOp c op).1.doc.fields[k']? =
      if k = k' then mergeField c.doc.fields[k']? op else c.doc.fields[k']? := by
  by_cases hkk : k = k'
  · subst hkk
    rw [if_pos rfl]
    cases hcur : c.doc.fields[k]? with
    | none => cases hv : op.value <;> simp [applyOp, h, hk, hcur, hv, mergeField, Cell.putField]
    | some f =>
      by_cases h1 : f.version.covers op.clock = true
      · simp [applyOp, h, hk, hcur, h1, mergeField]
      · by_cases h2 : op.clock.covers f.version = true
        · simp [applyOp, h, hk, hcur, h1, h2, mergeField, Cell.putField]
        · by_cases h3 : f.stamp < op.stamp <;>
            simp [applyOp, h, hk, hcur, h1, h2, h3, mergeField, Cell.putField]
  · rw [if_neg hkk]
    have hput : ∀ f : Field, (c.doc.fields.insert k f)[k']? = c.doc.fields[k']? := by
      intro f
      simp [Std.ExtTreeMap.getElem?_insert, hkk]
    unfold applyOp
    simp only [h, hk, Bool.false_eq_true, if_false]
    repeat' split
    all_goals first | rfl | exact hput _

/-- **No second effect.**  An op with the clock and the stamp of the op applied before it (and like
    it an upsert, or like it a delete) finds the field settled. -/
theorem mergeField_idem {op op' : Op} (hc : op'.clock = op.clock) (hs : op'.stamp = op.stamp)
    (hv : op'.value.isNone = op.value.isNone) (cur : Option Field) :
    mergeField (mergeField cur op) op' = mergeField cur op := by
  have hset : mergeField (some (fieldFromOp op)) op' = some (fieldFromOp op) := by
    simp [mergeField, hc, VecClock.covers_refl]
  cases cur with
  | none =>
    by_cases hn : op.value.isNone = true
    · simp [mergeField, hn, hv]
    · rw [show mergeField none op = some (fieldFromOp op) from by simp [mergeField, hn]]
      exact hset
  | some f =>
    by_cases h1 : f.version.covers op.clock = true
    · simp [mergeField, h1, hc]
    · by_cases h2 : op.clock.covers f.version = true ∨ f.stamp < op.stamp
      · rw [show mergeField (some f) op = some (fieldFromOp op) from by simp [mergeField, h1, h2]]
        exact hset
      · rw [show mergeField (some f) op = some f from by simp [mergeField, h1, h2]]
        simp [mergeField, hc, hs, h1, h2]

/-! ## Model references -/

/-- A model reference: `name@version`, optionally content-addressed with `#<hash>`. -/
structure ModelRef where
  name : String
  version : String
  hash : Option Hash32
  deriving DecidableEq

/-- `ModelRef::new`: no pinned hash. -/
def ModelRef.new (name version : String) : ModelRef := ⟨name, version, none⟩

end PhReactor
