/-
  What a SET of ops leaves behind, whatever the order in which `applyOp` meets them (`src/doc.rs`).

  `applyOp` compares an incoming op only with the current winner of its field, by one of three
  rules: stale, causally newer, last writer.  A field is thus a register (`Lib.LastWriter`), and
  `Op.replaces` is its decision.

  1. **The rules agree with the stamp.**  When clock dominance implies `(ts, origin)` order
     (`LawfulOps`), an op replaces another exactly when its stamp is larger (`byStamp`).

  2. **Each key is a register of its own** (`fields_runOps_foldl`), and the document's clock is the
     join of all clocks (`clock_runOps_foldl`).

  3. **Writes.**  An upsert replaces an ABSENT field, so from the empty document the last write on
     every key wins in every order and with every repetition (`merge_order_independent`); a
     whole-document delete anywhere in the sequence empties the document.

  4. **Field deletes.**  A delete does not replace an absent field and leaves no tombstone there.
     Hence orders agree exactly when on every key either nothing replaces the field the document
     starts with, or the last op does (`field_orders_agree_iff`): a delete that stands last on a
     key is lost when it arrives before the writes it follows (`early_field_delete_is_lost`).
-/
import PhReactor.Lib.LastWriter
import PhReactor.Sample
import PhReactor.Store.Fold

set_option linter.unusedSectionVars false

namespace PhReactor

deriving instance DecidableEq for Op

/-! ## One field as a register -/

/-- Does `op` replace the current field of its key.  An absent field is replaced by upserts only. -/
def Op.replaces (cur : Option Field) (op : Op) : Bool :=
  match cur with
  | none => op.value.isSome
  | some f =>
    !f.version.covers op.clock && (op.clock.covers f.version || decide (f.stamp < op.stamp))

/-- The register of one field. -/
def fieldRegister : Lib.Register Op (Option Field) where
  takes := Op.replaces
  put := fun op => some (fieldFromOp op)

theorem mergeField_eq_step (cur : Option Field) (op : Op) :
    mergeField cur op = fieldRegister.step cur op := by
  cases cur with
  | none =>
    cases hv : op.value <;> simp [mergeField, Lib.Register.step, fieldRegister, Op.replaces, hv]
  | some f =>
    by_cases h1 : f.version.covers op.clock = true
    · simp [mergeField, Lib.Register.step, fieldRegister, Op.replaces, h1]
    · by_cases h2 : op.clock.covers f.version = true <;>
        simp [mergeField, Lib.Register.step, fieldRegister, Op.replaces, h1, h2]

/-- Distinct ops have distinct `(ts, origin)`, and an op whose clock covers another's comes after
    it in that order. -/
def LawfulOps (S : Finset Op) : Prop :=
  ∀ p ∈ S, ∀ q ∈ S, p ≠ q →
    p.stamp ≠ q.stamp ∧ (p.clock.covers q.clock = true → q.stamp < p.stamp)

instance (S : Finset Op) : Decidable (LawfulOps S) :=
  inferInstanceAs (Decidable (∀ p ∈ S, ∀ q ∈ S, _))

/-- **The three rules amount to the stamp.** -/
theorem LawfulOps.byStamp {S : Finset Op} (h : LawfulOps S) :
    fieldRegister.ByStamp Op.stamp (S : Set Op) where
  inj := by
    intro p hp q hq heq
    by_contra hne
    exact (h p hp q hq hne).1 heq
  takes_put := by
    intro p hp q hq
    show (!(fieldFromOp p).version.covers q.clock && (q.clock.covers (fieldFromOp p).version ||
      decide ((fieldFromOp p).stamp < q.stamp))) = true ↔ _
    rw [fieldFromOp_version, fieldFromOp_stamp]
    by_cases hpq : p = q
    · subst hpq
      simp [VecClock.covers_refl]
    · obtain ⟨-, hcov⟩ := h p hp q hq hpq
      obtain ⟨-, hcov'⟩ := h q hq p hp (Ne.symm hpq)
      by_cases h1 : p.clock.covers q.clock = true
      · simp [h1, (hcov h1).le]
      · by_cases h2 : q.clock.covers p.clock = true
        · simp [h1, h2, hcov' h2]
        · simp [h1, h2]

/-- Different ops of a lawful set leave different fields. -/
theorem LawfulOps.put_injOn {S : Finset Op} (h : LawfulOps S) :
    ∀ p ∈ (S : Set Op), ∀ q ∈ (S : Set Op), fieldRegister.put p = fieldRegister.put q → p = q := by
  intro p hp q hq heq
  apply h.byStamp.inj p hp q hq
  have hfield : fieldFromOp p = fieldFromOp q := Option.some.inj heq
  rw [← fieldFromOp_stamp p, hfield, fieldFromOp_stamp]

/-! ## A document is one register per key -/

/-- The ops of `l` on the field `k`. -/
def opsOn (k : String) (l : List Op) : List Op := l.filter fun op => op.key == some k

theorem mem_opsOn {k : String} {l : List Op} {op : Op} :
    op ∈ opsOn k l ↔ op ∈ l ∧ op.key = some k := by
  rw [opsOn, List.mem_filter, beq_iff_eq]

theorem runOps_cons (c : Cell) (op : Op) (l : List Op) :
    runOps c (op :: l) = runOps (applyOp c op).1 l := rfl

/-- **Without whole-document deletes the fields run side by side.** -/
theorem fields_runOps_foldl (k : String) : ∀ (l : List Op) (c : Cell), c.deleted = false →
    (∀ op ∈ l, op.key ≠ none) →
    (runOps c l).doc.fields[k]? = (opsOn k l).foldl fieldRegister.step c.doc.fields[k]? := by
  intro l
  induction l with
  | nil => exact fun _ _ _ => rfl
  | cons op l ih =>
    intro c hc hk
    obtain ⟨k₀, hk₀⟩ := Option.ne_none_iff_exists'.mp (hk op List.mem_cons_self)
    have hc' : (applyOp c op).1.deleted = false := by rw [deleted_applyOp, hc, hk₀]; rfl
    rw [runOps_cons, ih _ hc' fun o ho => hk o (List.mem_cons_of_mem op ho),
      fields_applyOp hc hk₀ k]
    by_cases hkk : k₀ = k
    · rw [if_pos hkk, mergeField_eq_step, opsOn, opsOn,
        List.filter_cons_of_pos (by rw [hk₀, hkk]; exact beq_self_eq_true _), List.foldl_cons]
    · rw [if_neg hkk, opsOn, opsOn,
        List.filter_cons_of_neg (by rw [hk₀, beq_iff_eq]; exact fun h => hkk (Option.some.inj h))]

/-- The clock is a running join, deletes and stale ops included. -/
theorem clock_runOps_foldl : ∀ (l : List Op) (c : Cell),
    (runOps c l).clock = (l.map Op.clock).foldl VecClock.merge c.clock := by
  intro l
  induction l with
  | nil => exact fun _ => rfl
  | cons op l ih =>
    intro c
    rw [runOps_cons, ih, clock_applyOp, List.map_cons, List.foldl_cons]

/-- A deleted document has no fields. -/
def Cell.Cleared (c : Cell) : Prop := c.deleted = true → c.doc.fields = ∅

theorem cleared_applyOp {c : Cell} (h : c.Cleared) (op : Op) : (applyOp c op).1.Cleared := by
  intro hdel
  cases hc : c.deleted with
  | true => rw [(applyOp_of_deleted hc op).1, h hc]
  | false =>
    rw [deleted_applyOp, hc, Bool.false_or, Option.isNone_iff_eq_none] at hdel
    simp [applyOp, hc, hdel]

theorem cleared_runOps : ∀ (l : List Op) {c : Cell}, c.Cleared → (runOps c l).Cleared := by
  intro l
  induction l with
  | nil => exact fun h => h
  | cons op l ih => exact fun h => ih (cleared_applyOp h op)

/-! ## Upserts and whole-document deletes -/

/-- The empty document: nothing written, nothing seen. -/
def Cell.blank (id : DocId) (name : String) : Cell where
  doc := { id, name, fields := ∅ }
  clock := .empty
  deleted := false

/-- `op` is the op on `k` with the largest `(ts, origin)` in `S`. -/
def LastOn (S : Finset Op) (k : String) (op : Op) : Prop :=
  op ∈ S ∧ op.key = some k ∧ ∀ q ∈ S, q.key = some k → q.stamp ≤ op.stamp

/-- **The per-field merge is order independent.**  Every sequence that applies each op of `S` at
    least once ends in the same state: the deletes decide the flag, the last writes the fields, and
    all of them the clock. -/
theorem merge_order_independent (S : Finset Op)
    (hops : ∀ op ∈ S, op.key = none ∨ op.value.isSome = true) (hlaw : LawfulOps S) (l : List Op)
    (hl : ∀ op, op ∈ l ↔ op ∈ S) (id : DocId) (name : String) :
    ((runOps (Cell.blank id name) l).deleted = true ↔ ∃ op ∈ S, op.key = none) ∧
    ((runOps (Cell.blank id name) l).deleted = true →
      (runOps (Cell.blank id name) l).doc.fields = ∅) ∧
    ((runOps (Cell.blank id name) l).deleted = false → ∀ k : String,
      ((∀ op ∈ S, op.key ≠ some k) → (runOps (Cell.blank id name) l).doc.fields[k]? = none) ∧
      ∀ op, LastOn S k op → ∃ f, (runOps (Cell.blank id name) l).doc.fields[k]? = some f ∧
        op.value = some f.value ∧ f.version = op.clock ∧ f.ts = op.ts ∧ f.origin = op.origin ∧
        f.deleted = false) ∧
    (runOps (Cell.blank id name) l).clock = S.fold VecClock.merge VecClock.empty Op.clock := by
  have hflag : (runOps (Cell.blank id name) l).deleted = true ↔ ∃ op ∈ S, op.key = none := by
    rw [deleted_runOps, show (Cell.blank id name).deleted = false from rfl, Bool.false_or,
      List.any_eq_true]
    constructor
    · rintro ⟨op, hop, hnone⟩
      exact ⟨op, (hl op).mp hop, Option.isNone_iff_eq_none.mp hnone⟩
    · rintro ⟨op, hop, hnone⟩
      exact ⟨op, (hl op).mpr hop, Option.isNone_iff_eq_none.mpr hnone⟩
  refine ⟨hflag, ?_, ?_, ?_⟩
  · exact cleared_runOps l (c := Cell.blank id name) fun h => nomatch h
  · intro hlive k
    have hkeys : ∀ op ∈ l, op.key ≠ none := by
      intro op hop hnone
      rw [hflag.mpr ⟨op, (hl op).mp hop, hnone⟩] at hlive
      exact nomatch hlive
    have hfold := fields_runOps_foldl k l (Cell.blank id name) rfl hkeys
    constructor
    · intro hno
      have hnil : opsOn k l = [] := by
        apply List.eq_nil_iff_forall_not_mem.mpr
        intro op hop
        exact hno op ((hl op).mp (mem_opsOn.mp hop).1) (mem_opsOn.mp hop).2
      rw [hfold, hnil]
      rfl
    · rintro op ⟨hop, hkey, hlast⟩
      obtain ⟨v, hv⟩ : ∃ v, op.value = some v := by
        rcases hops op hop with hnone | hsome
        · exact absurd hkey (by rw [hnone]; exact fun h => nomatch h)
        · exact Option.isSome_iff_exists.mp hsome
      -- an upsert takes the absent field, so the last one wins
      have htakes : fieldRegister.takes none op = true := by
        show op.value.isSome = true
        rw [hv]
        rfl
      have hwins := hlaw.byStamp.foldl_last htakes (opsOn k l)
        (fun q hq => (hl q).mp (mem_opsOn.mp hq).1) (mem_opsOn.mpr ⟨(hl op).mpr hop, hkey⟩)
        (fun q hq => hlast q ((hl q).mp (mem_opsOn.mp hq).1) (mem_opsOn.mp hq).2)
      refine ⟨Field.fromOp op, ?_, ?_, rfl, rfl, rfl, rfl⟩
      · rw [hfold]
        refine hwins.trans ?_
        simp [fieldRegister, fieldFromOp, hv]
      · rw [hv]
        simp [Field.fromOp, hv]
  · rw [clock_runOps_foldl, Finset.fold]
    have hdedup : ∀ c, c ∈ l.map Op.clock ↔ c ∈ S.toList.map Op.clock := by
      intro c
      simp only [List.mem_map, Finset.mem_toList, hl]
    rw [Lib.foldl_join_eq hdedup]
    conv_rhs => rw [← Finset.coe_toList S]
    exact (Multiset.coe_fold_l _ _ _).symm

/-! ## Upserts and field deletes -/

/-- `l` applies each op of `S` once. -/
def Orders (S : Finset Op) (l : List Op) : Prop := l.Nodup ∧ ∀ op, op ∈ l ↔ op ∈ S

theorem Orders.perm {S : Finset Op} {l l' : List Op} (h : Orders S l) (h' : Orders S l') :
    l.Perm l' :=
  (List.perm_ext_iff_of_nodup h.1 h'.1).mpr fun op => (h.2 op).trans (h'.2 op).symm

theorem Orders.of_perm {S : Finset Op} {l l' : List Op} (h : Orders S l) (hp : l'.Perm l) :
    Orders S l' :=
  ⟨hp.nodup_iff.mpr h.1, fun op => hp.mem_iff.trans (h.2 op)⟩

/-- The ops on one key can be reordered on their own, in front of all others. -/
theorem Orders.reorder {S : Finset Op} {l : List Op} (h : Orders S l) (k : String) {lk : List Op}
    (hp : lk.Perm (opsOn k l)) :
    Orders S (lk ++ l.filter fun op => !(op.key == some k)) ∧
      opsOn k (lk ++ l.filter fun op => !(op.key == some k)) = lk := by
  constructor
  · apply h.of_perm
    exact (hp.append_right _).trans (List.filter_append_perm (fun op : Op => op.key == some k) l)
  · rw [opsOn, List.filter_append]
    have hkeep : lk.filter (fun op => op.key == some k) = lk := by
      apply List.filter_eq_self.mpr
      intro op hop
      rw [(mem_opsOn.mp (hp.mem_iff.mp hop)).2]
      exact beq_self_eq_true _
    have hdrop : (l.filter fun op => !(op.key == some k)).filter (fun op => op.key == some k) =
        [] := by
      apply List.filter_eq_nil_iff.mpr
      intro op hop
      simpa using (List.mem_filter.mp hop).2
    rw [hkeep, hdrop, List.append_nil]

/-- All orders of `S` agree on the fields exactly when they agree on every key. -/
theorem orders_agree_iff_keys {c : Cell} (hc : c.deleted = false) {S : Finset Op}
    (hf : ∀ op ∈ S, op.key ≠ none) {l : List Op} (hl : Orders S l) :
    (∀ l₁ l₂, Orders S l₁ → Orders S l₂ →
        (runOps c l₁).doc.fields = (runOps c l₂).doc.fields) ↔
      ∀ (k : String) (l₁ l₂ : List Op), l₁.Perm (opsOn k l) → l₂.Perm (opsOn k l) →
        l₁.foldl fieldRegister.step c.doc.fields[k]? =
          l₂.foldl fieldRegister.step c.doc.fields[k]? := by
  have hfold : ∀ (k : String) {l' : List Op}, Orders S l' → (runOps c l').doc.fields[k]? =
      (opsOn k l').foldl fieldRegister.step c.doc.fields[k]? := fun k l' hl' =>
    fields_runOps_foldl k l' c hc fun op hop => hf op ((hl'.2 op).mp hop)
  constructor
  · intro h k l₁ l₂ h₁ h₂
    obtain ⟨ho₁, hk₁⟩ := hl.reorder k h₁
    obtain ⟨ho₂, hk₂⟩ := hl.reorder k h₂
    have heq := congrArg (fun m : Std.ExtTreeMap String Field => m[k]?) (h _ _ ho₁ ho₂)
    rw [hfold k ho₁, hfold k ho₂, hk₁, hk₂] at heq
    exact heq
  · intro h l₁ l₂ h₁ h₂
    refine Std.ExtTreeMap.ext_getElem? fun {k} => ?_
    rw [hfold k h₁, hfold k h₂]
    exact h k _ _ ((h₁.perm hl).filter _) ((h₂.perm hl).filter _)

/-- **When field deletes are durable.**  All orders of a lawful set of upserts and field deletes
    leave the same fields exactly when the document is deleted already, or on every key either no
    op replaces the field the document starts with or the LAST op does. -/
theorem field_orders_agree_iff (c : Cell) (S : Finset Op) (hf : ∀ op ∈ S, op.key ≠ none)
    (hlaw : LawfulOps S) :
    (∀ l l', Orders S l → Orders S l' →
        (runOps c l).doc.fields = (runOps c l').doc.fields) ↔
      c.deleted = true ∨ ∀ k : String,
        (∀ op ∈ S, op.key = some k → op.replaces c.doc.fields[k]? = false) ∨
          ∃ op, LastOn S k op ∧ op.replaces c.doc.fields[k]? = true := by
  cases hc : c.deleted with
  | true =>
    refine ⟨fun _ => Or.inl rfl, fun _ l l' _ _ => ?_⟩
    rw [doc_runOps_of_deleted hc, doc_runOps_of_deleted hc]
  | false =>
    have hl : Orders S S.toList := ⟨S.nodup_toList, fun op => Finset.mem_toList⟩
    rw [orders_agree_iff_keys hc hf hl]
    have hkey : ∀ k : String, _ := fun k =>
      hlaw.byStamp.orders_agree_iff hlaw.put_injOn c.doc.fields[k]?
        (l := opsOn k S.toList) (hl.1.filter _) (fun op hop => (hl.2 op).mp (mem_opsOn.mp hop).1)
    have hmem : ∀ {k op}, op ∈ opsOn k S.toList ↔ op ∈ S ∧ op.key = some k := by
      intro k op
      rw [mem_opsOn, Finset.mem_toList]
    simp only [Bool.false_eq_true, false_or]
    refine forall_congr' fun k => (hkey k).trans (or_congr ?_ ?_)
    · constructor
      · exact fun h op hop hk => Bool.eq_false_iff.mpr (h op (hmem.mpr ⟨hop, hk⟩))
      · exact fun h op hop => Bool.eq_false_iff.mp (h op (hmem.mp hop).1 (hmem.mp hop).2)
    · constructor
      · rintro ⟨op, hop, hmax, htakes⟩
        exact ⟨op, ⟨(hmem.mp hop).1, (hmem.mp hop).2, fun q hq hk => hmax q (hmem.mpr ⟨hq, hk⟩)⟩,
          htakes⟩
      · rintro ⟨op, ⟨hop, hk, hlast⟩, htakes⟩
        exact ⟨op, hmem.mpr ⟨hop, hk⟩, fun q hq => hlast q (hmem.mp hq).1 (hmem.mp hq).2, htakes⟩

section

open Sample

/-- A write of the sample document's field `f`. -/
def Sample.writeOp (p : Peer) (value : Option String) (ts : U64) (clock : List (Origin × U64)) :
    Op where
  docId := docId
  key := some "f"
  value := value.map .string
  ts
  clock := clockOf clock
  origin := p.name
  sig := 0

/-- Alice writes `f`. -/
def Sample.write : Op := writeOp alice (some "draft") 1 [("alice", 1)]

/-- Bob has seen the write and deletes `f`. -/
def Sample.unwrite : Op := writeOp bob none 2 [("alice", 1), ("bob", 1)]

/-- Mallory writes `f` concurrently with both. -/
def Sample.rewrite : Op := writeOp mallory (some "final") 3 [("mallory", 1)]

/-- Alice deletes the document. -/
def Sample.drop : Op := { writeOp alice none 4 [("alice", 2)] with key := none }

/-- Three ops in a mixed order, one of them repeated. -/
theorem merge_order_independent_three :
    (runOps (Cell.blank docId "d") [rewrite, drop, write, rewrite]).deleted = true ∧
      (runOps (Cell.blank docId "d") [rewrite, drop, write, rewrite]).doc.fields = ∅ ∧
      ∃ f, (runOps (Cell.blank docId "d") [rewrite, write, rewrite]).doc.fields["f"]? = some f ∧
        rewrite.value = some f.value := by
  have hdel := merge_order_independent {write, rewrite, drop} (by decide +kernel)
    (by decide +kernel) [rewrite, drop, write, rewrite] (by simp; grind) docId "d"
  have hlive := merge_order_independent {write, rewrite} (by decide +kernel)
    (by decide +kernel) [rewrite, write, rewrite] (by simp) docId "d"
  have hflag := hdel.1.mpr ⟨drop, by simp, rfl⟩
  refine ⟨hflag, hdel.2.1 hflag, ?_⟩
  have hlast : LastOn {write, rewrite} "f" rewrite := by
    refine ⟨by simp, rfl, ?_⟩
    decide +kernel
  obtain ⟨f, hf, hv, -⟩ := (hlive.2.2.1 (by decide +kernel) "f").2 rewrite hlast
  exact ⟨f, hf, hv⟩

/-- The write stands last: the delete may arrive first. -/
theorem field_orders_agree_rewrite :
    (runOps (Cell.blank docId "d") [unwrite, rewrite]).doc.fields =
      (runOps (Cell.blank docId "d") [rewrite, unwrite]).doc.fields := by
  refine (field_orders_agree_iff (Cell.blank docId "d") {unwrite, rewrite} (by decide +kernel)
    (by decide +kernel)).mpr (Or.inr fun k => ?_) _ _ ⟨by decide +kernel, by simp⟩
    ⟨by decide +kernel, by simp; grind⟩
  by_cases hk : k = "f"
  · subst hk
    exact Or.inr ⟨rewrite, ⟨by simp, rfl, by decide +kernel⟩, rfl⟩
  · refine Or.inl ?_
    intro op hop hkey
    rcases Finset.mem_insert.mp hop with rfl | hop
    · exact absurd (Option.some.inj hkey).symm hk
    · rw [Finset.mem_singleton.mp hop] at hkey
      exact absurd (Option.some.inj hkey).symm hk

/-- **A delete that arrives before the write it follows is lost.**  In the other order it wins. -/
theorem early_field_delete_is_lost :
    ¬ ∀ (c : Cell) (S : Finset Op), (∀ op ∈ S, op.key ≠ none) → LawfulOps S →
      ∀ l l', Orders S l → Orders S l' →
        (runOps c l).doc.fields = (runOps c l').doc.fields := by
  intro h
  have heq := h (Cell.blank docId "d") {write, unwrite} (by decide +kernel) (by decide +kernel)
    [write, unwrite] [unwrite, write] ⟨by decide +kernel, by simp⟩
    ⟨by decide +kernel, by simp; grind⟩
  exact absurd heq (by decide +kernel)

end

end PhReactor
