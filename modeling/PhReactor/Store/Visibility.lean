/-
  The visibility of a space is meant to be FIXED AT `init` (`src/model/space.rs`).

  `space@1` has no reducer that changes it.  But nothing else guards it either: `init` has no
  precondition, so any known peer can send a second one (`second_init_changes_visibility`); `open@1`
  writes any field of any document; and a whole-document delete clears them all.

  Where every accepted action that writes `visibility` is an `init` of the built-in `space@1` with
  one and the same value, and none deletes the document (`KeepsTier`), the value stays: that the
  field is there is a fact that lasts (`Store.Lasting`), and throughout it has no other value.
  Hence `visibility_is_fixed`, for every order of arrival, through snapshots and reopenings.
-/
import PhReactor.Store.Lasting
import PhReactor.Store.Membership

set_option linter.unusedSectionVars false

namespace PhReactor

section

/-! ## What an `init` sets -/

/-- An `init` of `space@1`. -/
def Action.initsSpace (a : Action) : Bool :=
  a.model.name == "space" && a.model.version == "1" && a.kind == "init"

/-- The tier a visibility value stands for; anything but a string is the safest. -/
def tierValue (v : Value) : String := v.asStr?.getD "private"

/-- The tier an `init` sets. -/
def tierOf (a : Action) : String :=
  ((a.payload.get? "visibility").bind Value.asStr?).getD "private"

/-- The key of the visibility, or of a whole-document delete. -/
def tierKey (key : Option String) : Bool := key == none || key == some "visibility"

variable [Primitives]

theorem space_governing : Governing space := Governs.governing (Or.inr rfl)

/-- **What an `init` of the built-in model does to the visibility.** -/
theorem fields_init {e : Entry} (hd : e.deleted = false) {a : Action} (hk : a.kind = "init") :
    ∃ op : Op, (applyOpsToEntry e (.l1 space) a).1.doc.fields["visibility"]? =
        mergeField e.doc.fields["visibility"]? op ∧
      ∃ v, op.value = some v ∧ tierValue v = tierOf a := by
  have hsound : space.Sound a.kind := space_governing.sound a.kind (by rw [hk]; rfl)
  have hlookup : (space.writes a.kind).lookup "visibility" =
      some (Def.set (.string "$payload.visibility")) := by rw [hk]; rfl
  refine ⟨L1.writeOp a "visibility" ((a.payload.get? "visibility").getD .null), ?_,
    (a.payload.get? "visibility").getD .null, rfl, ?_⟩
  · rw [fields_l1 hsound hd (by decide), hlookup]
    rfl
  · unfold tierValue tierOf
    cases a.payload.get? "visibility" <;> rfl

/-- `init` has neither precondition nor authorization. -/
theorem checks_init {a : Action} (hk : a.kind = "init") (d : Doc) :
    (Model.l1 space).checkPrecondition d a = .ok () ∧ (Model.l1 space).authorize d a = .ok () := by
  constructor
  · exact checkPrecondition_ungated (by rw [hk]; exact space_governing.ungated) d
  · show space.authorize d a = .ok ()
    unfold L1.authorize
    rw [hk, space_governing.noAuth "init" (by decide)]

/-! ## The gate of a document -/

/-- The document of its space decides who may read a document. -/
theorem gate_decides {s : Inner} {x d : DocId} {e gate : Entry} (he : s.entries[x]? = some e)
    (hsp : e.space = some d) (hgate : s.entries[d]? = some gate) :
    Store.spaceVisibility s x = some (Store.visibilityOf gate.doc) ∧
      ∀ p, Store.mayPeerRead s p x = (Store.visibilityOf gate.doc == "public" ||
        (!(Store.visibilityOf gate.doc == "private") &&
          (Inner.listOf gate.doc "members").any fun m => m == p)) := by
  -- a space document is its own gate
  have hself : d = x → gate = e := by
    rintro rfl
    exact Option.some.inj (hgate.symm.trans he)
  constructor
  · unfold Store.spaceVisibility
    rw [he, Option.bind_some, hsp, Option.bind_some, hgate]
    split
    · next hx => rw [hself hx]; rfl
    · rfl
  · intro p
    unfold Store.mayPeerRead
    rw [he]
    dsimp only
    rw [hsp]
    dsimp only
    rw [show (if d = x then some e else s.entries[d]?) = some gate from by
      split
      · next hx => rw [hself hx]
      · exact hgate]
    dsimp only
    by_cases hpub : Store.visibilityOf gate.doc = "public"
    · rw [if_pos hpub, hpub]
      rfl
    · rw [if_neg hpub, beq_false_of_ne hpub, Bool.false_or]
      by_cases hpriv : Store.visibilityOf gate.doc = "private"
      · rw [if_pos hpriv, hpriv]
        rfl
      · rw [if_neg hpriv, beq_false_of_ne hpriv]
        rfl

/-! ## An action that counts for nothing changes nothing -/

/-- Whatever field an action changes, it counts. -/
theorem fields_of_not_changes {r : ModelRegistry} {a : Action} {m : Model}
    (hm : r.find a.model = some m) {e : Entry} (h : changes r e a = false) {k : String}
    (hk : k ≠ nameKey) : (applyOpsToEntry e m a).1.doc.fields[k]? = e.doc.fields[k]? := by
  unfold changes at h
  rw [hm, Option.any_some] at h
  unfold applyOpsToEntry at h ⊢
  cases hr : m.reduce e.doc a with
  | error err => rfl
  | ok ops =>
    rw [hr] at h
    dsimp only at h ⊢
    rw [fields_liftName _ hk, applyOps_fst, (applyOps_of_not_applied _ h).1]
    rfl

/-! ## The fact -/

/-- An `init` of the built-in `space@1` with visibility `v`, or an action that neither writes the
    visibility nor deletes the document. -/
def KeepsTier (v : String) (r : ModelRegistry) (a : Action) : Prop :=
  (a.initsSpace = true ∧ r.find a.model = some (.l1 space) ∧ tierOf a = v) ∨
    (a.initsSpace = false ∧ ∀ m, r.find a.model = some m → m.writesKey tierKey a = false)

/-- The document is not deleted and has no other visibility than `v`; from an `init` on it has
    one. -/
def tierFact (v : String) : Fact where
  ok := KeepsTier v
  marks := Action.initsSpace
  safe doc del := del = false ∧ ∀ f, doc.fields["visibility"]? = some f → tierValue f.value = v
  held doc _ := doc.fields["visibility"]?.isSome = true

theorem kind_of_initsSpace {a : Action} (h : a.initsSpace = true) : a.kind = "init" := by
  unfold Action.initsSpace at h
  rw [Bool.and_eq_true, beq_iff_eq] at h
  exact h.2

/-- A write of `v` leaves a field of value `v`. -/
theorem mergeField_value {cur : Option Field} {op : Op} {w : Value} (hw : op.value = some w)
    {P : Value → Prop} (hP : P w) (hcur : ∀ f, cur = some f → P f.value) :
    ∃ f, mergeField cur op = some f ∧ P f.value := by
  have hnew : P (fieldFromOp op).value := by
    rw [(fieldFromOp_some hw).1]
    exact hP
  cases cur with
  | none => exact ⟨fieldFromOp op, by simp [mergeField, hw], hnew⟩
  | some f =>
    unfold mergeField
    dsimp only
    split
    · exact ⟨f, rfl, hcur f rfl⟩
    · split
      · exact ⟨fieldFromOp op, rfl, hnew⟩
      · exact ⟨f, rfl, hcur f rfl⟩

/-- An `init` in a safe document. -/
theorem tier_init {v : String} {e : Entry} (hs : (tierFact v).safe e.doc e.deleted) {a : Action}
    (ha : a.initsSpace = true) (hv : tierOf a = v) :
    (tierFact v).safe (applyOpsToEntry e (.l1 space) a).1.doc
        (applyOpsToEntry e (.l1 space) a).1.deleted ∧
      (tierFact v).held (applyOpsToEntry e (.l1 space) a).1.doc
        (applyOpsToEntry e (.l1 space) a).1.deleted := by
  obtain ⟨hd, hcur⟩ := hs
  obtain ⟨op, hfield, w, hw, htier⟩ := fields_init hd (kind_of_initsSpace ha)
  obtain ⟨f, hf, hval⟩ := mergeField_value hw (P := fun w => tierValue w = v) (htier.trans hv) hcur
  rw [hf] at hfield
  refine ⟨⟨?_, fun f' hf' => ?_⟩, ?_⟩
  · rw [deleted_l1]; exact hd
  · rw [hfield] at hf'
    rw [← Option.some.inj hf']
    exact hval
  · show ((applyOpsToEntry e (.l1 space) a).1.doc.fields["visibility"]?).isSome = true
    rw [hfield]
    rfl

theorem tierFact_lasting (v : String) : (tierFact v).Lasting where
  new := fun d => by
    have hnone : (Entry.new d).doc.fields["visibility"]? = none := by simp [Entry.new]
    refine ⟨⟨rfl, fun f hf => ?_⟩, fun h => ?_⟩
    · rw [hnone] at hf
      cases hf
    · replace h : ((Entry.new d).doc.fields["visibility"]?).isSome = true := h
      rw [hnone] at h
      cases h
  lift := by
    intro doc del d hs
    have hfield : (liftName { doc with id := d }).fields["visibility"]? =
        doc.fields["visibility"]? := fields_liftName _ (by decide)
    refine ⟨⟨hs.1, fun f hf => hs.2 f (hfield.symm.trans hf)⟩, ?_⟩
    show (liftName { doc with id := d }).fields["visibility"]?.isSome = true ↔ _
    rw [hfield]
    rfl
  keeps := by
    intro r a m e hok hm hs
    rcases hok with ⟨hinit, hfind, hv⟩ | ⟨-, hno⟩
    · obtain rfl : m = .l1 space := Option.some.inj (hm.symm.trans hfind)
      obtain ⟨hsafe, hheld⟩ := tier_init hs hinit hv
      exact ⟨hsafe, fun _ => hheld⟩
    · have hfield := fields_of_not_writesKey rfl (hno m hm) e (k := "visibility") (by decide)
        (by decide)
      refine ⟨⟨?_, fun f hf => hs.2 f (hfield.symm.trans hf)⟩, fun h => ?_⟩
      · rw [deleted_of_not_writesKey rfl (hno m hm)]; exact hs.1
      · show ((applyOpsToEntry e m a).1.doc.fields["visibility"]?).isSome = true
        rw [hfield]
        exact h
  found := by
    rintro r a (⟨-, hfind, -⟩ | ⟨hno, -⟩) hmark
    · exact ⟨_, hfind⟩
    · exact absurd (hno.symm.trans hmark) Bool.false_ne_true
  brings := by
    rintro r a m e (⟨hinit, hfind, hv⟩ | ⟨hno, -⟩) hmark hm hs
    · obtain rfl : m = .l1 space := Option.some.inj (hm.symm.trans hfind)
      exact ⟨(tier_init hs hinit hv).2, checks_init (kind_of_initsSpace hinit) e.doc⟩
    · exact absurd (hno.symm.trans hmark) Bool.false_ne_true
  only := by
    intro r a m e hok hm hs hnot hheld
    -- what is not there before and is there afterwards has changed
    have hdiff : ¬ (applyOpsToEntry e m a).1.doc.fields["visibility"]? =
        e.doc.fields["visibility"]? := by
      intro heq
      refine hnot ?_
      show (e.doc.fields["visibility"]?).isSome = true
      rw [← heq]
      exact hheld
    constructor
    · rcases hok with ⟨hinit, -⟩ | ⟨-, hno⟩
      · exact hinit
      · exact absurd (fields_of_not_writesKey rfl (hno m hm) e (by decide) (by decide)) hdiff
    · cases hch : changes r e a with
      | true => rfl
      | false => exact absurd (fields_of_not_changes hm hch (by decide)) hdiff

/-! ## Whole lifetimes -/

/-- A step that keeps the visibility `v` of `d`: what is accepted on `d` keeps it (`KeepsTier`) and
    reaches the disk, no state of `d` is adopted, and the logged actions keep their models. -/
def TierKept (d : DocId) (v : String) (s : Inner) (_ : List Action) : Happening → Prop
  | .event (.applyAction io a) => a.docId = d → ∀ m, s.Accepted a m →
      KeepsTier v s.models a ∧ io.wal = true ∧ io.snap = .ok
  | .event (.snapshot io id) => id = d → io.snap = .ok
  | .event (.adoptState st) => st.doc.id ≠ d
  | .event (.addModel m) => ∀ b, b ∈ (s.entryFor d).log ∨ b ∈ s.disk.alog[d]?.getD [] →
      (s.models.insert m).find b.model = s.models.find b.model
  | .event _ => True
  | .reopen extra => ∀ b, b ∈ (s.entryFor d).log ∨ b ∈ s.disk.alog[d]?.getD [] →
      (loadedModels extra).find b.model = s.models.find b.model

theorem KeepsTier.congr {v : String} {r r' : ModelRegistry} {a : Action} (h : KeepsTier v r a)
    (hr : r'.find a.model = r.find a.model) : KeepsTier v r' a := by
  unfold KeepsTier at h ⊢
  rw [hr]
  exact h

theorem TierKept.lasts {d : DocId} {v : String} {s : Inner} {acc : List Action} {h : Happening}
    (hP : TierKept d v s acc h) : (tierFact v).Lasts d s h where
  accepts := by
    rintro io a m rfl hd hacc
    exact hP hd m hacc
  snapshot := by
    rintro io rfl
    exact hP rfl
  noAdoption := by
    rintro st rfl
    exact hP
  models := by
    intro b hb hok
    refine KeepsTier.congr hok ?_
    cases h with
    | reopen extra => rw [models_reopened]; exact hP b hb
    | event ev =>
      by_cases hadd : ∃ m, ev = .addModel m
      · obtain ⟨m, rfl⟩ := hadd
        exact hP b hb
      · rw [show (s.happen (.event ev)).models = s.models from
          s.models_exec ev fun m hm => hadd ⟨m, hm⟩]

/-- Every accepted `init` has set `v`. -/
theorem tierOf_accepted {d : DocId} {v : String} {s₀ s : Inner} {acc : List Action}
    (hlife : Lifetime (TierKept d v) s₀ s acc) :
    ∀ b ∈ acc, b.docId = d → b.initsSpace = true → tierOf b = v := by
  induction hlife with
  | start => exact fun b hb => absurd hb List.not_mem_nil
  | step hl h hen hP ih =>
    intro b hb hd hinit
    rcases List.mem_append.mp hb with hb | hb
    · exact ih b hb hd hinit
    · obtain ⟨io, rfl, hok⟩ := mem_acceptedBy hb
      obtain ⟨m, hacc⟩ := Inner.accepted_of_isOk io hok
      rcases (hP hd m hacc).1 with ⟨-, -, hv⟩ | ⟨hno, -⟩
      · exact hv
      · exact absurd (hno.symm.trans hinit) Bool.false_ne_true

/-- **The visibility of a space is fixed at `init`.**  In every lifetime whose steps keep the
    visibility of `d`: in every state after an `init` `b` of `d` was accepted the visibility is the
    one `b` has set, and it is the tier of every document of the space. -/
theorem visibility_is_fixed {d : DocId} {v : String} {key : SigningKey} {origin : Origin}
    {extra : List Model} {s : Inner} {acc : List Action}
    (hlife : Lifetime (TierKept d v) (Store.fresh key origin extra) s acc) {b : Action}
    (hb : b ∈ acc) (hd : b.docId = d) (hinit : b.initsSpace = true) :
    Store.visibilityOf (s.entryFor d).doc = tierOf b ∧
      ∀ (x : DocId) (e : Entry), s.entries[x]? = some e → e.space = some d →
        Store.spaceVisibility s x = some (tierOf b) ∧
        ∀ p, Store.mayPeerRead s p x = (tierOf b == "public" || (!(tierOf b == "private") &&
          (Inner.listOf (s.entryFor d).doc "members").any fun m => m == p)) := by
  have hblank : ∀ e : Entry, e.blank = true → ¬ (tierFact v).held e.doc e.deleted := by
    intro e hbl hheld
    replace hheld : e.doc.fields["visibility"]?.isSome = true := hheld
    unfold Entry.blank at hbl
    simp only [Bool.and_eq_true] at hbl
    have hempty : e.doc.fields = ∅ := Std.ExtTreeMap.isEmpty_iff.mp hbl.1.1.2
    rw [hempty] at hheld
    simp at hheld
  obtain ⟨hsafe, hheld⟩ := (tierFact_lasting v).lifetime hblank hlife (d := d)
    fun s acc h _ hP => hP.lasts
  obtain ⟨gate, hgate, hsome, -⟩ := (hheld ⟨b, hb, hd, hinit⟩).entry
  have hgate : s.entries[d]? = some gate := hgate
  -- the field is there, and has no other value than the one `b` has set
  have htier : Store.visibilityOf gate.doc = tierOf b := by
    obtain ⟨f, hf⟩ := Option.isSome_iff_exists.mp hsome
    unfold Store.visibilityOf
    rw [hf, tierOf_accepted hlife b hb hd hinit]
    exact (hsafe.entry gate hgate).1.2 f hf
  rw [entryFor_eq hgate]
  refine ⟨htier, fun x e he hsp => ?_⟩
  obtain ⟨hvis, hread⟩ := gate_decides he hsp hgate
  rw [htier] at hvis hread
  exact ⟨hvis, hread⟩

end

section

open Sample

attribute [local instance] Sample.primitives

/-- Alice adds mallory to her space. -/
def malloryJoins : Action :=
  actOn spaceId alice "space" "add-member" (.object [("member", .string "mallory")]) 6
    [("alice", 2)] (some spaceId)

/-- Alice's space is set up, mallory joins it, and her store is opened again. -/
def clubLife : List Happening :=
  [.event (.applyAction Io.ok spaceInit), .event (.applyAction Io.ok malloryJoins), .reopen []]

theorem visibility_is_fixed_club :
    Store.visibilityOf
        (((Store.fresh alice.key alice.name []).happenAll [] clubLife).1.entryFor spaceId).doc =
      "protected" := by
  have hspace : (loadedModels []).find (ModelRef.new "space" "1") = some (.l1 space) :=
    seededWithBuiltins_find ("space", space) (by simp)
  have hmodels₀ : (Store.fresh alice.key alice.name []).models = loadedModels [] :=
    Store.fresh_models alice.key alice.name []
  have hmodels₁ : ((Store.fresh alice.key alice.name []).happen
      (.event (.applyAction Io.ok spaceInit))).models = loadedModels [] :=
    (Inner.sameSetup_applyAction (Store.fresh alice.key alice.name []) Io.ok
      spaceInit).models.trans hmodels₀
  have hmodels₂ : (((Store.fresh alice.key alice.name []).happen
      (.event (.applyAction Io.ok spaceInit))).happen
      (.event (.applyAction Io.ok malloryJoins))).models = loadedModels [] :=
    (Inner.sameSetup_applyAction _ Io.ok malloryJoins).models.trans hmodels₁
  have hinit : spaceInit.initsSpace = true ∧ malloryJoins.initsSpace = false ∧
      (Model.l1 space).writesKey tierKey malloryJoins = false ∧
      ((Store.fresh alice.key alice.name []).applyAction Io.ok spaceInit).2.isOk = true := by
    decide +kernel
  have hlife := ((Lifetime.start (P := TierKept spaceId "protected")).step
    (.event (.applyAction Io.ok spaceInit)) trivial (by
      intro _ m _
      refine ⟨Or.inl ⟨hinit.1, ?_, rfl⟩, rfl, rfl⟩
      rw [hmodels₀]
      exact hspace)).step (.event (.applyAction Io.ok malloryJoins)) trivial (by
      intro _ m _
      refine ⟨Or.inr ⟨hinit.2.1, fun m' hm' => ?_⟩, rfl, rfl⟩
      rw [hmodels₁] at hm'
      rw [← Option.some.inj (hspace.symm.trans hm')]
      exact hinit.2.2.1)
  have hlife := hlife.step (.reopen []) trivial (by
    intro b _
    rw [hmodels₂])
  refine (visibility_is_fixed hlife (b := spaceInit) ?_ rfl hinit.1).1
  have hmem : spaceInit ∈ Happening.acceptedBy (Store.fresh alice.key alice.name [])
      (.event (.applyAction Io.ok spaceInit)) := by
    show spaceInit ∈ if _ then _ else _
    rw [if_pos hinit.2.2.2]
    exact List.mem_singleton_self _
  exact List.mem_append_left _ (List.mem_append_left _ (List.mem_append_right _ hmem))

/-- Mallory, whose key is known, sends an `init` of her own. -/
def malloryInit : Action :=
  actOn spaceId mallory "space" "init" (.object [("managers", strs ["mallory"]),
    ("members", strs ["mallory"]), ("name", .string "club"), ("visibility", .string "public")]) 6
    [("alice", 1), ("mallory", 1)] (some spaceId)

def takenLife : List Happening :=
  [.event (.registerPeerKey mallory.name mallory.key), .event (.applyAction Io.ok spaceInit),
    .event (.applyAction Io.ok malloryInit)]

/-- **A second `init` changes the visibility**: the protected space is public, and the canonically
    first `init` is still alice's. -/
theorem second_init_changes_visibility :
    ¬ ∀ (s : Inner) (acc : List Action),
      Lifetime (fun _ _ _ => True) (Store.fresh alice.key alice.name []) s acc →
      ∀ (d : DocId) (b : Action), b ∈ acc → b.docId = d → b.initsSpace = true →
        (∀ c ∈ acc, c.docId = d → c.initsSpace = true → canonKey b ≤ canonKey c) →
        Store.visibilityOf (s.entryFor d).doc = tierOf b := by
  intro h
  have hfacts : ((Store.fresh alice.key alice.name []).happenAll [] takenLife).2 =
        [spaceInit, malloryInit] ∧
      spaceInit.initsSpace = true ∧ canonKey spaceInit ≤ canonKey malloryInit ∧
      tierOf spaceInit = "protected" ∧
      Store.visibilityOf (((Store.fresh alice.key alice.name []).happenAll [] takenLife).1.entryFor
        spaceId).doc = "public" := by
    decide +kernel
  obtain ⟨hacc, hinit, hle, htier, hvis⟩ := hfacts
  have hlife := Lifetime.happenAll (P := fun _ _ _ => True) takenLife
    (Lifetime.start : Lifetime _ (Store.fresh alice.key alice.name []) _ _) (by
      intro h hh s acc
      simp only [takenLife, List.mem_cons, List.not_mem_nil, or_false] at hh
      rcases hh with rfl | rfl | rfl <;> exact ⟨trivial, trivial⟩)
  have hsame := h _ _ hlife spaceId spaceInit (by rw [hacc]; simp) rfl hinit (by
    rw [hacc]
    intro c hc _ _
    simp only [List.mem_cons, List.not_mem_nil, or_false] at hc
    rcases hc with rfl | rfl
    · exact le_rfl
    · exact hle)
  rw [hvis, htier] at hsame
  exact absurd hsame (by decide)

end

end PhReactor
