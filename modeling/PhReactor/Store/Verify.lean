/-
  `Store::verify`: the audit of a document's action log.

  The audit walks the live log in the order it is kept, from the snapshot if there is one, and
  re-derives the document with rules of its own: for every action the model, the hash chain, the
  signatures, the precondition against the re-folded state, the quorum against the store AS IT IS
  NOW; at the end the re-folded document must equal the stored one.  It does not ask the model to
  authorize, and it folds an action in whether its precondition holds or not.

  1. `Store.verify` is the source's loop, with the text of every problem.

  2. `verifies_iff` is what the verdict means: no action has a problem relative to the actions
     BEFORE it, and the documents agree.  Everything below a verdict is a fact about one split
     `log = pre ++ a :: post`.

  3. `actionProblems_eq_nil` takes the problems of one action apart.

  Documents are compared as Rust compares them (`Doc.beq`): two float zeros are equal.
-/
import PhReactor.Lib.EachAfter
import PhReactor.Store.Apply

set_option linter.unusedSectionVars false

namespace PhReactor

/-! ## Comparing documents -/

/-- `Field`'s `PartialEq`. -/
def Field.beq (f g : Field) : Bool :=
  f.value == g.value && decide (f.version = g.version) && f.ts == g.ts && f.origin == g.origin &&
    f.deleted == g.deleted

/-- `BTreeMap`'s `PartialEq`: the same keys in the same order, with equal fields. -/
def beqFields : List (String × Field) → List (String × Field) → Bool
  | [], [] => true
  | (k, f) :: fs, (l, g) :: gs => k == l && f.beq g && beqFields fs gs
  | _, _ => false

/-- `Doc`'s `PartialEq`. -/
def Doc.beq (d d' : Doc) : Bool :=
  d.id == d'.id && d.name == d'.name && beqFields d.fields.toList d'.fields.toList

theorem Field.beq_refl (f : Field) : f.beq f = true := by
  simp [Field.beq, BEq.beq, Value.beq_refl]

theorem beqFields_refl : ∀ l : List (String × Field), beqFields l l = true := by
  intro l
  induction l with
  | nil => rfl
  | cons p l ih =>
    obtain ⟨k, f⟩ := p
    simp [beqFields, Field.beq_refl, ih]

theorem Doc.beq_refl (d : Doc) : d.beq d = true := by
  simp [Doc.beq, beqFields_refl]

/-! ## The report -/

/-- `name@version[#hash]`. -/
def ModelRef.text (r : ModelRef) : String :=
  r.name ++ "@" ++ r.version ++ (match r.hash with
    | some h => "#" ++ hashText h
    | none => "")

/-- The check result for a single action. -/
structure ActionCheck where
  ts : U64
  origin : String
  kind : String
  model : String
  ok : Bool
  problems : List String

/-- The audit report: one entry per surviving action plus an overall verdict. -/
structure VerifyReport where
  name : String
  docId : DocId
  /-- The model the log was written under (from the first surviving action). -/
  model : Option ModelRef
  /-- True when there is a snapshot to start from. -/
  fromSnapshot : Bool
  actions : List ActionCheck
  ok : Bool

/-- The audit on its way through the log. -/
structure Verifying where
  scratch : Entry
  /-- Every action hash seen so far. -/
  seen : List Hash32
  report : VerifyReport

variable [Primitives]

/-! ## The problems of one action -/

/-- Hash chain: a `prev_hash` must name an action that really precedes. -/
def chainProblems (seen : List Hash32) (a : Action) : List String :=
  match a.prevHash with
  | some got =>
    if !seen.contains got then
      ["hash chain broken: prev_hash " ++ hashText got ++ " names no earlier action"]
    else []
  | none => if !seen.isEmpty then ["chain gap: missing prev_hash"] else []

/-- Re-fold through the model: whatever the checks say. -/
def refoldScratch (r : ModelRegistry) (scratch : Entry) (a : Action) : Entry :=
  match r.find a.model with
  | some m => (applyOpsToEntry scratch m a).1
  | none => scratch

namespace Inner

variable (s : Inner)

/-- The problem with one signature, if any. -/
def keyProblems (origin : Origin) (unknown malformed invalid : String)
    (verify : PublicKey → Bool) : List String :=
  match s.knownKeys[origin]? with
  | some k =>
    if Primitives.keyOk k then if !verify k then [invalid] else []
    else [malformed]
  | none => [unknown]

/-- Origin signature. -/
def originProblems (a : Action) : List String :=
  s.keyProblems a.origin ("unknown origin " ++ a.origin) "origin key malformed"
    "origin signature invalid" a.verify

/-- Co-signatures. -/
def cosigProblems (a : Action) : List String :=
  a.cosig.zipIdx.flatMap fun (cs, i) =>
    s.keyProblems cs.origin ("unknown co-signer " ++ cs.origin)
      ("co-signer " ++ cs.origin ++ " key malformed")
      ("co-signature " ++ toString i ++ " from " ++ cs.origin ++ " invalid") (a.verifyCosig i)

/-- Precondition and quorum, when the model is loaded. -/
def modelProblems (scratch : Entry) (a : Action) : Model → List String := fun m =>
  (match m.checkPrecondition scratch.doc a with
    | .error r => ["precondition: " ++ r.describe]
    | .ok () => []) ++
  (match m.quorum a.kind with
    | some spec => (s.quorumProblem spec a).toList
    | none => [])

/-- Everything that is wrong with an action, after the actions that led to `scratch` and `seen`. -/
def actionProblems (scratch : Entry) (seen : List Hash32) (a : Action) : List String :=
  (match s.models.find a.model with
    | some _ => []
    | none => ["model " ++ a.model.name ++ " not loaded"]) ++
  chainProblems seen a ++ s.originProblems a ++ s.cosigProblems a ++
  (match s.models.find a.model with
    | some m => s.modelProblems scratch a m
    | none => [])

/-- The audit of one action. -/
def verifyAction (v : Verifying) (a : Action) : Verifying :=
  let problems := s.actionProblems v.scratch v.seen a
  { scratch := refoldScratch s.models v.scratch a
    seen := v.seen ++ [a.hash]
    report := { v.report with
      model := v.report.model.or (some a.model)
      actions := v.report.actions ++ [{
        ts := a.ts
        origin := a.origin
        kind := a.kind
        model := a.model.text
        ok := problems.isEmpty
        problems }]
      ok := v.report.ok && problems.isEmpty } }

end Inner

/-- The last problem: it is noted with the last action, or on its own. -/
def noteFieldMap (report : VerifyReport) : VerifyReport :=
  let note := "re-folded field map does not match the stored doc"
  { report with
    ok := false
    actions :=
      match report.actions.getLast? with
      | some last => report.actions.dropLast ++
          [{ last with ok := false, problems := last.problems ++ [note] }]
      | none => [{
          ts := 0
          origin := ""
          kind := "(field map)"
          model := ""
          ok := false
          problems := [note] }] }

/-- Verify a document's action log. -/
def Store.verify (s : Inner) (name : String) : Except String VerifyReport :=
  match s.names[name]? with
  | none => .error ("no doc named '" ++ name ++ "'")
  | some id =>
    match s.entries[id]? with
    | none => .error ("no doc named '" ++ name ++ "'")
    | some entry =>
      let base := s.disk.snap[id]?
      let start : Verifying := {
        scratch := s.baseEntry id
        seen := (base.bind DocState.logHash).toList
        report := {
          name
          docId := id
          model := none
          fromSnapshot := base.isSome
          actions := []
          ok := true } }
      let v := entry.log.foldl s.verifyAction start
      .ok (if v.scratch.doc.beq entry.doc then v.report else noteFieldMap v.report)

/-- Does the audit of a document report ok. -/
def Store.verifies (s : Inner) (name : String) : Bool :=
  match Store.verify s name with
  | .ok report => report.ok
  | .error _ => false

/-! ## What the verdict means -/

/-- The re-folded entry after the actions of `pre`. -/
def Inner.scratchAt (s : Inner) (id : DocId) (pre : List Action) : Entry :=
  pre.foldl (refoldScratch s.models) (s.baseEntry id)

/-- The hashes seen before an action. -/
def Inner.seenAt (s : Inner) (id : DocId) (pre : List Action) : List Hash32 :=
  (s.disk.snap[id]?.bind DocState.logHash).toList ++ pre.map Action.hash

/-- No action has a problem relative to those before it. -/
def Inner.Clean (s : Inner) (id : DocId) : List Action → Prop :=
  Lib.EachAfter fun pre a => s.actionProblems (s.scratchAt id pre) (s.seenAt id pre) a = []

theorem scratchAt_concat (s : Inner) (id : DocId) (pre : List Action) (a : Action) :
    s.scratchAt id (pre ++ [a]) = refoldScratch s.models (s.scratchAt id pre) a := by
  unfold Inner.scratchAt
  rw [List.foldl_append]
  rfl

theorem seenAt_concat (s : Inner) (id : DocId) (pre : List Action) (a : Action) :
    s.seenAt id (pre ++ [a]) = s.seenAt id pre ++ [a.hash] := by
  unfold Inner.seenAt
  rw [List.map_append, List.append_assoc]
  rfl

/-- **The audit, on its way**: it holds the re-folded entry and the hashes of what it has seen, and
    is still content exactly when all of that is clean. -/
theorem foldl_verifyAction {s : Inner} (id : DocId) (start : Verifying)
    (hscratch : start.scratch = s.baseEntry id)
    (hseen : start.seen = (s.disk.snap[id]?.bind DocState.logHash).toList)
    (hok : start.report.ok = true) (log : List Action) :
    (log.foldl s.verifyAction start).scratch = s.scratchAt id log ∧
      (log.foldl s.verifyAction start).seen = s.seenAt id log ∧
      ((log.foldl s.verifyAction start).report.ok = true ↔ s.Clean id log) := by
  induction log using List.reverseRecOn with
  | nil =>
    refine ⟨hscratch, ?_, iff_of_true hok Lib.eachAfter_nil⟩
    unfold Inner.seenAt
    rw [List.map_nil, List.append_nil]
    exact hseen
  | append_singleton log a ih =>
    obtain ⟨ihscratch, ihseen, ihok⟩ := ih
    rw [List.foldl_append, List.foldl_cons, List.foldl_nil, scratchAt_concat, seenAt_concat,
      show s.Clean id (log ++ [a]) ↔ _ from Lib.eachAfter_concat,
      ← show _ ↔ Lib.EachAfter _ log from ihok, ← ihscratch, ← ihseen]
    refine ⟨rfl, rfl, ?_⟩
    show (_ && _) = true ↔ _
    rw [Bool.and_eq_true, List.isEmpty_iff]

/-- **What the verdict means.** -/
theorem verifies_iff {s : Inner} {name : String} : Store.verifies s name = true ↔
    ∃ (id : DocId) (e : Entry), s.names[name]? = some id ∧ s.entries[id]? = some e ∧
      s.Clean id e.log ∧ (s.scratchAt id e.log).doc.beq e.doc = true := by
  unfold Store.verifies Store.verify
  cases hname : s.names[name]? with
  | none => simp
  | some id =>
    cases he : s.entries[id]? with
    | none => simp [he]
    | some e =>
      obtain ⟨hscratch, -, hok⟩ := foldl_verifyAction (s := s) id {
        scratch := s.baseEntry id
        seen := (s.disk.snap[id]?.bind DocState.logHash).toList
        report := ⟨name, id, none, s.disk.snap[id]?.isSome, [], true⟩ } rfl rfl rfl e.log
      dsimp only
      rw [he]
      dsimp only
      rw [hscratch]
      constructor
      · intro h
        split at h
        · next hdoc => exact ⟨id, e, rfl, he, hok.mp h, hdoc⟩
        · cases h
      · rintro ⟨id', e', hid, he', hclean, hdoc⟩
        obtain rfl := Option.some.inj hid
        obtain rfl := Option.some.inj (he.symm.trans he')
        rw [if_pos hdoc]
        exact hok.mpr hclean

/-! ## The problems of one action, taken apart -/

/-- The signature of `origin` is there and valid. -/
def Inner.Vouches (s : Inner) (origin : Origin) (verify : PublicKey → Bool) : Prop :=
  ∃ k, s.knownKeys[origin]? = some k ∧ Primitives.keyOk k = true ∧ verify k = true

theorem keyProblems_eq_nil {s : Inner} {origin : Origin} {unknown malformed invalid : String}
    {verify : PublicKey → Bool} :
    s.keyProblems origin unknown malformed invalid verify = [] ↔ s.Vouches origin verify := by
  unfold Inner.keyProblems Inner.Vouches
  cases s.knownKeys[origin]? with
  | none => simp
  | some k => cases hk : Primitives.keyOk k <;> cases hv : verify k <;> simp [hk, hv]

/-- The chain of an action is sound: it names something seen, or nothing was seen. -/
def Chained (seen : List Hash32) (a : Action) : Prop :=
  match a.prevHash with
  | some h => h ∈ seen
  | none => seen = []

theorem chainProblems_eq_nil {seen : List Hash32} {a : Action} :
    chainProblems seen a = [] ↔ Chained seen a := by
  unfold chainProblems Chained
  cases a.prevHash with
  | none => cases seen <;> simp
  | some h => simp

/-- **An action without problems**: its model is loaded, it is chained and signed, its precondition
    holds and its quorum is met. -/
theorem actionProblems_eq_nil {s : Inner} {scratch : Entry} {seen : List Hash32} {a : Action} :
    s.actionProblems scratch seen a = [] ↔
      Chained seen a ∧ s.Vouches a.origin a.verify ∧
      (∀ p ∈ a.cosig.zipIdx, s.Vouches p.1.origin (a.verifyCosig p.2)) ∧
      ∃ m, s.models.find a.model = some m ∧ m.checkPrecondition scratch.doc a = .ok () ∧
        ∀ spec, m.quorum a.kind = some spec → s.quorumProblem spec a = none := by
  unfold Inner.actionProblems
  simp only [List.append_eq_nil_iff, chainProblems_eq_nil]
  rw [show s.originProblems a = [] ↔ s.Vouches a.origin a.verify from keyProblems_eq_nil,
    show s.cosigProblems a = [] ↔
      ∀ p ∈ a.cosig.zipIdx, s.Vouches p.1.origin (a.verifyCosig p.2) from by
        unfold Inner.cosigProblems
        rw [List.flatMap_eq_nil_iff]
        exact forall₂_congr fun p _ => keyProblems_eq_nil]
  cases hm : s.models.find a.model with
  | none => simp
  | some m =>
    simp only [Option.some.injEq, exists_eq_left', Inner.modelProblems, List.append_eq_nil_iff,
      true_and, and_assoc]
    refine and_congr_right fun _ => and_congr_right fun _ => and_congr_right fun _ => ?_
    refine and_congr ?_ ?_
    · cases m.checkPrecondition scratch.doc a <;> simp
    · cases m.quorum a.kind <;> simp [Option.toList_eq_nil_iff]

end PhReactor
