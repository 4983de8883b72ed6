/-
  When the audit of an honest log reports ok.

  `Store::verify` re-derives a document with rules of its own, so a log that the store itself has
  built may still be reported broken.  What it takes:

  1. **The chain.**  `build_action` links an action to the last one of the LIVE log, and a snapshot
     clears that log: the first action after a snapshot carries no link, while the audit starts from
     the snapshot's log hash and misses it (`chained_own_iff`, `snapshot_breaks_chain`).  An action
     of a peer may also arrive before the one it names, or be sorted before it by a re-fold; and a
     reopening leaves out of the log what changed nothing, whoever may name it.

  2. **The fold.**  A re-fold passes over an action whose precondition or authorization fails where
     it then stands; the audit reports the precondition and folds the action in all the same.

  3. **The base.**  A torn snapshot file takes the base away from under the live log, and an adopted
     state has neither a snapshot nor a log behind it.

  4. **What is known.**  Quorums are counted against the members of today, signatures checked with
     the keys of today.

  `Auditable` says of every step that it avoids 1 to 3; the rest is asked of the state in which the
  audit runs.  Then every document is the re-fold of its log from its base, every action of the log
  sits where it may (`LogInv`), and the audit reports ok (`honest_log_verifies`).
-/
import PhReactor.Store.ChangeFeed
import PhReactor.Store.Membership
import PhReactor.Store.TamperEvidence

set_option linter.unusedSectionVars false

namespace PhReactor

section

variable [Primitives]

/-! ## Re-folding a log -/

theorem SameDoc.after_refoldScratch {e e' : Entry} (h : SameDoc e e') (r : ModelRegistry)
    (a : Action) : SameDoc (refoldScratch r e a) (refoldScratch r e' a) := by
  unfold refoldScratch
  cases r.find a.model with
  | none => exact h
  | some m => exact h.after_applyOps m a

theorem refoldScratch_eq {r : ModelRegistry} {a : Action} {m : Model} (hm : r.find a.model = some m)
    (e : Entry) : refoldScratch r e a = (applyOpsToEntry e m a).1 := by
  unfold refoldScratch
  rw [hm]

theorem lifted_foldl_refoldScratch (r : ModelRegistry) (l : List Action) {e : Entry}
    (h : Lifted e.doc) : Lifted (l.foldl (refoldScratch r) e).doc := by
  refine List.foldlRecOn (motive := fun e : Entry => Lifted e.doc) _ _ h fun e he a _ => ?_
  unfold refoldScratch
  cases r.find a.model with
  | none => exact he
  | some m => exact lifted_applyOpsToEntry he m a

theorem id_foldl_refoldScratch (r : ModelRegistry) (l : List Action) (e : Entry) :
    (l.foldl (refoldScratch r) e).doc.id = e.doc.id := by
  refine List.foldlRecOn (motive := fun e' : Entry => e'.doc.id = e.doc.id) _ _ rfl
    fun e' he a _ => ?_
  unfold refoldScratch
  cases r.find a.model with
  | none => exact he
  | some m => exact (id_applyOpsToEntry e' m a).trans he

/-- Models that agree on a log re-fold it alike. -/
theorem foldl_refoldScratch_congr {r r' : ModelRegistry} {l : List Action} (e : Entry)
    (h : ∀ a ∈ l, r'.find a.model = r.find a.model) :
    l.foldl (refoldScratch r') e = l.foldl (refoldScratch r) e := by
  refine List.foldl_ext _ _ e fun e' a ha => ?_
  unfold refoldScratch
  rw [h a ha]

/-! ## A log that sits well -/

/-- After the actions `pre`, from `base` and with the hashes `seed`: the action is chained, its
    model is loaded and its precondition holds. -/
structure Sits (r : ModelRegistry) (base : Entry) (seed : List Hash32) (pre : List Action)
    (a : Action) : Prop where
  chained : Chained (seed ++ pre.map Action.hash) a
  passes : ∃ m, r.find a.model = some m ∧
    m.checkPrecondition (pre.foldl (refoldScratch r) base).doc a = .ok ()

/-- Origin and co-signers have signed with their own keys. -/
structure Action.SignedUnder (keys : Origin → PublicKey) (a : Action) : Prop where
  origin : Primitives.keyOk (keys a.origin) = true ∧ a.verify (keys a.origin) = true
  cosig : ∀ p ∈ a.cosig.zipIdx, Primitives.keyOk (keys p.1.origin) = true ∧
    a.verifyCosig p.2 (keys p.1.origin) = true

/-- The entry is the re-fold of its log from `base`, and every action of the log sits well. -/
structure LogInv (keys : Origin → PublicKey) (r : ModelRegistry) (base : Entry)
    (seed : List Hash32) (e : Entry) : Prop where
  state : SameDoc (e.log.foldl (refoldScratch r) base) e
  sits : Lib.EachAfter (Sits r base seed) e.log
  signed : ∀ a ∈ e.log, a.SignedUnder keys

section

variable {keys : Origin → PublicKey} {r : ModelRegistry} {base : Entry} {seed : List Hash32}

/-- An empty log. -/
theorem LogInv.of_nil {e : Entry} (hlog : e.log = []) (h : SameDoc base e) :
    LogInv keys r base seed e := by
  refine ⟨?_, ?_, ?_⟩ <;> rw [hlog]
  · exact h
  · exact Lib.eachAfter_nil
  · exact fun a ha => absurd ha List.not_mem_nil

/-- Only document, flag and log matter. -/
theorem LogInv.congr {e e' : Entry} (h : LogInv keys r base seed e) (hdoc : SameDoc e e')
    (hlog : e'.log = e.log) : LogInv keys r base seed e' := by
  refine ⟨?_, ?_, ?_⟩ <;> rw [hlog]
  · exact h.state.trans hdoc
  · exact h.sits
  · exact h.signed

theorem LogInv.models {e : Entry} (h : LogInv keys r base seed e) {r' : ModelRegistry}
    (hsame : ∀ a ∈ e.log, r'.find a.model = r.find a.model) : LogInv keys r' base seed e := by
  refine ⟨?_, fun pre a post hsplit => ?_, h.signed⟩
  · rw [foldl_refoldScratch_congr base hsame]
    exact h.state
  · obtain ⟨hchain, m, hm, hpre⟩ := h.sits pre a post hsplit
    have hin : ∀ b ∈ pre ++ [a], b ∈ e.log := by
      rw [hsplit]
      intro b hb
      rcases List.mem_append.mp hb with hb | hb
      · exact List.mem_append_left _ hb
      · rw [List.mem_singleton.mp hb]
        exact List.mem_append_right _ List.mem_cons_self
    refine ⟨hchain, m, ?_, ?_⟩
    · rw [hsame a (hin a (List.mem_append_right _ List.mem_cons_self))]
      exact hm
    · rw [foldl_refoldScratch_congr base fun b hb => hsame b (hin b (List.mem_append_left _ hb))]
      exact hpre

theorem LogInv.resolves {e : Entry} (h : LogInv keys r base seed e) : r.Resolves e.log := by
  intro a ha
  obtain ⟨pre, post, hsplit⟩ := List.append_of_mem ha
  obtain ⟨-, m, hm, -⟩ := h.sits pre a post hsplit
  rw [hm]
  rfl

/-- **An action at the end of the log.** -/
theorem LogInv.append {e : Entry} (h : LogInv keys r base seed e) {a : Action} {m : Model}
    (hm : r.find a.model = some m) (hpre : m.checkPrecondition e.doc a = .ok ())
    (hchain : Chained (seed ++ e.log.map Action.hash) a) (hsig : a.SignedUnder keys) :
    LogInv keys r base seed (appended e m a) := by
  refine ⟨?_, ?_, ?_⟩ <;> rw [log_appended]
  · rw [List.foldl_append, List.foldl_cons, List.foldl_nil, refoldScratch_eq hm]
    have hops := (h.state.trans (sameDoc_stamped e a).symm).after_applyOps m a
    exact ⟨hops.doc, hops.deleted⟩
  · refine Lib.eachAfter_concat.mpr ⟨h.sits, hchain, m, hm, ?_⟩
    rw [h.state.doc]
    exact hpre
  · exact List.forall_mem_append.mpr ⟨h.signed, List.forall_mem_singleton.mpr hsig⟩

/-- Where a fold passes nothing over, it re-folds as the audit does, and every precondition holds
    where its action stands. -/
theorem allPass_spec : ∀ (l : List Action) {e e' : Entry}, SameDoc e e' → allPass r e l = true →
    SameDoc (l.foldl (refoldScratch r) e') (l.foldl (foldStep r) e) ∧
      Lib.EachAfter (fun pre a => ∃ m, r.find a.model = some m ∧
        m.checkPrecondition (pre.foldl (refoldScratch r) e').doc a = .ok ()) l := by
  intro l
  induction l with
  | nil => exact fun h _ => ⟨h.symm, Lib.eachAfter_nil⟩
  | cons a l ih =>
    intro e e' h hpass
    unfold allPass at hpass
    rw [Bool.and_eq_true, Bool.not_eq_true'] at hpass
    obtain ⟨hhere, hrest⟩ := hpass
    obtain ⟨m, hm, hstep⟩ := foldStep_of_passes hhere
    have hpre : m.checkPrecondition e'.doc a = .ok () := by
      unfold passesOver at hhere
      rw [hm] at hhere
      dsimp only at hhere
      rw [Bool.not_eq_false', Bool.and_eq_true] at hhere
      rw [← h.doc]
      cases hok : m.checkPrecondition e.doc a with
      | ok u => rfl
      | error p =>
        rw [hok] at hhere
        cases hhere.1
    have hnext : SameDoc (foldStep r e a) (refoldScratch r e' a) := by
      rw [hstep, refoldScratch_eq hm]
      have hops := h.after_applyOps m a
      exact ⟨hops.doc, hops.deleted⟩
    obtain ⟨hdoc, heach⟩ := ih hnext hrest
    refine ⟨hdoc, fun pre b post hsplit => ?_⟩
    cases pre with
    | nil =>
      obtain ⟨rfl, -⟩ := List.cons.inj hsplit
      exact ⟨m, hm, hpre⟩
    | cons c pre =>
      obtain ⟨rfl, htail⟩ := List.cons.inj hsplit
      exact heach pre b post htail

end

/-! ## One document -/

/-- The hashes the audit starts from. -/
def View.seed (v : View) : List Hash32 := (v.snap.bind DocState.logHash).toList

/-- The entry the audit starts from. -/
def View.base (v : View) (d : DocId) : Entry :=
  let fresh :=
    match v.snap with
    | some b => Entry.ofState b
    | none => Entry.new d
  { fresh with doc := liftName fresh.doc }

theorem lifted_base (v : View) (d : DocId) : Lifted (v.base d).doc := lifted_liftName _

/-- The log of a document sits well, its base is its own, and its WAL is signed. -/
structure View.Honest (keys : Origin → PublicKey) (r : ModelRegistry) (d : DocId) (v : View) :
    Prop where
  log : LogInv keys r (v.base d) v.seed (v.entry.getD (Entry.new d))
  id : (v.base d).doc.id = d
  filed : ∀ l, v.alog = some l → ∀ a ∈ l, a.SignedUnder keys

section

variable {keys : Origin → PublicKey} {r : ModelRegistry} {d : DocId} {v : View}

theorem View.Honest.lifted (h : v.Honest keys r d) {e : Entry} (he : v.entry = some e) :
    Lifted e.doc := by
  have hlog := h.log
  rw [he, Option.getD_some] at hlog
  rw [← hlog.state.doc]
  exact lifted_foldl_refoldScratch r _ (lifted_base v d)

theorem View.Honest.docId (h : v.Honest keys r d) {e : Entry} (he : v.entry = some e) :
    e.doc.id = d := by
  have hlog := h.log
  rw [he, Option.getD_some] at hlog
  rw [← hlog.state.doc, id_foldl_refoldScratch]
  exact h.id

/-- A WAL file that is not there holds nothing. -/
theorem View.Honest.filed_getD (h : v.Honest keys r d) :
    ∀ a ∈ v.alog.getD [], a.SignedUnder keys := by
  cases hfile : v.alog with
  | none => exact fun a ha => absurd ha List.not_mem_nil
  | some l => exact h.filed l hfile

/-- Entry, snapshot and WAL are all there is. -/
theorem View.Honest.congr {v' : View} (h : v.Honest keys r d) (hentry : v'.entry = v.entry)
    (hsnap : v'.snap = v.snap) (halog : v'.alog = v.alog) : v'.Honest keys r d := by
  cases v
  cases v'
  dsimp only at hentry hsnap halog
  subst hentry hsnap halog
  exact h

/-- **A snapshot**: the entry becomes the base, and the log is empty.  A torn one must not take a
    base away. -/
theorem View.Honest.snapshot (h : v.Honest keys r d) {io : Io}
    (htorn : io.snap = .torn → v.snap = none) : (v.snapshot io).Honest keys r d := by
  cases he : v.entry with
  | none =>
    rw [v.snapshot_of_none he]
    exact h
  | some e =>
    rcases v.snapshot_cases io he with ⟨hentry, halog, hsnap⟩ | ⟨-, heq⟩
    · refine h.congr (hentry.trans he.symm) ?_ halog
      rcases hsnap with hsnap | ⟨hio, hsnap⟩
      · exact hsnap
      · rw [hsnap, htorn hio]
    · rw [heq]
      have hlift : liftName e.doc = e.doc := liftName_of_lifted (h.lifted he)
      refine ⟨LogInv.of_nil rfl ⟨hlift, rfl⟩, ?_, fun l hl => ?_⟩
      · show (liftName e.doc).id = d
        rw [hlift]
        exact h.docId he
      · dsimp only at hl
        split at hl
        · rw [← Option.some.inj hl]
          exact fun a ha => absurd ha List.not_mem_nil
        · exact h.filed l hl

/-- An action in the WAL. -/
theorem View.Honest.persist (h : v.Honest keys r d) {a : Action} (hsig : a.SignedUnder keys)
    (io : Io) : (v.persist io a).Honest keys r d := by
  unfold View.persist
  split
  · refine ⟨h.log, h.id, fun l hl => ?_⟩
    rw [← Option.some.inj hl]
    exact List.forall_mem_append.mpr ⟨h.filed_getD, List.forall_mem_singleton.mpr hsig⟩
  · exact h

theorem View.Honest.finish (h : v.Honest keys r d) {io : Io} {a : Action}
    (hsig : a.SignedUnder keys) (htorn : v.full = true → io.snap = .torn → v.snap = none) :
    (v.finish io a).Honest keys r d := by
  unfold View.finish
  split
  · next hfull =>
    refine (h.persist hsig io).snapshot fun hio => ?_
    rw [View.snap_persist]
    exact htorn hfull hio
  · exact h.persist hsig io

/-- Another entry over the same base. -/
theorem View.Honest.put (h : v.Honest keys r d) {e : Entry}
    (he : LogInv keys r (v.base d) v.seed e) :
    View.Honest keys r d { v with entry := some e } :=
  ⟨he, h.id, h.filed⟩

theorem View.Honest.models (h : v.Honest keys r d) {r' : ModelRegistry}
    (hsame : ∀ a ∈ (v.entry.getD (Entry.new d)).log, r'.find a.model = r.find a.model) :
    v.Honest keys r' d :=
  ⟨h.log.models hsame, h.id, h.filed⟩

end

/-! ## An accepted action -/

/-- The action joins the log soundly.  At the end, it names an action of the log or the snapshot's
    log hash, or there is nothing to name.  If the log is sorted again, every action does so where
    it then stands, and the re-fold passes none over. -/
def Inner.JoinsChain (s : Inner) (a : Action) : Prop :=
  if s.outOfOrder a then
    allPass s.models (s.baseEntry a.docId) (sortLog ((s.entryFor a.docId).log ++ [a])) = true ∧
    Lib.EachAfter (fun pre b => Chained (s.seenAt a.docId pre) b)
      (sortLog ((s.entryFor a.docId).log ++ [a]))
  else Chained (s.seenAt a.docId (s.entryFor a.docId).log) a

/-- **What the link of an action built here comes to**: it is chained unless it is the first one
    after a snapshot that has a log hash. -/
theorem chained_own_iff {s : Inner} {now : U64} {d : DocId} {model : ModelRef} {kind : String}
    {payload : Value} {a : Action} (hb : (s.buildAction now d model kind payload).2 = .ok a) :
    Chained (s.seenAt d (s.entryFor d).log) a ↔
      (s.entryFor d).log ≠ [] ∨ s.disk.snap[d]?.bind DocState.logHash = none := by
  have hprev : a.prevHash = (s.entryFor d).log.getLast?.map Action.hash := by
    unfold Inner.buildAction Inner.nextTs at hb
    dsimp only at hb
    cases he : s.entries[d]? with
    | none =>
      rw [he] at hb
      cases hb
    | some e =>
      rw [he] at hb
      rw [← Except.ok.inj hb, entryFor_eq he]
      rfl
  unfold Chained Inner.seenAt
  rw [hprev]
  rcases List.eq_nil_or_concat (s.entryFor d).log with hnil | ⟨l, x, hlog⟩
  · rw [hnil]
    show _ ++ [] = [] ↔ _
    rw [List.append_nil, Option.toList_eq_nil_iff]
    simp
  · rw [hlog, List.concat_eq_append, List.getLast?_concat]
    simp

theorem logInv_settled {keys : Origin → PublicKey} {s : Inner} {a : Action} {m : Model}
    (hacc : s.Accepted a m) (hjoin : s.JoinsChain a) (hsig : a.SignedUnder keys)
    (h : (s.view a.docId).Honest keys s.models a.docId) :
    LogInv keys s.models (s.baseEntry a.docId) (s.view a.docId).seed (s.settled a m) := by
  have hlog : LogInv keys s.models (s.baseEntry a.docId) (s.view a.docId).seed
      (s.entryFor a.docId) := h.log
  unfold Inner.JoinsChain at hjoin
  unfold Inner.settled
  dsimp only
  split
  · next hord =>
    rw [if_pos hord] at hjoin
    obtain ⟨hpass, hchain⟩ := hjoin
    obtain ⟨hdoc, -, -, hsorted⟩ := refolded_spec s a.docId (appended (s.entryFor a.docId) m a)
    rw [log_appended] at hsorted
    obtain ⟨hfold, heach⟩ := allPass_spec _ (SameDoc.refl _) hpass
    refine ⟨?_, ?_, ?_⟩ <;> rw [hsorted]
    · exact hfold.trans hdoc.symm
    · exact fun pre b post hsplit => ⟨hchain pre b post hsplit, heach pre b post hsplit⟩
    · intro b hb
      exact List.forall_mem_append.mpr ⟨hlog.signed, List.forall_mem_singleton.mpr hsig⟩ b
        (mem_sortLog.mp hb)
  · next hord =>
    rw [if_neg hord] at hjoin
    exact hlog.append hacc.model hacc.precondition hjoin hsig

/-- What an accepted action was signed with. -/
theorem Inner.Accepted.signedUnder {keys : Origin → PublicKey} {s : Inner} {a : Action} {m : Model}
    (hacc : s.Accepted a m) (hkeys : ∀ o k, s.knownKeys[o]? = some k → k = keys o) :
    a.SignedUnder keys := by
  obtain ⟨k, hk, hok, hv⟩ := hacc.verified
  obtain rfl := hkeys _ _ hk
  refine ⟨⟨hok, hv⟩, ?_⟩
  rintro ⟨c, i⟩ hc
  obtain ⟨k, hk, hok, hv⟩ := hacc.cosigsVerified i c (List.mem_zipIdx_iff_getElem?.mp hc)
  obtain rfl := hkeys _ _ hk
  exact ⟨hok, hv⟩

/-! ## One step -/

/-- A step after which the audit still re-derives every document.  `keys` are the peers' own. -/
def Auditable (keys : Origin → PublicKey) (s : Inner) (_ : List Action) : Happening → Prop
  | .event (.applyAction io a) => s.accepts a = true →
      s.JoinsChain a ∧
        (s.snapshotDue a = true → io.snap = .torn → s.disk.snap[a.docId]? = none)
  | .event (.snapshot io d) => io.snap = .torn → s.disk.snap[d]? = none
  | .event (.adoptState st) =>
      SameDoc (s.baseEntry st.doc.id) (adopted (s.entryFor st.doc.id) st)
  | .event (.registerPeerKey o k) => s.knownKeys[o]? = none → k = keys o
  | .event (.addModel m) => ∀ (d : DocId), ∀ a ∈ (s.entryFor d).log,
      (s.models.insert m).find a.model = s.models.find a.model
  | .event _ => True
  | .reopen extra => ∀ d : DocId,
      (s.disk.alog[d]? = none → SameDoc (s.baseEntry d) (Entry.new d)) ∧
      Lib.EachAfter (Sits (loadedModels extra) (s.baseEntry d) (s.view d).seed)
        ((s.withModels (loadedModels extra)).replayed d).log

/-- Every document is honest, and every known key is the peer's own. -/
structure HonestInv (keys : Origin → PublicKey) (s : Inner) : Prop where
  own : keys s.origin = Primitives.verifyingKey s.key
  known : ∀ o k, s.knownKeys[o]? = some k → k = keys o
  docs : ∀ d, (s.view d).Honest keys s.models d

/-- **Step lemma**, for one document and an event. -/
theorem honest_exec {keys : Origin → PublicKey} {s : Inner} {acc : List Action} {ev : Event}
    (hen : ev.Enabled s) (hP : Auditable keys s acc (.event ev)) (h : HonestInv keys s)
    (d : DocId) : ((s.exec ev).view d).Honest keys (s.exec ev).models d := by
  have hold := h.docs d
  -- the models first
  have hmodels : ((s.exec ev).view d).Honest keys s.models d →
      ((∀ m, ev ≠ .addModel m) → ((s.exec ev).view d).Honest keys (s.exec ev).models d) := by
    intro hv hno
    rw [s.models_exec ev hno]
    exact hv
  have hstep := docStep_exec s ev hen d
  generalize hv : (s.exec ev).view d = v at hstep hmodels ⊢
  cases hstep with
  | stay _ =>
    cases ev with
    | addModel m => exact hold.models fun a ha => hP d a ha
    | _ => exact hmodels hold fun m hm => by cases hm
  | created sp hnew _ =>
    have hblank : (s.view d).entry.getD (Entry.new d) = Entry.new d := by
      rw [show (s.view d).entry = none from hnew]
      rfl
    have hlog := hold.log
    rw [hblank] at hlog
    have hspace : LogInv keys s.models ((s.view d).base d) (s.view d).seed
        { Entry.new d with space := sp } := hlog.congr ⟨rfl, rfl⟩ rfl
    have hput := hold.put hspace
    cases ev with
    | addModel m => exact hput.models fun a ha => absurd ha List.not_mem_nil
    | _ => exact hmodels hput fun m hm => by cases hm
  | @accepted io a m hd hacc =>
    subst hd
    obtain ⟨hjoin, htorn⟩ := hP (Inner.accepts_iff.mpr ⟨m, hacc⟩)
    have hsig := hacc.signedUnder h.known
    refine hmodels ?_ fun m hm => by cases hm
    refine (hold.put (logInv_settled hacc hjoin hsig hold)).finish hsig fun hfull => htorn ?_
    have hlong : snapshotOps ≤ (s.settled a m).log.length := of_decide_eq_true hfull
    rw [length_settled_log] at hlong
    exact decide_eq_true hlong
  | @stuck io a m hd hacc hres =>
    -- every model of the log is loaded
    subst hd
    refine absurd ?_ hres
    rw [log_appended]
    have hmodel : (s.models.find a.model).isSome = true := by
      rw [hacc.model]
      rfl
    exact List.forall_mem_append.mpr
      ⟨hold.log.resolves, List.forall_mem_singleton.mpr hmodel⟩
  | snapshot io =>
    exact hmodels (hold.snapshot hP) fun m hm => by cases hm
  | @adopted st hd =>
    subst hd
    exact hmodels (hold.put (LogInv.of_nil rfl hP)) fun m hm => by cases hm

/-! ## A reopening -/

/-- **The replay of a WAL re-folds as the audit does**: what the log leaves out changed nothing. -/
theorem foldl_replayStep_refolds {s : Inner} {base : Entry} (l : List Action)
    (hlog : base.log = []) (hl : Lifted base.doc) :
    SameDoc ((l.foldl s.replayStep base).log.foldl (refoldScratch s.models) base)
        (l.foldl s.replayStep base) ∧
      ∀ a ∈ (l.foldl s.replayStep base).log, a ∈ l := by
  suffices h : (SameDoc ((l.foldl s.replayStep base).log.foldl (refoldScratch s.models) base)
      (l.foldl s.replayStep base) ∧ ∀ a ∈ (l.foldl s.replayStep base).log, a ∈ l) ∧
      Lifted (l.foldl s.replayStep base).doc from h.1
  refine List.foldlRecOn (motive := fun e : Entry =>
    (SameDoc (e.log.foldl (refoldScratch s.models) base) e ∧ ∀ a ∈ e.log, a ∈ l) ∧ Lifted e.doc)
    _ _ ⟨⟨?_, ?_⟩, hl⟩ ?_
  · rw [hlog]
    exact SameDoc.refl base
  · rw [hlog]
    exact fun a ha => absurd ha List.not_mem_nil
  · rintro e ⟨⟨hdoc, hin⟩, hlift⟩ a ha
    -- the action is kept at the end of the log, and folded in there
    have hkept : ∀ e' : Entry, e'.log = e.log ++ [a] → SameDoc (refoldScratch s.models e a) e' →
        SameDoc (e'.log.foldl (refoldScratch s.models) base) e' ∧ ∀ b ∈ e'.log, b ∈ l := by
      intro e' hlog' hdoc'
      rw [hlog', List.foldl_append, List.foldl_cons, List.foldl_nil]
      exact ⟨(hdoc.after_refoldScratch s.models a).trans hdoc',
        List.forall_mem_append.mpr ⟨hin, List.forall_mem_singleton.mpr ha⟩⟩
    refine ⟨?_, lifted_foldl_replayStep s [a] hlift⟩
    cases hm : s.models.find a.model with
    | none =>
      obtain ⟨hsame, hlog'⟩ := replayStep_missing hm e
      refine hkept _ hlog' ?_
      unfold refoldScratch
      rw [hm]
      exact hsame.symm
    | some m =>
      obtain ⟨hops, -, -, hlog', -⟩ := replayStep_spec hm e
      by_cases hch : changes s.models e a = true
      · rw [if_pos hch] at hlog'
        refine hkept _ hlog' ?_
        rw [refoldScratch_eq hm]
        exact hops.symm
      · -- nothing changed, and the log leaves the action out
        rw [if_neg hch] at hlog'
        have hidle : (applyOpsToEntry e m a).2.1 = false := by
          unfold changes at hch
          rw [hm] at hch
          simpa using hch
        rw [hlog']
        exact ⟨hdoc.trans (hops.trans (sameDoc_of_not_applied hlift hidle)).symm, hin⟩

/-- Where the base carries the id of its file, a replay starts from it. -/
theorem replayBase_eq {s : Inner} {d : DocId} (h : (s.baseEntry d).doc.id = d) :
    s.replayBase d = s.baseEntry d := by
  have hfresh : ∀ fresh : Entry, (liftName fresh.doc).id = d →
      { fresh with doc := liftName { fresh.doc with id := d } } =
        { fresh with doc := liftName fresh.doc } := by
    intro fresh hid
    rw [id_liftName] at hid
    rw [← hid]
  exact hfresh _ h

/-- An entry that a replay drops is as a new one. -/
theorem sameDoc_of_blank {e : Entry} (h : e.blank = true) :
    e.log = [] ∧ SameDoc e (Entry.new e.doc.id) := by
  unfold Entry.blank at h
  simp only [Bool.and_eq_true, decide_eq_true_eq, List.isEmpty_iff, Bool.not_eq_true',
    Std.ExtTreeMap.isEmpty_iff] at h
  obtain ⟨⟨⟨hname, hfields⟩, hlog⟩, hdel⟩ := h
  refine ⟨hlog, ?_, hdel⟩
  show e.doc = ⟨e.doc.id, "", ∅⟩
  rw [← hname, ← hfields]

theorem log_baseEntry (s : Inner) (d : DocId) : (s.baseEntry d).log = [] := by
  unfold Inner.baseEntry
  dsimp only
  split <;> rfl

/-- What a replay rebuilds is the re-fold of its log, and the log comes from the WAL. -/
theorem replayed_refolds {s : Inner} {d : DocId} (hid : (s.baseEntry d).doc.id = d) :
    SameDoc ((s.replayed d).log.foldl (refoldScratch s.models) (s.baseEntry d)) (s.replayed d) ∧
      ∀ a ∈ (s.replayed d).log, a ∈ s.disk.alog[d]?.getD [] := by
  rw [replayed_eq_foldl, replayBase_eq hid]
  obtain ⟨hstate, hin⟩ := foldl_replayStep_refolds (s := s) (sortLog (s.disk.alog[d]?.getD []))
    (log_baseEntry s d) (lifted_liftName _)
  exact ⟨hstate, fun a ha => mem_sortLog.mp (hin a ha)⟩

/-- **Step lemma**, for one document and a reopening. -/
theorem honest_reopened {keys : Origin → PublicKey} {s : Inner} {acc : List Action}
    {extra : List Model} (hP : Auditable keys s acc (.reopen extra)) (h : HonestInv keys s)
    (d : DocId) : ((s.happen (.reopen extra)).view d).Honest keys (loadedModels extra) d := by
  obtain ⟨hbare, hsits⟩ := hP d
  have hold := h.docs d
  obtain ⟨hstate, hin⟩ := replayed_refolds (s := s.withModels (loadedModels extra)) hold.id
  have hlog : LogInv keys (loadedModels extra) (s.baseEntry d) (s.view d).seed
      ((s.withModels (loadedModels extra)).replayed d) :=
    ⟨hstate, hsits, fun a ha => hold.filed_getD a (hin a ha)⟩
  rw [view_reopened]
  -- the files stay; what is left to see is the entry
  refine ⟨?_, hold.id, hold.filed⟩
  show LogInv keys (loadedModels extra) (s.baseEntry d) (s.view d).seed _
  dsimp only
  split
  · exact hlog
  · next hgone =>
    -- no file, or nothing worth keeping in it
    refine LogInv.of_nil rfl ?_
    cases hfile : s.disk.alog[d]? with
    | none => exact hbare hfile
    | some l =>
      have hblank : ((s.withModels (loadedModels extra)).replayed d).blank = true := by
        rw [hfile] at hgone
        simpa using hgone
      obtain ⟨hnil, hnew⟩ := sameDoc_of_blank hblank
      have hsame := hlog.state
      rw [hnil, List.foldl_nil] at hsame
      rw [← hsame.doc, show (s.baseEntry d).doc.id = d from hold.id] at hnew
      exact hsame.trans hnew

/-! ## A whole lifetime -/

theorem known_opened {keys : Origin → PublicKey} {disk : Disk} {key : SigningKey} {origin : Origin}
    {extra : List Model} (hown : keys origin = Primitives.verifyingKey key) (o : Origin)
    (k : PublicKey) (hk : (Store.openWithModels disk key origin extra).knownKeys[o]? = some k) :
    k = keys o := by
  rw [(identity_opened disk key origin extra).2.2, Std.ExtTreeMap.getElem?_insert] at hk
  split at hk
  · next heq =>
    rw [compare_eq_iff_eq] at heq
    rw [← heq, hown]
    exact (Option.some.inj hk).symm
  · simp at hk

theorem honestInv_happen {keys : Origin → PublicKey} {s : Inner} {acc : List Action} {h : Happening}
    (hen : h.Enabled s) (hP : Auditable keys s acc h) (hinv : HonestInv keys s) :
    HonestInv keys (s.happen h) := by
  cases h with
  | reopen extra =>
    obtain ⟨hkey, horigin, -⟩ := identity_opened s.disk s.key s.origin extra
    refine ⟨?_, known_opened hinv.own, fun d => ?_⟩
    · show keys (Store.openWithModels s.disk s.key s.origin extra).origin =
        Primitives.verifyingKey (Store.openWithModels s.disk s.key s.origin extra).key
      rw [hkey, horigin]
      exact hinv.own
    · rw [models_reopened]
      exact honest_reopened hP hinv d
  | event ev =>
    refine ⟨?_, fun o k hk => ?_, honest_exec hen hP hinv⟩
    · obtain ⟨hkey, horigin⟩ := s.identity_exec ev
      show keys (s.exec ev).origin = Primitives.verifyingKey (s.exec ev).key
      rw [hkey, horigin]
      exact hinv.own
    · replace hk : (s.exec ev).knownKeys[o]? = some k := hk
      rcases s.setup_exec ev with hsame | ⟨o', k', rfl, hnew, heq⟩ | ⟨m, -, heq⟩
      · rw [hsame.knownKeys] at hk
        exact hinv.known o k hk
      · rw [heq, Std.ExtTreeMap.getElem?_insert] at hk
        split at hk
        · next ho =>
          rw [compare_eq_iff_eq] at ho
          subst ho
          rw [← Option.some.inj hk]
          exact hP hnew
        · exact hinv.known o k hk
      · rw [heq] at hk
        exact hinv.known o k hk

theorem honestInv_fresh {keys : Origin → PublicKey} {key : SigningKey} {origin : Origin}
    (hown : keys origin = Primitives.verifyingKey key) (extra : List Model) :
    HonestInv keys (Store.fresh key origin extra) := by
  obtain ⟨hkey, horigin, -⟩ := identity_opened Store.emptyDisk key origin extra
  refine ⟨?_, known_opened hown, fun d => ?_⟩
  · unfold Store.fresh
    rw [hkey, horigin]
    exact hown
  · rw [Store.fresh_view]
    refine ⟨LogInv.of_nil rfl ⟨liftName_of_lifted (lifted_entryNew d), rfl⟩, id_liftName _,
      fun l hl => ?_⟩
    cases hl

theorem honestInv_lifetime {keys : Origin → PublicKey} {key : SigningKey} {origin : Origin}
    {extra : List Model} (hown : keys origin = Primitives.verifyingKey key) {s : Inner}
    {acc : List Action} (h : Lifetime (Auditable keys) (Store.fresh key origin extra) s acc) :
    HonestInv keys s := by
  induction h with
  | start => exact honestInv_fresh hown extra
  | step _ h hen hP ih => exact honestInv_happen hen hP ih

/-- Every signer of the log is known to the store. -/
def Inner.KnowsSigners (s : Inner) (log : List Action) : Prop :=
  ∀ a ∈ log, s.knownKeys[a.origin]?.isSome = true ∧
    ∀ c ∈ a.cosig, s.knownKeys[c.origin]?.isSome = true

/-- Every quorum that the log had to meet is met by the members of today. -/
def Inner.QuorumsHold (s : Inner) (log : List Action) : Prop :=
  ∀ a ∈ log, ∀ m spec, s.models.find a.model = some m → m.quorum a.kind = some spec →
    s.quorumProblem spec a = none

theorem HonestInv.vouches {keys : Origin → PublicKey} {s : Inner} (h : HonestInv keys s)
    {o : Origin} (ho : s.knownKeys[o]?.isSome = true) {verify : PublicKey → Bool}
    (hv : Primitives.keyOk (keys o) = true ∧ verify (keys o) = true) : s.Vouches o verify := by
  obtain ⟨k, hk⟩ := Option.isSome_iff_exists.mp ho
  obtain rfl := h.known o k hk
  exact ⟨keys o, hk, hv⟩

/-- An operation of the store itself: no action, no state and no key comes from outside. -/
def Call.own : Call → Bool
  | .applySignedAction _ _ | .applyRemoteAction _ _ | .adoptState _ | .registerPeerKey _ _ => false
  | _ => true

/-- At the end of the log the link is all that is asked. -/
theorem joinsChain_of_last {s : Inner} {a : Action} (hord : s.outOfOrder a = false)
    (h : chainProblems (s.seenAt a.docId (s.entryFor a.docId).log) a = []) : s.JoinsChain a := by
  unfold Inner.JoinsChain
  rw [if_neg (by rw [hord]; exact Bool.false_ne_true)]
  exact chainProblems_eq_nil.mp h

end

section

open Sample

attribute [local instance] Sample.primitives

/-! ### A title -/

/-- Alice creates her notes, a snapshot is taken, and she gives them a title. -/
def snapshottedStore : Inner :=
  Call.exec (Call.exec (Call.exec (Store.fresh alice.key alice.name [])
    (.createDoc Io.ok (fun _ => 10) docId "notes" ∅)) (.snapshot Io.ok docId))
    (.updateField Io.ok 20 "notes" "title" (.string "plan"))

end

end PhReactor
