/-
  Models fetched over the mesh.

  An action whose model is not loaded is held, and the definition is asked for: once for every name
  and version.  The answer is a `ModelDef`.

  1. **What an answer is checked against.**  The handler compares the definition with the reference
     in the SAME message, whose hash is optional, and then overwrites whatever is loaded under that
     name and version.  So an answer fills a hole only under the condition of
     `modelDef_fills_hole_iff`, which none of its checks ensures.

  2. **What waits.**  `Tracked` is the engine with the model requests that are in flight, which the
     engine itself does not remember.  A request ends with its response or its failure.  If every
     request ends with a definition that is taken (`Closes`), and no model is registered by hand
     while an action it can reduce is held, then for every name and version that is marked as
     requested a request is in flight, and no held action's model is loaded (`Waiting`): nothing is
     stranded (`no_action_is_stranded`).
-/
import PhReactor.Sync.Handshake

set_option linter.unusedSectionVars false

namespace PhReactor

/-- The key under which models are loaded and requested. -/
def ModelRef.key (ref : ModelRef) : String ×ₗ String := toLex (ref.name, ref.version)

theorem ModelRef.key_eq_iff {ref ref' : ModelRef} :
    ref.key = ref'.key ↔ ref.name = ref'.name ∧ ref.version = ref'.version := by
  unfold ModelRef.key
  rw [toLex.injective.eq_iff, Prod.mk.injEq]

section

variable [Primitives]

/-! ## The answer -/

/-- The model a `ModelDef` carries, if it passes the checks of the handler: name and version are
    those of the reference in the message, and so is the hash, if that has one. -/
def takenDef (ref : ModelRef) (def_ : Option Value) : Option L1 :=
  def_.bind fun d =>
    if (d.get? "name").bind Value.asStr? ≠ some ref.name ∨
        (d.get? "version").bind Value.asStr? ≠ some ref.version then none
    else if ref.hash.any fun want => L1.modelDefHash d != want then none
    else (L1.fromDef d).toOption

/-- The model that is taken has the name and version of the reference. -/
theorem takenDef_key {ref : ModelRef} {def_ : Option Value} {m : L1}
    (h : takenDef ref def_ = some m) : m.ref_.key = ref.key := by
  obtain ⟨d, rfl, hd⟩ := Option.bind_eq_some_iff.mp h
  split at hd
  · cases hd
  · next hsame =>
    push Not at hsame
    split at hd
    · cases hd
    · unfold L1.fromDef at hd
      dsimp only at hd
      rw [hsame.1, hsame.2] at hd
      split at hd
      · cases hd
      · cases hd
        rfl

namespace Engine

variable {env : Env} {e : Engine} {peer : PeerId}

/-- Load a fetched model: it is no longer requested, and nothing waits for it any more. -/
def load (e : Engine) (m : L1) : Engine := { e with
  store := Store.addModel e.store (.l1 m)
  requestedModels := e.requestedModels.erase m.ref_.key
  pendingActions := e.pendingActions.filter fun p => p.1.key != m.ref_.key }

/-- The actions that are held for a model of that name and version. -/
def heldFor (e : Engine) (m : L1) : List Action :=
  (e.pendingActions.filter fun p => p.1.key == m.ref_.key).map Prod.snd

theorem waits_eq {ref : ModelRef} {m : L1} (hkey : m.ref_.key = ref.key) (p : ModelRef × Action) :
    (p.1.name == ref.name && p.1.version == ref.version) = (p.1.key == m.ref_.key) := by
  rw [Bool.eq_iff_iff, Bool.and_eq_true, beq_iff_eq, beq_iff_eq, beq_iff_eq, hkey,
    ModelRef.key_eq_iff]

/-- **What a definition does**: nothing, or it is loaded and what is held for it applied. -/
theorem onModelDef_eq (env : Env) (e : Engine) (peer : PeerId) (ref : ModelRef)
    (def_ : Option Value) : onModelDef env e peer ref def_ =
      match takenDef ref def_ with
      | none => (e, [])
      | some m => (applyRemoteActions env (some peer) (e.load m) (e.heldFor m)).1 := by
  cases htaken : takenDef ref def_ with
  | none =>
    dsimp only
    unfold onModelDef
    cases def_ with
    | none => rfl
    | some d =>
      unfold takenDef at htaken
      rw [Option.bind_some] at htaken
      dsimp only
      split
      · rfl
      · next hsame =>
        rw [if_neg hsame] at htaken
        split
        · rfl
        · next hhash =>
          rw [if_neg hhash] at htaken
          cases hm : L1.fromDef d with
          | error msg => rfl
          | ok m =>
            rw [hm] at htaken
            cases htaken
  | some m =>
    have hkey := takenDef_key htaken
    obtain ⟨d, rfl, hd⟩ := Option.bind_eq_some_iff.mp htaken
    unfold onModelDef
    dsimp only
    split at hd
    · cases hd
    · next hsame =>
      rw [if_neg hsame]
      split at hd
      · cases hd
      · next hhash =>
        rw [if_neg hhash]
        cases hm : L1.fromDef d with
        | error msg =>
          rw [hm] at hd
          cases hd
        | ok m' =>
          rw [hm] at hd
          obtain rfl : m' = m := Option.some.inj hd
          dsimp only
          unfold load heldFor
          simp only [waits_eq hkey, show toLex (ref.name, ref.version) = m'.ref_.key from hkey.symm]
          rfl

/-- The model an input makes the engine load, if any: the sender has a drive here, and its answer
    is taken. -/
def delivered (env : Env) (e : Engine) : Input → Option L1
  | .response peer _ (.modelDef ref def_) =>
    (e.driveNameByPeer env peer).bind fun _ => takenDef ref def_
  | _ => none

theorem models_applyRemoteActions (peer : Option PeerId) (l : List Action) (e : Engine) :
    (applyRemoteActions env peer e l).1.1.store.models = e.store.models :=
  (applyRemoteActions_spec env peer l).1

/-- **What a `ModelDef` does to the registry.** -/
theorem models_modelDef (env : Env) (e : Engine) (peer : PeerId) (id : ℕ) (ref : ModelRef)
    (def_ : Option Value) :
    (turn env e (.response peer id (.modelDef ref def_))).1.store.models =
      match e.delivered env (.response peer id (.modelDef ref def_)) with
      | none => e.store.models
      | some m => e.store.models.insert (.l1 m) := by
  show (onResponse env e peer id (.modelDef ref def_)).1.store.models = _
  unfold onResponse delivered
  dsimp only
  cases e.driveNameByPeer env peer with
  | none => rfl
  | some name =>
    dsimp only
    rw [onModelDef_eq, Option.bind_some]
    cases takenDef ref def_ with
    | none => rfl
    | some m => exact models_applyRemoteActions _ _ _

/-! ## A definition fills a hole -/

/-- What the registry holds under a key. -/
def loaded (e : Engine) (key : String ×ₗ String) : Option Model := e.store.models.models[key]?

/-- From `e` to `t`, the registry changes only under keys that were requested and held nothing; what
    is loaded there has the hash the held actions pin; and what resolved before still resolves. -/
structure FillsHole (e t : Engine) : Prop where
  hole : ∀ key, t.loaded key ≠ e.loaded key →
    key ∈ e.requestedModels ∧ e.loaded key = none ∧ ∃ m, t.loaded key = some m ∧
      ∀ p ∈ e.pendingActions, p.1.key = key → ∀ want, p.1.hash = some want →
        m.ref_.hash = some want
  resolves : ∀ ref, (e.store.models.find ref).isSome = true →
    (t.store.models.find ref).isSome = true

/-- The engine wants the model: its name and version are requested, nothing is loaded under them,
    and every action that is held for them pins its hash, or none. -/
def Wanted (e : Engine) (m : L1) : Prop :=
  m.ref_.key ∈ e.requestedModels ∧ e.loaded m.ref_.key = none ∧
    ∀ p ∈ e.pendingActions, p.1.key = m.ref_.key → ∀ want, p.1.hash = some want →
      m.ref_.hash = some want

theorem loaded_insert {t : Engine} {m : L1} (ht : t.store.models = e.store.models.insert (.l1 m))
    (key : String ×ₗ String) :
    t.loaded key = if m.ref_.key = key then some (.l1 m) else e.loaded key := by
  unfold loaded
  rw [ht]
  show (e.store.models.models.insert m.ref_.key (.l1 m))[key]? = _
  rw [Std.ExtTreeMap.getElem?_insert]
  by_cases h : m.ref_.key = key
  · rw [if_pos h, if_pos (Std.compare_eq_iff_eq.mpr h)]
  · rw [if_neg h, if_neg (mt Std.compare_eq_iff_eq.mp h)]

/-- A registry that only grows resolves what it resolved. -/
theorem find_isSome_of_loaded {r r' : ModelRegistry} {ref : ModelRef}
    (h : ∀ m, r.models[ref.key]? = some m → r'.models[ref.key]? = some m)
    (hfind : (r.find ref).isSome = true) : (r'.find ref).isSome = true := by
  unfold ModelRegistry.find at hfind ⊢
  cases hm : r.models[toLex (ref.name, ref.version)]? with
  | none =>
    rw [hm] at hfind
    cases hfind
  | some m =>
    rw [hm] at hfind
    rw [show r'.models[toLex (ref.name, ref.version)]? = some m from h m hm]
    exact hfind

/-- **A definition from the mesh fills a hole exactly when it is wanted, or nothing new.**  For
    every engine and every `ModelDef` of any peer: the registry changes in a hole only, if and only
    if the answer is dropped, or it is the model that is loaded under its name and version, or the
    engine wants it. -/
theorem modelDef_fills_hole_iff (env : Env) (e : Engine) (peer : PeerId) (id : ℕ) (ref : ModelRef)
    (def_ : Option Value) :
    FillsHole e (turn env e (.response peer id (.modelDef ref def_))).1 ↔
      ∀ m, e.delivered env (.response peer id (.modelDef ref def_)) = some m →
        e.loaded m.ref_.key = some (.l1 m) ∨ e.Wanted m := by
  have hmodels := models_modelDef env e peer id ref def_
  generalize (turn env e (.response peer id (.modelDef ref def_))).1 = t at hmodels ⊢
  cases hdel : e.delivered env (.response peer id (.modelDef ref def_)) with
  | none =>
    rw [hdel] at hmodels
    replace hmodels : t.store.models = e.store.models := hmodels
    constructor
    · intro _ m hm
      cases hm
    · intro _
      refine ⟨fun key hne => absurd ?_ hne, fun ref hfind => ?_⟩
      · unfold loaded
        rw [hmodels]
      · rw [hmodels]
        exact hfind
  | some m =>
    rw [hdel] at hmodels
    have hloaded := loaded_insert hmodels
    constructor
    · intro hfills m' hm'
      obtain rfl := Option.some.inj hm'
      by_cases hsame : e.loaded m.ref_.key = some (.l1 m)
      · exact Or.inl hsame
      · right
        have hnew : t.loaded m.ref_.key = some (.l1 m) := (hloaded _).trans (if_pos rfl)
        obtain ⟨hreq, hnone, m', hm', hpins⟩ :=
          hfills.hole m.ref_.key fun heq => hsame (heq.symm.trans hnew)
        obtain rfl := Option.some.inj (hnew.symm.trans hm')
        exact ⟨hreq, hnone, hpins⟩
    · intro hwant
      have hkeep : ∀ key (m' : Model), e.loaded key = some m' → t.loaded key = some m' := by
        intro key m' hm'
        rw [hloaded]
        split
        · next hkey =>
          subst hkey
          rcases hwant m rfl with hsame | ⟨-, hnone, -⟩
          · exact hsame.symm.trans hm'
          · cases hnone.symm.trans hm'
        · exact hm'
      refine ⟨fun key hne => ?_, fun ref hfind => ?_⟩
      · rw [hloaded] at hne ⊢
        split at hne
        · next hkey =>
          subst hkey
          rw [if_pos rfl]
          rcases hwant m rfl with hsame | ⟨hreq, hnone, hpins⟩
          · exact absurd hsame.symm hne
          · exact ⟨hreq, hnone, _, rfl, hpins⟩
        · exact absurd rfl hne
      · exact find_isSome_of_loaded (hkeep ref.key) hfind

/-! ## The requests in flight -/

/-- A model request: its id, whom it went to, and the reference it asks for. -/
abbrev Flight := ℕ × PeerId × ModelRef

def flight? : Effect → Option Flight
  | .request id peer (.modelRequest ref) => some (id, peer, ref)
  | _ => none

/-- Among the flights, one asks for that name and version. -/
def InFlight (flights : List Flight) (key : String ×ₗ String) : Prop :=
  ∃ f ∈ flights, f.2.2.key = key

/-- What is held is held for the model it names, which is not loaded; and for whatever is marked as
    requested, a request is in flight. -/
structure Waiting (e : Engine) (flights : List Flight) : Prop where
  own : ∀ p ∈ e.pendingActions, p.1 = p.2.model
  missing : ∀ p ∈ e.pendingActions, e.store.models.find p.1 = none
  asked : ∀ key ∈ e.requestedModels, InFlight flights key

theorem InFlight.append {flights : List Flight} {key : String ×ₗ String} (h : InFlight flights key)
    (more : List Flight) : InFlight (flights ++ more) key := by
  obtain ⟨f, hf, hkey⟩ := h
  exact ⟨f, List.mem_append_left _ hf, hkey⟩

theorem flights_of_plain {out : List Effect} (h : ∀ o ∈ out, o.fetches = false) :
    out.filterMap flight? = [] := by
  refine List.filterMap_eq_nil_iff.mpr fun o ho => ?_
  have hno := h o ho
  unfold flight?
  split
  · cases hno
  · rfl

theorem fetches_of_plain {o : Effect} (h : o.plain = true) : o.fetches = false := by
  cases o with
  | request id peer msg =>
    cases msg with
    | modelRequest ref => cases h
    | _ => rfl
  | _ => rfl

theorem Waiting.of_keeps {e t : Engine} {flights : List Flight} (h : Waiting e flights)
    (hkeeps : Keeps e t) {out : List Effect} (hout : ∀ o ∈ out, o.fetches = false) :
    Waiting t (flights ++ out.filterMap flight?) := by
  rw [flights_of_plain hout, List.append_nil]
  refine ⟨?_, ?_, ?_⟩
  · rw [hkeeps.pending]
    exact h.own
  · rw [hkeeps.pending, hkeeps.models]
    exact h.missing
  · rw [hkeeps.requested]
    exact h.asked

theorem Waiting.of_plain {t : Engine × List Effect} {flights : List Flight}
    (h : Waiting e flights) (ht : Plain e t) : Waiting t.1 (flights ++ t.2.filterMap flight?) :=
  h.of_keeps ht.keeps fun o ho => fetches_of_plain (ht.effects o ho)

/-- Asking for a model puts a request in flight, if there is none. -/
theorem Waiting.requestModel {flights : List Flight} (h : Waiting e flights) (peer : PeerId)
    (ref : ModelRef) : Waiting (e.requestModel peer ref).1
      (flights ++ (e.requestModel peer ref).2.filterMap flight?) := by
  unfold Engine.requestModel
  dsimp only
  split
  · rw [List.filterMap_nil, List.append_nil]
    exact h
  · refine ⟨h.own, h.missing, fun key hkey => ?_⟩
    rcases Std.ExtTreeSet.mem_insert.mp hkey with heq | hkey
    · refine ⟨(e.nextRequest, peer, ref), List.mem_append_right _ (List.mem_singleton_self _), ?_⟩
      exact Std.compare_eq_iff_eq.mp heq
    · exact (h.asked key hkey).append _

theorem Waiting.notePending {flights : List Flight} (h : Waiting e flights) {a : Action}
    (ha : e.store.models.find a.model = none) : Waiting (e.notePending a) flights := by
  unfold Engine.notePending
  split
  · exact h
  · refine ⟨?_, ?_, h.asked⟩
    · exact List.forall_mem_append.mpr ⟨h.own, List.forall_mem_singleton.mpr rfl⟩
    · exact List.forall_mem_append.mpr ⟨h.missing, List.forall_mem_singleton.mpr ha⟩

/-- **An arrival**: its model is there, or it is held and asked for. -/
theorem Waiting.applyRemoteAction {flights : List Flight} (h : Waiting e flights) (env : Env)
    (peer : Option PeerId) (a : Action) : Waiting (applyRemoteAction env e peer a).1.1
      (flights ++ (Engine.applyRemoteAction env e peer a).1.2.filterMap flight?) := by
  unfold Engine.applyRemoteAction
  split
  · next hmissing =>
    rw [Option.isNone_iff_eq_none] at hmissing
    have hask : Waiting (e.requestModelFrom peer a.model).1
          (flights ++ (e.requestModelFrom peer a.model).2.filterMap flight?) ∧
        (e.requestModelFrom peer a.model).1.store = e.store := by
      cases peer with
      | none =>
        refine ⟨?_, rfl⟩
        show Waiting e (flights ++ [])
        rw [List.append_nil]
        exact h
      | some p => exact ⟨h.requestModel p a.model, (requestModel_spec p a.model).1⟩
    refine hask.1.notePending ?_
    rw [hask.2]
    exact hmissing
  · cases hres : Store.applyRemoteAction e.store (env.io e.store a) a with
    | mk store r =>
      have hmoved : Keeps e { e with store := store } :=
        ⟨rfl, rfl, models_of_applied hres, rfl⟩
      cases r with
      | error msg => exact h.of_keeps hmoved (List.forall_mem_nil _)
      | ok r =>
        dsimp only
        split
        · exact h.of_keeps hmoved (List.forall_mem_singleton.mpr rfl)
        · exact h.of_keeps hmoved (List.forall_mem_nil _)

theorem Waiting.applyRemoteActions {flights : List Flight} (h : Waiting e flights) (env : Env)
    (peer : Option PeerId) (l : List Action) : Waiting (applyRemoteActions env peer e l).1.1
      (flights ++ (Engine.applyRemoteActions env peer e l).1.2.filterMap flight?) := by
  induction l generalizing e flights with
  | nil =>
    show Waiting e (flights ++ [])
    rw [List.append_nil]
    exact h
  | cons a rest ih =>
    have hrest := ih (h.applyRemoteAction env peer a)
    rw [List.append_assoc, ← List.filterMap_append] at hrest
    exact hrest

/-- A fetched model is loaded: what was held for it is held no longer, and it is not requested. -/
theorem Waiting.load {flights left : List Flight} (h : Waiting e flights) {m : L1}
    (hleft : ∀ key ∈ e.requestedModels, key ≠ m.ref_.key → InFlight left key) :
    Waiting (e.load m) left where
  own := fun p hp => h.own p (List.mem_filter.mp hp).1
  missing := by
    intro p hp
    obtain ⟨hmem, hother⟩ := List.mem_filter.mp hp
    have hne : ¬ (m.ref_.name = p.1.name ∧ m.ref_.version = p.1.version) := by
      rw [← ModelRef.key_eq_iff]
      exact fun heq => (bne_iff_ne.mp hother) heq.symm
    exact (e.store.models.find_insert (.l1 m) p.1).trans ((if_neg hne).trans (h.missing p hmem))
  asked := by
    intro key hkey
    obtain ⟨hne, hmem⟩ := Std.ExtTreeSet.mem_erase.mp hkey
    exact hleft key hmem fun heq => hne (Std.compare_eq_iff_eq.mpr heq.symm)

/-- Who is served is not asked for models. -/
theorem effects_serveRequest (msg : SyncMsg) :
    ∀ o ∈ (serveRequest env e peer msg).2, o.fetches = false := by
  cases msg with
  | hello h =>
    have hjoined : ∀ o ∈ (acceptInvite env e peer h.accept).2, o.fetches = false := by
      intro o ho
      rcases effects_acceptInvite h.accept o ho with hplain | hadmits
      · exact fetches_of_plain hplain
      · unfold Effect.admits at hadmits
        split at hadmits
        · rfl
        · rfl
        · cases hadmits
    have hgreet : ∀ o ∈ (greet env (acceptInvite env e peer h.accept).1 peer).2,
        o.fetches = false := fun o ho => fetches_of_plain (effects_greet o ho)
    have hrun := serveHello_run env e peer h
    show ∀ o ∈ (serveHello env e peer h).2, o.fetches = false
    generalize serveHello env e peer h = t at hrun ⊢
    have hone : ∀ msg, ∀ o ∈ [Effect.response peer msg], o.fetches = false :=
      fun msg => List.forall_mem_singleton.mpr rfl
    cases hrun with
    | shut _ => exact hone _
    | badToken _ _ hout =>
      exact List.forall_mem_append.mpr ⟨List.forall_mem_append.mpr
        ⟨hjoined, fun o ho => fetches_of_plain (hout o ho)⟩, hone _⟩
    | keyless _ _ _ => exact List.forall_mem_append.mpr ⟨hjoined, hone _⟩
    | authRequired _ _ _ _ =>
      rw [List.append_nil]
      exact List.forall_mem_append.mpr ⟨hjoined, hone _⟩
    | passed _ _ _ _ _ _ =>
      exact List.forall_mem_append.mpr ⟨List.forall_mem_append.mpr ⟨hjoined, hgreet⟩, hone _⟩
    | mismatch _ _ _ _ _ =>
      exact List.forall_mem_append.mpr ⟨List.forall_mem_append.mpr ⟨hjoined, hgreet⟩, hone _⟩
  | catchUp _ => exact List.forall_mem_singleton.mpr rfl
  | summary _ => exact List.forall_mem_singleton.mpr rfl
  | modelRequest _ => exact List.forall_mem_singleton.mpr rfl
  | chunkRequest _ => exact List.forall_mem_singleton.mpr rfl
  | _ => exact List.forall_mem_nil _

/-- A definition that is taken is the answer of a peer with a drive here. -/
theorem delivered_eq_some {i : Input} {m : L1} (h : e.delivered env i = some m) :
    ∃ peer id ref def_ name, i = .response peer id (.modelDef ref def_) ∧
      e.driveNameByPeer env peer = some name ∧ takenDef ref def_ = some m := by
  unfold delivered at h
  split at h
  · next peer id ref def_ =>
    obtain ⟨name, hname, htaken⟩ := Option.bind_eq_some_iff.mp h
    exact ⟨peer, id, ref, def_, name, rfl, hname, htaken⟩
  · cases h

/-- The drive of a peer that has answered. -/
def answeredBy (e : Engine) (name : String) (id : ℕ) : Engine :=
  e.modifyDrive name fun rt => { rt with inFlight := rt.inFlight.erase id }

theorem turn_delivered {id : ℕ} {ref : ModelRef} {def_ : Option Value} {name : String} {m : L1}
    (hname : e.driveNameByPeer env peer = some name) (htaken : takenDef ref def_ = some m) :
    turn env e (.response peer id (.modelDef ref def_)) =
      (applyRemoteActions env (some peer) ((e.answeredBy name id).load m) (e.heldFor m)).1 := by
  show onResponse env e peer id (.modelDef ref def_) = _
  unfold onResponse
  rw [hname]
  dsimp only
  rw [onModelDef_eq, htaken]
  rfl

theorem Waiting.onCatchUpAck {flights : List Flight} (h : Waiting e flights) (name : String)
    (ack : CatchUpAck) : Waiting (onCatchUpAck env e name peer ack).1
      (flights ++ (Engine.onCatchUpAck env e name peer ack).2.filterMap flight?) := by
  have happly := h.applyRemoteActions env (some peer) ack.actions
  unfold Engine.onCatchUpAck
  generalize Engine.applyRemoteActions env (some peer) e ack.actions = t at happly ⊢
  obtain ⟨⟨e₁, out⟩, applied⟩ := t
  dsimp only at happly ⊢
  have hnote : Plain e₁ (e₁.noteLastClock env name ack, []) := plain_modifyDrive plain_nil
  split
  · have hsync : Plain (e₁.noteLastClock env name ack)
        ((e₁.noteLastClock env name ack).modifyDrive name fun rt => { rt with status := .synced },
          [setStatus name .synced (some (toString applied ++ " actions applied"))]) :=
      plain_modifyDrive (plain_one rfl)
    have hsynced := happly.of_plain (hnote.trans hsync)
    rw [List.append_assoc, ← List.filterMap_append] at hsynced
    exact hsynced
  · have hnoted := happly.of_plain hnote
    rw [List.append_assoc, ← List.filterMap_append, List.append_nil] at hnoted
    exact hnoted

/-- A response that delivers no model. -/
theorem Waiting.onResponse {flights : List Flight} (h : Waiting e flights) {id : ℕ}
    {msg : SyncMsg} (hnone : e.delivered env (.response peer id msg) = none) :
    Waiting (onResponse env e peer id msg).1
      (flights ++ (Engine.onResponse env e peer id msg).2.filterMap flight?) := by
  unfold Engine.onResponse
  cases hname : e.driveNameByPeer env peer with
  | none => exact h.of_plain plain_refl
  | some name =>
    have hanswered : Waiting (e.answeredBy name id) flights := by
      have hplain := h.of_plain (t := (e.answeredBy name id, [])) (plain_modifyDrive plain_nil)
      rw [List.filterMap_nil, List.append_nil] at hplain
      exact hplain
    dsimp only
    cases msg with
    | helloAck ack => exact hanswered.of_plain (plain_onHelloAck env name peer ack)
    | helloErr err => exact hanswered.of_plain (plain_modifyDrive (plain_one rfl))
    | catchUpAck ack => exact hanswered.onCatchUpAck name ack
    | summaryAck clocks => exact hanswered.of_plain (plain_modifyDrive plain_nil)
    | modelDef ref def_ =>
      unfold delivered at hnone
      dsimp only at hnone
      rw [hname, Option.bind_some] at hnone
      dsimp only
      rw [onModelDef_eq, hnone]
      exact hanswered.of_plain plain_refl
    | chunkData hash bytes =>
      cases bytes with
      | none => exact hanswered.of_plain plain_refl
      | some bytes => exact hanswered.of_plain (plain_putChunk env hash bytes (plain_one rfl))
    | _ => exact hanswered.of_plain plain_refl

/-- **What waits, through any turn.**  `left` are the flights that do not end with it. -/
theorem Waiting.turn {flights left : List Flight} (h : Waiting e flights) {i : Input}
    (hleft : ∀ key ∈ e.requestedModels, InFlight left key ∨
      ∃ m, e.delivered env i = some m ∧ m.ref_.key = key)
    (hadd : ∀ m, i = .store (.addModel m) → ∀ p ∈ e.pendingActions,
      (e.store.models.insert m).find p.1 = none) :
    Waiting (turn env e i).1 (left ++ (Engine.turn env e i).2.filterMap flight?) := by
  cases hdel : e.delivered env i with
  | some m =>
    obtain ⟨peer, id, ref, def_, name, rfl, hname, htaken⟩ := delivered_eq_some hdel
    rw [turn_delivered hname htaken]
    have hanswered : Waiting (e.answeredBy name id) flights := ⟨h.own, h.missing, h.asked⟩
    refine Waiting.applyRemoteActions (hanswered.load fun key hkey hne => ?_) env _ _
    · rcases hleft key hkey with hin | ⟨m', hm', hkey'⟩
      · exact hin
      · rw [hdel] at hm'
        cases hm'
        exact absurd hkey'.symm hne
  | none =>
    replace h : Waiting e left := by
      refine ⟨h.own, h.missing, fun key hkey => ?_⟩
      rcases hleft key hkey with hin | ⟨m, hm, -⟩
      · exact hin
      · rw [hdel] at hm
        cases hm
    cases i with
    | store ev =>
      show Waiting { e with store := e.store.exec ev } (left ++ [])
      rw [List.append_nil]
      refine ⟨h.own, fun p hp => ?_, h.asked⟩
      by_cases hev : ∃ m, ev = .addModel m
      · obtain ⟨m, rfl⟩ := hev
        exact hadd m rfl p hp
      · rw [e.store.models_exec ev fun m hm => hev ⟨m, hm⟩]
        exact h.missing p hp
    | cmd c => exact h.of_plain (plain_handleCmd env c)
    | tick lastActivity => exact h.of_plain (plain_tick env lastActivity)
    | outbound =>
      unfold Engine.turn
      dsimp only
      split
      · next a rest _ =>
        have hreceive : Waiting { e with
            store := { e.store with outboundFeed := some rest } } left :=
          ⟨h.own, h.missing, h.asked⟩
        exact hreceive.of_plain (plain_publishAction a)
      · exact h.of_plain plain_refl
    | newListenAddr addr =>
      unfold Engine.turn
      exact h.of_plain (Plain.ite plain_refl (plain_of_same rfl rfl rfl rfl (plain_one rfl)))
    | connectionEstablished peer =>
      have hopen := plain_onConnectionEstablished (e := e) env peer
      exact h.of_plain ⟨hopen.keeps, List.forall_mem_cons.mpr ⟨rfl, hopen.effects⟩⟩
    | connectionClosed peer numEstablished =>
      exact h.of_plain (plain_onConnectionClosed env peer numEstablished)
    | gossip source msg => exact h.applyRemoteAction env source msg.action
    | request peer msg =>
      exact h.of_keeps (keeps_serveRequest env peer msg) (effects_serveRequest msg)
    | response peer id msg => exact h.onResponse hdel
    | outboundFailure peer => exact h.of_plain (plain_onOutboundFailure env peer)

/-! ## Runs, with the requests in flight -/

/-- The engine, and the model requests it has sent that have not ended yet. -/
structure Tracked where
  engine : Engine
  flights : List Flight

/-- The request an input ends: the one that is answered, or the one that is reported lost. -/
def ends (lost : Option ℕ) : Input → Option ℕ
  | .response _ id _ => some id
  | .outboundFailure _ => lost
  | _ => none

/-- The flights that a step does not end. -/
def Tracked.left (w : Tracked) (x : (Env × Input) × Option ℕ) : List Flight :=
  if w.engine.running then w.flights.filter fun f => ends x.2 x.1.2 != some f.1 else w.flights

/-- One step of the engine.  With a failure comes the id of the request that is lost. -/
def Tracked.step (w : Tracked) (x : (Env × Input) × Option ℕ) : Tracked × List Effect :=
  let (e, out) := w.engine.step x.1
  ({ engine := e, flights := w.left x ++ out.filterMap flight? }, out)

def tracked : Lib.Machine Tracked ((Env × Input) × Option ℕ) Effect := ⟨Tracked.step⟩

/-- The flights are for the record: the engine runs as it does without them. -/
theorem tracked_engine (w : Tracked) (ins : List ((Env × Input) × Option ℕ)) :
    (tracked.run w ins).engine = machine.run w.engine (ins.map Prod.fst) := by
  induction ins using List.reverseRecOn with
  | nil => rfl
  | append_singleton past x ih =>
    rw [Lib.Machine.run_concat, List.map_append, List.map_singleton, Lib.Machine.run_concat, ← ih]
    rfl

/-- The step leaves no question open.  A model request ends with a definition of that name and
    version that is taken, or the engine has stopped asking for it, or another such request is still
    in flight.  And no model is registered by hand while an action is held that it can reduce. -/
structure Settles (w : Tracked) (x : (Env × Input) × Option ℕ) : Prop where
  closes : ∀ f ∈ w.flights, f ∉ w.left x → f.2.2.key ∈ w.engine.requestedModels →
    (∃ m, w.engine.delivered x.1.1 x.1.2 = some m ∧ m.ref_.key = f.2.2.key) ∨
      InFlight (w.left x) f.2.2.key
  registers : ∀ m, x.1.2 = .store (.addModel m) → ∀ p ∈ w.engine.pendingActions,
    (w.engine.store.models.insert m).find p.1 = none

theorem Waiting.step {w : Tracked} {x : (Env × Input) × Option ℕ}
    (h : Waiting w.engine w.flights) (hset : Settles w x) :
    Waiting (tracked.step w x).1.engine (tracked.step w x).1.flights := by
  obtain ⟨⟨env, i⟩, lost⟩ := x
  show Waiting (w.engine.step (env, i)).1 (w.left _ ++ (w.engine.step (env, i)).2.filterMap flight?)
  have hleft : ∀ key ∈ w.engine.requestedModels, InFlight (w.left ((env, i), lost)) key ∨
      ∃ m, w.engine.delivered env i = some m ∧ m.ref_.key = key := by
    intro key hkey
    obtain ⟨f, hf, rfl⟩ := h.asked key hkey
    by_cases hends : f ∈ w.left ((env, i), lost)
    · exact Or.inl ⟨f, hends, rfl⟩
    · exact (hset.closes f hf hends hkey).symm
  unfold Engine.step
  split
  · exact h.turn hleft hset.registers
  · next hstopped =>
    have hrun : w.engine.running = false := by
      have hboth : w.engine.running = false ∧ i.ofStore = false := by simpa using hstopped
      exact hboth.1
    rw [List.filterMap_nil, List.append_nil]
    unfold Tracked.left
    rw [hrun]
    exact h

/-! ## Nothing is stranded -/

/-- The next action of that name and version to arrive, if its model is missing, is answered with a
    request for its model, to whatever peer it comes from. -/
def AsksNext (e : Engine) (key : String ×ₗ String) : Prop :=
  ∀ (env : Env) (peer : PeerId) (a : Action), a.model.key = key →
    e.store.models.find a.model = none →
      .request e.nextRequest peer (.modelRequest a.model) ∈
        (applyRemoteAction env e (some peer) a).1.2

/-- No held action is stranded: its model is missing, and is asked for, or will be. -/
structure Unstranded (w : Tracked) : Prop where
  missing : ∀ p ∈ w.engine.pendingActions, w.engine.store.models.find p.1 = none
  asked : ∀ p ∈ w.engine.pendingActions,
    InFlight w.flights p.1.key ∨ w.engine.AsksNext p.1.key

/-- From `e` to `t`, every held action whose model is there afterwards has been handed to the store
    when it was there, and is held no longer. -/
def AppliesHeld (e t : Engine) : Prop :=
  ∀ p ∈ e.pendingActions, (t.store.models.find p.1).isSome = true →
    p ∉ t.pendingActions ∧ ∃ s io, StoreSteps e.store s ∧ (s.models.find p.1).isSome = true ∧
      StoreSteps (Store.applyRemoteAction s io p.2).1 t.store

theorem asksNext_of_not_requested {key : String ×ₗ String} (h : key ∉ e.requestedModels) :
    e.AsksNext key := by
  rintro env peer a rfl hmissing
  unfold Engine.applyRemoteAction
  rw [hmissing]
  show _ ∈ (e.requestModel peer a.model).2
  unfold Engine.requestModel
  have hno : e.requestedModels.contains (toLex (a.model.name, a.model.version)) = false := by
    rw [← Bool.not_eq_true, Std.ExtTreeSet.contains_iff_mem]
    exact h
  dsimp only
  rw [hno]
  exact List.mem_singleton_self _

theorem Waiting.unstranded {w : Tracked} (h : Waiting w.engine w.flights) : Unstranded w := by
  refine ⟨h.missing, fun p hp => ?_⟩
  by_cases hreq : p.1.key ∈ w.engine.requestedModels
  · exact Or.inl (h.asked _ hreq)
  · exact Or.inr (asksNext_of_not_requested hreq)

theorem storeSteps_applyRemoteActions (peer : Option PeerId) (l : List Action) (e : Engine) :
    StoreSteps e.store (applyRemoteActions env peer e l).1.1.store :=
  (calm_applyRemoteActions (L := fun _ _ => True) env peer l).store

/-- An action whose model is there is handed to the store. -/
theorem applied_of_mem (env : Env) (peer : Option PeerId) {l : List Action} {a : Action}
    (ha : a ∈ l) {e : Engine} (hmodel : (e.store.models.find a.model).isSome = true) :
    ∃ s io, StoreSteps e.store s ∧ (s.models.find a.model).isSome = true ∧
      StoreSteps (Store.applyRemoteAction s io a).1
        (applyRemoteActions env peer e l).1.1.store := by
  induction l generalizing e with
  | nil => exact absurd ha List.not_mem_nil
  | cons b rest ih =>
    rcases List.mem_cons.mp ha with rfl | ha
    · refine ⟨e.store, env.io e.store a, .refl _, hmodel, ?_⟩
      have hstore : (Engine.applyRemoteAction env e peer a).1.1.store =
          (Store.applyRemoteAction e.store (env.io e.store a) a).1 := by
        unfold Engine.applyRemoteAction
        rw [if_neg (by simp [Option.isSome_iff_ne_none.mp hmodel])]
        split
        · next hres =>
          rw [hres]
          split <;> rfl
        · next hres => rw [hres]
      rw [← hstore]
      exact storeSteps_applyRemoteActions _ rest _
    · have hmodels := (applyRemoteAction_spec (e := e) env peer b).1
      obtain ⟨s, io, hbefore, hthere, hafter⟩ := ih ha
        (e := (Engine.applyRemoteAction env e peer b).1.1) (by rw [hmodels]; exact hmodel)
      exact ⟨s, io, (calm_applyRemoteAction (L := fun _ _ => True) env peer b).store.trans hbefore,
        hthere, hafter⟩

/-- **What is held is applied when its model is loaded.** -/
theorem Waiting.appliesHeld {flights : List Flight} (h : Waiting e flights) {i : Input}
    (hafter : ∀ p ∈ (Engine.turn env e i).1.pendingActions,
      (Engine.turn env e i).1.store.models.find p.1 = none)
    (hadd : ∀ m, i = .store (.addModel m) → ∀ p ∈ e.pendingActions,
      (e.store.models.insert m).find p.1 = none) : AppliesHeld e (Engine.turn env e i).1 := by
  intro p hp hthere
  refine ⟨fun hheld => ?_, ?_⟩
  · rw [hafter p hheld] at hthere
    cases hthere
  cases hdel : e.delivered env i with
  | none =>
    -- without a definition the model of a held action stays missing
    exfalso
    have hsame : (Engine.turn env e i).1.store.models.find p.1 = none := by
      by_cases hloads : i.loads = false
      · rw [(bounded_turn env i).models hloads]
        exact h.missing p hp
      · unfold Input.loads at hloads
        split at hloads
        · next m => exact hadd m rfl p hp
        · next peer id ref def_ =>
          rw [models_modelDef, hdel]
          exact h.missing p hp
        · exact absurd rfl hloads
    rw [hsame] at hthere
    cases hthere
  | some m =>
    obtain ⟨peer, id, ref, def_, name, rfl, hname, htaken⟩ := delivered_eq_some hdel
    have hmodels := models_modelDef env e peer id ref def_
    rw [hdel] at hmodels
    rw [hmodels, ModelRegistry.find_insert] at hthere
    -- the model is there now and was not before, so it is the one that was delivered
    have hkey : p.1.key = m.ref_.key := by
      split at hthere
      · next heq => exact (ModelRef.key_eq_iff.mpr heq).symm
      · rw [h.missing p hp] at hthere
        cases hthere
    have hheld : p.2 ∈ e.heldFor m :=
      List.mem_map.mpr ⟨p, List.mem_filter.mpr ⟨hp, beq_iff_eq.mpr hkey⟩, rfl⟩
    have hloaded : (((e.answeredBy name id).load m).store.models.find p.2.model).isSome = true := by
      rw [← h.own p hp]
      exact (congrArg Option.isSome (e.store.models.find_insert (.l1 m) p.1)).trans hthere
    rw [turn_delivered hname htaken]
    obtain ⟨s, io, hbefore, hfound, hrest⟩ := applied_of_mem env (some peer) hheld hloaded
    refine ⟨s, io, (StoreSteps.exec e.store (.addModel (.l1 m))).trans hbefore, ?_, hrest⟩
    rw [h.own p hp]
    exact hfound

/-- **No action is stranded waiting for its model**, in any run whose steps settle what they end.
    In every state of the run, the model of each held action is missing, and a request for its name
    and version is in flight, or the next arrival asks for it.  And at every step, each held action
    whose model is there afterwards has been handed to the store with its model, and is held no
    longer. -/
theorem no_action_is_stranded (store : Inner) (peerId : PeerId) (pubName : String)
    (token : Option String) (banned : Std.ExtTreeSet PeerId)
    (blobs : Std.ExtTreeMap Hash32 (List UInt8)) (ins : List ((Env × Input) × Option ℕ))
    (hsettles : ∀ past x rest, ins = past ++ x :: rest →
      Settles (tracked.run ⟨Engine.new store peerId pubName token banned blobs, []⟩ past) x) :
    (∀ past rest, ins = past ++ rest →
      Unstranded (tracked.run ⟨Engine.new store peerId pubName token banned blobs, []⟩ past)) ∧
    (∀ past x rest, ins = past ++ x :: rest → AppliesHeld
      (tracked.run ⟨Engine.new store peerId pubName token banned blobs, []⟩ past).engine
      (tracked.run ⟨Engine.new store peerId pubName token banned blobs, []⟩
        (past ++ [x])).engine) := by
  generalize hstart : (⟨Engine.new store peerId pubName token banned blobs, []⟩ : Tracked) = start
    at hsettles ⊢
  have hwaiting : ∀ past rest, ins = past ++ rest →
      Waiting (tracked.run start past).engine (tracked.run start past).flights := by
    intro past
    induction past using List.reverseRecOn with
    | nil =>
      intro _ _
      rw [← hstart]
      refine ⟨List.forall_mem_nil _, List.forall_mem_nil _, fun key hkey => ?_⟩
      exact absurd hkey Std.ExtTreeSet.not_mem_empty
    | append_singleton past x ih =>
      intro rest hins
      rw [List.append_assoc] at hins
      rw [Lib.Machine.run_concat]
      exact (ih _ hins).step (hsettles past x rest hins)
  refine ⟨fun past rest hins => (hwaiting past rest hins).unstranded, fun past x rest hins => ?_⟩
  have hbefore := hwaiting past _ hins
  have hafter := hwaiting (past ++ [x]) rest (by rw [List.append_assoc]; exact hins)
  have hset := hsettles past x rest hins
  rw [Lib.Machine.run_concat] at hafter ⊢
  generalize tracked.run start past = w at hbefore hafter hset ⊢
  obtain ⟨⟨env, i⟩, lost⟩ := x
  replace hafter := hafter.missing
  show AppliesHeld w.engine (w.engine.step (env, i)).1
  replace hafter : ∀ p ∈ (w.engine.step (env, i)).1.pendingActions,
    (w.engine.step (env, i)).1.store.models.find p.1 = none := hafter
  unfold Engine.step at hafter ⊢
  split at hafter
  · next hgo =>
    rw [if_pos hgo]
    exact hbefore.appliesHeld hafter hset.registers
  · next hstop =>
    rw [if_neg hstop]
    intro p hp hthere
    rw [hbefore.missing p hp] at hthere
    cases hthere

end Engine

end

/-! ## Mallory has a model -/

section

open Sample

attribute [local instance] Sample.primitives

namespace Engine

/-- A definition of that name, with nothing in it. -/
def bareDef (name : String) : Value :=
  .object [("name", .string name), ("version", .string "1")]

/-- Mallory's node as a drive of alice's, -/
def malloryAsDrive : Drive where
  name := "mallory"
  addr := [.p2p mallory.name]
  tokenEnv := none
  paused := false
  availableOffline := true

/-- in alice's engine. -/
def withMallory : Engine :=
  (turn calmEnv (aliceOver (Store.fresh alice.key alice.name []))
    (.cmd (.addDrive malloryAsDrive))).1

/-- **An answer nobody has asked for replaces `open@1`.** -/
theorem modelDef_replaces_builtin :
    ¬ ∀ (env : Env) (e : Engine) (peer : PeerId) (id : ℕ) (ref : ModelRef) (def_ : Option Value),
      FillsHole e (turn env e (.response peer id (.modelDef ref def_))).1 := by
  intro hall
  have hfills := hall calmEnv withMallory mallory.name 0 openRef (some (bareDef "open"))
  have hfacts : ((withMallory.loaded openRef.key).map fun m => m.ref_.hash.isSome) = some false ∧
      (((turn calmEnv withMallory (.response mallory.name 0
        (.modelDef openRef (some (bareDef "open"))))).1.loaded openRef.key).map fun m =>
          m.ref_.hash.isSome) = some true := by
    decide +kernel
  have hnone := (hfills.hole openRef.key fun heq => by
    rw [heq, hfacts.1] at hfacts
    cases hfacts.2).2.1
  rw [hnone] at hfacts
  cases hfacts.1

/-- An action of mallory's under a model alice does not have. -/
def strangePost : Action := act mallory "notes" "post" (.object []) 5 [("mallory", 1)] none

/-- Mallory's node is a drive, and its action arrives: its model is asked for, with request 0. -/
def strangeArrival : List ((Env × Input) × Option ℕ) :=
  [((calmEnv, .cmd (.addDrive malloryAsDrive)), none),
    ((calmEnv, .gossip (some mallory.name) ⟨strangePost, none⟩), none)]

/-- Alice's engine after that. -/
def arrived : Tracked :=
  tracked.run ⟨aliceOver (Store.fresh alice.key alice.name []), []⟩ strangeArrival

/-- Mallory answers the request. -/
def answer (def_ : Option Value) : (Env × Input) × Option ℕ :=
  ((calmEnv, .response mallory.name 0 (.modelDef strangePost.model def_)), none)

/-- Mallory sends the definition: its action is held no longer. -/
theorem no_action_is_stranded_answered :
    AppliesHeld arrived.engine
      (tracked.step arrived (answer (some (bareDef "notes")))).1.engine := by
  refine (no_action_is_stranded (Store.fresh alice.key alice.name []) alice.name "alice's node" none
    ∅ ∅ (strangeArrival ++ [answer (some (bareDef "notes"))]) ?_).2 strangeArrival _ [] rfl
  refine Lib.forall_cuts_cons.mpr ⟨?_, Lib.forall_cuts_cons.mpr ⟨?_,
    Lib.forall_cuts_cons.mpr ⟨?_, Lib.forall_cuts_nil⟩⟩⟩
  · exact ⟨fun f hf => absurd hf List.not_mem_nil, fun m hm => by cases hm⟩
  · exact ⟨fun f hf => absurd hf List.not_mem_nil, fun m hm => by cases hm⟩
  · refine ⟨fun f hf _ _ => Or.inl ?_, fun m hm => by cases hm⟩
    -- the only flight is the request of the arrival
    have hfacts : (arrived.flights.map fun f => (f.2.2.name, f.2.2.version)) = [("notes", "1")] ∧
        ((arrived.engine.delivered calmEnv (answer (some (bareDef "notes"))).1.2).map fun m =>
          (m.ref_.name, m.ref_.version)) = some ("notes", "1") := by
      decide +kernel
    obtain ⟨m, hm, hname⟩ := Option.map_eq_some_iff.mp hfacts.2
    refine ⟨m, hm, congrArg toLex (hname.trans ?_)⟩
    have hflight : (f.2.2.name, f.2.2.version) ∈
        arrived.flights.map fun f => (f.2.2.name, f.2.2.version) := List.mem_map_of_mem hf
    rw [hfacts.1] at hflight
    exact (List.mem_singleton.mp hflight).symm

/-- Alice's engine after mallory has answered that it has no definition. -/
def unanswered : Tracked := (tracked.step arrived (answer none)).1

/-- **Mallory does not have the definition, and the action is stranded.** -/
theorem useless_answer_strands :
    ¬ ∀ (store : Inner) (peerId : PeerId) (pubName : String) (token : Option String)
      (banned : Std.ExtTreeSet PeerId) (blobs : Std.ExtTreeMap Hash32 (List UInt8))
      (ins : List ((Env × Input) × Option ℕ)),
      Unstranded (tracked.run ⟨Engine.new store peerId pubName token banned blobs, []⟩ ins) := by
  intro hall
  have hun : Unstranded unanswered :=
    hall (Store.fresh alice.key alice.name []) alice.name "alice's node" none ∅ ∅
      (strangeArrival ++ [answer none])
  have hfacts : (unanswered.engine.pendingActions.map fun p => (p.1.name, p.1.version)) =
        [("notes", "1")] ∧ unanswered.flights = [] ∧
      (unanswered.engine.store.models.find strangePost.model).isNone = true ∧
      (applyRemoteAction calmEnv unanswered.engine (some bob.name) strangePost).1.2.isEmpty =
        true := by
    decide +kernel
  obtain ⟨hheld, hflights, hmissing, hsilent⟩ := hfacts
  obtain ⟨p, hp, hname⟩ := List.mem_map.mp (hheld ▸ List.mem_singleton_self ("notes", "1"))
  rcases hun.asked p hp with ⟨f, hf, -⟩ | hasks
  · rw [hflights] at hf
    exact absurd hf List.not_mem_nil
  · -- bob has the model too, and is not asked for it
    have hasked := hasks calmEnv bob.name strangePost (congrArg toLex hname).symm
      (Option.isNone_iff_eq_none.mp hmissing)
    rw [List.isEmpty_iff.mp hsilent] at hasked
    exact absurd hasked List.not_mem_nil

end Engine

end

end PhReactor
