/-
  Nobody speaks for a node but the node itself.

  Some of the mesh keep their keys to themselves.  Everybody else may make up actions, replay them,
  move signatures from one place to another, and send the result to any node in any order.

  1. The identity key signs more than actions: invites, join-proofs, package manifests, releases.
     None of these has the form of an action (`OtherMessage.bytes_ne`), so no signature on one of
     them passes for an action's.

  2. `World` is the nodes' stores, and beside them what every holder of a key has signed.  A `Move`
     is one signature made, or anything that happens to a store.  `Fair` is the limit of the others:
     a signature that verifies under a holder's key is on a message that he has signed, and nobody
     pins a holder's peer id under a key that is not his.

  3. An accepted action says who signed it (`authentic_of_accepted`): its origin's signature was
     made when the action was BUILT there, for a holder never co-signs his own proposals; and every
     co-signature was made under an action with the same content.

  4. Logs and WALs hold only what was accepted (`View.Holds`), through snapshots and reopenings.  So
     in every state of every fair run they are authentic (`logs_authentic`), and an action with a
     declared quorum gets through only if enough holders have signed it
     (`quorum_needs_holders`).
-/
import PhReactor.Lib.Machine
import PhReactor.Store.LogOrder
import PhReactor.Store.TamperEvidence
import PhReactor.Store.Timestamps
import PhReactor.Store.TrustOnFirstUse
import PhReactor.Sync.Cosign
import PhReactor.Sync.Signatures

set_option linter.unusedSectionVars false

namespace PhReactor

section

variable [Primitives]

/-! ## What else the key signs -/

/-- A message of another kind under the same key. -/
inductive OtherMessage where
  | invite (t : InviteToken)
  | accept (a : InviteAccept)
  /-- A package manifest or a release, as JSON. -/
  | json (v : Value)

def OtherMessage.bytes : OtherMessage → List UInt8
  | .invite t => t.messageBytes
  | .accept a => a.messageBytes
  | .json v => toVec v

/-- After the sixteen bytes of the document id comes the tag of the model's name. -/
theorem getElem?_messageBytes (a : Action) : a.messageBytes[16]? = some 0x01 := by
  unfold Action.messageBytes
  simp only [List.append_assoc]
  rw [List.getElem?_append_right (by rw [length_beBytes]), length_beBytes]
  rfl

theorem getElem?_of_magic {magic rest : List UInt8} {b : UInt8} (h : magic[16]? = some b) :
    (magic ++ rest)[16]? = some b := by
  obtain ⟨hlt, -⟩ := List.getElem?_eq_some_iff.mp h
  rw [List.getElem?_append_left hlt, h]

/-- JSON text holds no control characters: `serde_json` escapes them. -/
def OtherMessage.Plain : OtherMessage → Prop
  | .json v => 0x01 ∉ toVec v
  | _ => True

/-- **No other message has the form of an action.** -/
theorem OtherMessage.bytes_ne {o : OtherMessage} (ho : o.Plain) (a : Action) :
    o.bytes ≠ a.messageBytes := by
  intro heq
  have hbyte := getElem?_messageBytes a
  rw [← heq] at hbyte
  cases o with
  | invite t =>
    have hmagic : t.messageBytes[16]? = some 101 := by
      unfold InviteToken.messageBytes
      simp only [List.append_assoc]
      exact getElem?_of_magic (by decide +kernel)
    rw [show (OtherMessage.invite t).bytes = t.messageBytes from rfl, hmagic] at hbyte
    exact absurd hbyte (by decide)
  | accept p =>
    have hmagic : p.messageBytes[16]? = some 116 := by
      unfold InviteAccept.messageBytes
      simp only [List.append_assoc]
      exact getElem?_of_magic (by decide +kernel)
    rw [show (OtherMessage.accept p).bytes = p.messageBytes from rfl, hmagic] at hbyte
    exact absurd hbyte (by decide)
  | json v => exact ho (List.mem_of_getElem? hbyte)

/-! ## What a store holds was accepted -/

/-- Everything in the log and in the WAL of the document is `P`. -/
structure View.Holds (P : Action → Prop) (v : View) : Prop where
  log : ∀ e, v.entry = some e → ∀ a ∈ e.log, P a
  wal : ∀ a ∈ v.alog.getD [], P a

namespace View.Holds

variable {P Q : Action → Prop} {v : View}

theorem mono (h : v.Holds P) (hPQ : ∀ a, P a → Q a) : v.Holds Q :=
  ⟨fun e he a ha => hPQ a (h.log e he a ha), fun a ha => hPQ a (h.wal a ha)⟩

theorem snapshot (h : v.Holds P) (io : Io) : (v.snapshot io).Holds P := by
  cases he : v.entry with
  | none =>
    rw [v.snapshot_of_none he]
    exact h
  | some e =>
    rcases v.snapshot_cases io he with ⟨hsame, hwal, -⟩ | ⟨-, heq⟩
    · refine ⟨fun e' he' => h.log e' (he.trans (hsame.symm.trans he')), ?_⟩
      rw [hwal]
      exact h.wal
    · rw [heq]
      refine ⟨fun e' he' => ?_, fun a ha => ?_⟩
      · rw [← Option.some.inj he']
        exact fun a ha => absurd ha List.not_mem_nil
      · dsimp only at ha
        split at ha
        · exact absurd ha List.not_mem_nil
        · exact h.wal a ha

theorem persist (h : v.Holds P) (io : Io) {a : Action} (ha : P a) : (v.persist io a).Holds P := by
  refine ⟨fun e he => h.log e ((v.entry_persist io a).symm.trans he), fun b hb => ?_⟩
  unfold View.persist at hb
  split at hb
  · rcases List.mem_append.mp hb with hb | hb
    · exact h.wal b hb
    · rw [List.mem_singleton.mp hb]
      exact ha
  · exact h.wal b hb

theorem finish (h : v.Holds P) (io : Io) {a : Action} (ha : P a) : (v.finish io a).Holds P := by
  unfold View.finish
  split
  · exact (h.persist io ha).snapshot io
  · exact h.persist io ha

theorem of_entry (h : v.Holds P) {e : Entry} (he : ∀ a ∈ e.log, P a) :
    View.Holds P { v with entry := some e } := by
  refine ⟨fun e' he' => ?_, h.wal⟩
  rw [← Option.some.inj he']
  exact he

end View.Holds

/-- **Step lemma.**  A store that holds only what is `P`, and accepts only what is `P`, still does
    after the step. -/
theorem holds_happen {P : Action → Prop} {s : Inner} {h : Happening} {d : DocId}
    (hen : h.Enabled s) (hnew : ∀ io a m, h = .event (.applyAction io a) → s.Accepted a m → P a)
    (hv : (s.view d).Holds P) : ((s.happen h).view d).Holds P := by
  have hentry : ∀ a ∈ (s.entryFor d).log, P a := by
    intro a ha
    cases he : s.entries[d]? with
    | none =>
      rw [entryFor_of_none he] at ha
      exact absurd ha List.not_mem_nil
    | some e =>
      rw [entryFor_eq he] at ha
      exact hv.log e he a ha
  cases h with
  | reopen extra =>
    have hlog := log_replayed (s.withModels (loadedModels extra)) d
    rw [view_reopened]
    refine ⟨fun e he a ha => ?_, hv.wal⟩
    dsimp only at he
    split at he
    · rw [← Option.some.inj he] at ha
      exact hv.wal a (mem_sortLog.mp (hlog.subset ha))
    · exact nomatch he
  | event ev =>
    have hstep := docStep_exec s ev hen d
    show ((s.exec ev).view d).Holds P
    generalize (s.exec ev).view d = v at hstep
    cases hstep with
    | stay _ => exact hv
    | created sp _ _ => exact hv.of_entry fun a ha => absurd ha List.not_mem_nil
    | @accepted io a m hd hacc =>
      subst hd
      have ha := hnew io a m rfl hacc
      refine (hv.of_entry fun b hb => ?_).finish io ha
      rcases mem_settled_log.mp hb with hb | rfl
      · exact hentry b hb
      · exact ha
    | @stuck io a m hd hacc hres =>
      subst hd
      refine hv.of_entry fun b hb => ?_
      rcases List.mem_append.mp hb with hb | hb
      · exact hentry b hb
      · rw [List.mem_singleton.mp hb]
        exact hnew io a m rfl hacc
    | snapshot io => exact hv.snapshot io
    | adopted _ => exact hv.of_entry fun a ha => absurd ha List.not_mem_nil

/-! ## The mesh -/

/-- One who keeps a key to himself. -/
structure Holder where
  origin : Origin
  key : SigningKey

/-- The nodes' stores, and what every holder has signed: the actions his node has built, those of
    others that he has co-signed, and anything else. -/
structure World (ι : Type*) where
  store : ι → Inner
  built : ι → List Action
  cosigned : ι → List Action
  other : ι → List OtherMessage

namespace World

/-- What can happen in the mesh. -/
inductive Move (ι : Type*) where
  /-- A node builds and signs an action: the first half of every local operation, and a proposal. -/
  | build (i : ι) (now : U64) (id : DocId) (model : ModelRef) (kind : String) (payload : Value)
  /-- Somebody shows a holder a proposal, who co-signs it. -/
  | cosign (i : ι) (a : Action)
  | signOther (i : ι) (o : OtherMessage)
  /-- Anything that happens to a node's store: an action arrives, a peer is pinned, a snapshot is
      taken, the process is started again. -/
  | happen (i : ι) (h : Happening)

variable {ι : Type*} [DecidableEq ι] (holder : ι → Holder)

/-- What a holder has signed when he has built this, or nothing if it could not be built. -/
def signedBy : Except String Action → List Action
  | .ok a => [a]
  | .error _ => []

theorem mem_signedBy {r : Except String Action} {a : Action} : a ∈ signedBy r ↔ r = .ok a := by
  cases r with
  | ok b =>
    show a ∈ [b] ↔ _
    rw [List.mem_singleton, Except.ok.injEq]
    exact eq_comm
  | error e => exact iff_of_false List.not_mem_nil (fun h => nomatch h)

/-- The proposal as it is shown to the holder, if he co-signs it. -/
def endorsedBy (i : ι) (a : Action) : List Action :=
  signedBy ((addCosig a (holder i).origin (holder i).key).2.map fun _ => a)

def step (w : World ι) : Move ι → World ι × List Unit
  | .build i now id model kind payload =>
    let r := (w.store i).buildAction now id model kind payload
    ({ w with
        store := Function.update w.store i r.1
        built := Function.update w.built i (w.built i ++ signedBy r.2) }, [])
  | .cosign i a =>
    ({ w with cosigned := Function.update w.cosigned i (w.cosigned i ++ endorsedBy holder i a) },
      [])
  | .signOther i o => ({ w with other := Function.update w.other i (w.other i ++ [o]) }, [])
  | .happen i h => ({ w with store := Function.update w.store i ((w.store i).happen h) }, [])

def machine : Lib.Machine (World ι) (Move ι) Unit := ⟨step holder⟩

/-- Every node on an empty directory. -/
def start (extra : ι → List Model) : World ι where
  store i := Store.fresh (holder i).key (holder i).origin (extra i)
  built _ := []
  cosigned _ := []
  other _ := []

/-- The holder `j` has signed these bytes. -/
def Signed (w : World ι) (j : ι) (bytes : List UInt8) : Prop :=
  (∃ b ∈ w.built j, b.messageBytes = bytes) ∨ (∃ b ∈ w.cosigned j, b.messageBytes = bytes) ∨
    ∃ o ∈ w.other j, o.bytes = bytes

/-- A signature on `a` that verifies under the key of a holder was made by him. -/
def Unforged (w : World ι) (a : Action) : Prop :=
  ∀ j sig, sig = a.sig ∨ sig ∈ a.cosig.map CoSig.sig →
    Primitives.verifyStrict (Primitives.verifyingKey (holder j).key) a.messageBytes sig = true →
    w.Signed j a.messageBytes

/-- What the others cannot do, and `S`, the actions that are built or shown to anybody. -/
def Fair (S : Set Action) (w : World ι) : Move ι → Prop
  | .build i now id model kind payload =>
    ∀ a, ((w.store i).buildAction now id model kind payload).2 = .ok a → a ∈ S
  | .cosign _ a => a ∈ S
  | .signOther _ o => o.Plain
  | .happen _ (.event (.applyAction _ a)) => a ∈ S ∧ w.Unforged holder a
  | .happen _ (.event (.registerPeerKey o k)) =>
    ∀ j, (holder j).origin = o → k = Primitives.verifyingKey (holder j).key
  | .happen i h => h.Enabled (w.store i)

/-- The holder `j` has built an action with the content of `a`. -/
def BuiltBy (w : World ι) (j : ι) (a : Action) : Prop := ∃ b ∈ w.built j, b.SameSigned a

/-- The holder `j` has signed an action with the content of `a`, as his own or as another's. -/
def EndorsedBy (w : World ι) (j : ι) (a : Action) : Prop :=
  w.BuiltBy j a ∨ ∃ b ∈ w.cosigned j, b.SameSigned a

/-- Whoever `a` names, if he is a holder, has signed what it says. -/
structure Authentic (w : World ι) (a : Action) : Prop where
  origin : ∀ j, a.origin = (holder j).origin → w.BuiltBy j a
  cosig : ∀ j, ∀ c ∈ a.cosig, c.origin = (holder j).origin → w.EndorsedBy j a

/-! ## What was accepted is authentic -/

/-- What holds all along: everybody is who he was, a holder's ledgers are his, his peer id is
    pinned under his key, and what the stores hold is authentic. -/
structure Inv (S : Set Action) (w : World ι) : Prop where
  key : ∀ i, (w.store i).key = (holder i).key
  own : ∀ i, (w.store i).origin = (holder i).origin
  built : ∀ j, ∀ a ∈ w.built j, a ∈ S ∧ a.origin = (holder j).origin
  cosigned : ∀ j, ∀ a ∈ w.cosigned j, a ∈ S ∧ a.origin ≠ (holder j).origin
  other : ∀ j, ∀ o ∈ w.other j, o.Plain
  pinned : ∀ i j k, (w.store i).knownKeys[(holder j).origin]? = some k →
    k = Primitives.verifyingKey (holder j).key
  holds : ∀ i d, ((w.store i).view d).Holds (w.Authentic holder)

variable {holder} {S : Set Action} {w w' : World ι} {i j : ι} {a : Action} {m : Model}

/-- Content that a holder has signed, he has signed as an action of `S`. -/
theorem Signed.action (h : w.Signed j a.messageBytes) (hw : Inv holder S w) (ha : a ∈ S)
    (hshort : ∀ a ∈ S, a.Short) (hjson : JsonFaithful S) : w.EndorsedBy j a := by
  have hsame : ∀ b ∈ S, b.messageBytes = a.messageBytes → b.SameSigned a := by
    intro b hb hbytes
    refine sameSigned_of_messageBytes (hshort b hb) (hshort a ha) ?_ hbytes
    rintro x (rfl | rfl) y (rfl | rfl) <;> exact hjson _ (by assumption) _ (by assumption)
  rcases h with ⟨b, hb, hbytes⟩ | ⟨b, hb, hbytes⟩ | ⟨o, ho, hbytes⟩
  · exact Or.inl ⟨b, hb, hsame b (hw.built j b hb).1 hbytes⟩
  · exact Or.inr ⟨b, hb, hsame b (hw.cosigned j b hb).1 hbytes⟩
  · exact absurd hbytes (OtherMessage.bytes_ne (hw.other j o ho) a)

/-- **An accepted action is authentic.** -/
theorem authentic_of_accepted (hw : Inv holder S w) (ha : a ∈ S) (hfair : w.Unforged holder a)
    (hshort : ∀ a ∈ S, a.Short) (hjson : JsonFaithful S) (hacc : (w.store i).Accepted a m) :
    w.Authentic holder a := by
  constructor
  · intro j horigin
    obtain ⟨k, hk, -, hverify⟩ := hacc.verified
    rw [horigin] at hk
    obtain rfl := hw.pinned i j k hk
    rcases (hfair j a.sig (Or.inl rfl) hverify).action hw ha hshort hjson with
      hbuilt | ⟨b, hb, hsame⟩
    · exact hbuilt
    · -- what he co-signs is another's
      have hb' : b.origin = a.origin := (sameSigned_iff.mp hsame).2.2.2.2.2.2.1
      exact absurd (hb'.trans horigin) (hw.cosigned j b hb).2
  · intro j c hc horigin
    obtain ⟨n, hn⟩ := List.mem_iff_getElem?.mp hc
    obtain ⟨k, hk, -, hverify⟩ := hacc.cosigsVerified n c hn
    rw [horigin] at hk
    obtain rfl := hw.pinned i j k hk
    replace hverify : Primitives.verifyStrict (Primitives.verifyingKey (holder j).key)
        a.messageBytes c.sig = true := by
      unfold Action.verifyCosig at hverify
      rw [hn] at hverify
      exact hverify
    exact (hfair j c.sig (Or.inr (List.mem_map_of_mem hc)) hverify).action hw ha hshort hjson

/-- What a holder has signed stays signed. -/
theorem Authentic.mono (h : w.Authentic holder a) (hbuilt : ∀ j, w.built j ⊆ w'.built j)
    (hcosigned : ∀ j, w.cosigned j ⊆ w'.cosigned j) : w'.Authentic holder a := by
  have hb : ∀ j, w.BuiltBy j a → w'.BuiltBy j a := by
    rintro j ⟨b, hb, hsame⟩
    exact ⟨b, hbuilt j hb, hsame⟩
  refine ⟨fun j horigin => hb j (h.origin j horigin), fun j c hc horigin => ?_⟩
  rcases h.cosig j c hc horigin with hown | ⟨b, hmem, hsame⟩
  · exact Or.inl (hb j hown)
  · exact Or.inr ⟨b, hcosigned j hmem, hsame⟩

theorem subset_update {l : ι → List Action} {new : List Action} (j : ι) :
    l j ⊆ Function.update l i (l i ++ new) j := by
  by_cases hj : j = i
  · subst hj
    rw [Function.update_self]
    exact List.subset_append_left _ _
  · rw [Function.update_of_ne hj]
    exact List.Subset.refl _

theorem mem_update {α : Type*} {l : ι → List α} {new : List α} {j : ι} {a : α}
    (ha : a ∈ Function.update l i (l i ++ new) j) : a ∈ l j ∨ j = i ∧ a ∈ new := by
  by_cases hj : j = i
  · subst hj
    rw [Function.update_self] at ha
    rcases List.mem_append.mp ha with ha | ha
    · exact Or.inl ha
    · exact Or.inr ⟨rfl, ha⟩
  · rw [Function.update_of_ne hj] at ha
    exact Or.inl ha

/-! ## Steps -/

theorem Fair.enabled {h : Happening} (hf : Fair holder S w (.happen i h)) :
    h.Enabled (w.store i) := by
  cases h with
  | reopen extra => exact trivial
  | event ev =>
    cases ev with
    | newEntry id sp => exact hf
    | _ => exact trivial

/-- Something happens to a store that accepts what is authentic, and pins holders under their own
    keys. -/
theorem Inv.happen (hw : Inv holder S w) {h : Happening} (hen : h.Enabled (w.store i))
    (hnew : ∀ io a m, h = .event (.applyAction io a) → (w.store i).Accepted a m →
      w.Authentic holder a)
    (hpin : ∀ o k, h = .event (.registerPeerKey o k) → ∀ j, (holder j).origin = o →
      k = Primitives.verifyingKey (holder j).key)
    (hinj : Function.Injective fun j => (holder j).origin) :
    Inv holder S { w with store := Function.update w.store i ((w.store i).happen h) } := by
  obtain ⟨hkey, horigin⟩ := Pinned.identity_happen (w.store i) h
  -- what is said of every store needs a proof for this one only
  have hother : ∀ {Q : ι → Inner → Prop}, (∀ n, Q n (w.store n)) → Q i ((w.store i).happen h) →
      ∀ n, Q n (Function.update w.store i ((w.store i).happen h) n) := by
    intro Q hall hthis n
    by_cases hn : n = i
    · subst hn
      rw [Function.update_self]
      exact hthis
    · rw [Function.update_of_ne hn]
      exact hall n
  refine ⟨?_, ?_, hw.built, hw.cosigned, hw.other, ?_, fun n d => ?_⟩
  · exact hother (Q := fun n s => s.key = (holder n).key) hw.key (hkey.trans (hw.key i))
  · exact hother (Q := fun n s => s.origin = (holder n).origin) hw.own (horigin.trans (hw.own i))
  · refine hother (Q := fun _ s => ∀ j k, s.knownKeys[(holder j).origin]? = some k →
      k = Primitives.verifyingKey (holder j).key) hw.pinned fun j k hk => ?_
    rcases knownKeys_happen hk with hold | hpinned | ⟨hj, rfl⟩
    · exact hw.pinned i j k hold
    · exact hpin _ _ (mem_pinnedBy hpinned).1 j rfl
    · -- its own key, after a reopening
      obtain rfl : j = i := hinj (hj.trans (hw.own i))
      rw [hw.key]
  · have hholds := hother (Q := fun _ s => ∀ d, (s.view d).Holds (w.Authentic holder)) hw.holds
      (fun d => holds_happen hen hnew (hw.holds i d)) n d
    exact hholds.mono fun _ ha => ha.mono (fun _ => List.Subset.refl _) fun _ => List.Subset.refl _

/-- A holder signs. -/
theorem Inv.grow (hw : Inv holder S w) {built cosigned : ι → List Action}
    {other : ι → List OtherMessage}
    (hbuilt : ∀ j, w.built j ⊆ built j) (hcosigned : ∀ j, w.cosigned j ⊆ cosigned j)
    (hbuilt' : ∀ j, ∀ a ∈ built j, a ∈ S ∧ a.origin = (holder j).origin)
    (hcosigned' : ∀ j, ∀ a ∈ cosigned j, a ∈ S ∧ a.origin ≠ (holder j).origin)
    (hother' : ∀ j, ∀ o ∈ other j, o.Plain) :
    Inv holder S ⟨w.store, built, cosigned, other⟩ :=
  ⟨hw.key, hw.own, hbuilt', hcosigned', hother', hw.pinned,
    fun i d => (hw.holds i d).mono fun _ ha => ha.mono hbuilt hcosigned⟩

/-- Nobody co-signs his own proposals. -/
theorem mem_endorsedBy {b : Action} (hb : b ∈ endorsedBy holder i a) :
    b = a ∧ a.origin ≠ (holder i).origin := by
  have hres := mem_signedBy.mp hb
  by_cases hmem : (holder i).origin ∈ a.signers
  · obtain ⟨problem, heq⟩ := addCosig_of_mem hmem (holder i).key
    rw [heq] at hres
    cases hres
  · rw [addCosig_of_not_mem hmem] at hres
    refine ⟨(Except.ok.inj hres).symm, fun horigin => hmem ?_⟩
    exact mem_signers.mpr (Or.inl horigin)

/-- **Step lemma.** -/
theorem Inv.step (hw : Inv holder S w) (hinj : Function.Injective fun j => (holder j).origin)
    (hshort : ∀ a ∈ S, a.Short) (hjson : JsonFaithful S) {move : Move ι}
    (hfair : Fair holder S w move) : Inv holder S (w.step holder move).1 := by
  cases move with
  | happen i h =>
    refine hw.happen hfair.enabled ?_ ?_ hinj
    · rintro io a m rfl hacc
      exact authentic_of_accepted hw hfair.1 hfair.2 hshort hjson hacc
    · rintro o k rfl
      exact hfair
  | build i now id model kind payload =>
    have hstore : ((w.store i).buildAction now id model kind payload).1 =
        (w.store i).happen (.event (.nextTs now)) := buildAction_fst ..
    have htick := hw.happen (h := .event (.nextTs now)) (i := i) trivial (fun _ _ _ h => nomatch h)
      (fun _ _ h => nomatch h) hinj
    rw [← hstore] at htick
    refine htick.grow (fun j => subset_update j) (fun j => List.Subset.refl _) ?_ hw.cosigned
      hw.other
    intro j a ha
    rcases mem_update ha with ha | ⟨rfl, ha⟩
    · exact hw.built j a ha
    · have hres := mem_signedBy.mp ha
      refine ⟨hfair a hres, ?_⟩
      rw [(buildAction_ok hres).2.1]
      exact hw.own j
  | cosign i a =>
    refine hw.grow (fun j => List.Subset.refl _) (fun j => subset_update j) hw.built ?_
      hw.other
    intro j b hb
    rcases mem_update hb with hb | ⟨rfl, hb⟩
    · exact hw.cosigned j b hb
    · obtain ⟨rfl, hne⟩ := mem_endorsedBy hb
      exact ⟨hfair, hne⟩
  | signOther i o =>
    refine hw.grow (fun j => List.Subset.refl _) (fun j => List.Subset.refl _) hw.built
      hw.cosigned ?_
    intro j o' ho
    rcases mem_update ho with hold | ⟨-, hnew⟩
    · exact hw.other j o' hold
    · rw [List.mem_singleton.mp hnew]
      exact hfair

theorem inv_start (extra : ι → List Model)
    (hinj : Function.Injective fun j => (holder j).origin) :
    Inv holder S (start holder extra) := by
  refine ⟨fun i => ?_, fun i => ?_, fun j a ha => absurd ha List.not_mem_nil,
    fun j a ha => absurd ha List.not_mem_nil, fun j o ho => absurd ho List.not_mem_nil,
    fun i j k hk => ?_, fun i d => ?_⟩
  · exact (identity_opened Store.emptyDisk _ _ (extra i)).1
  · exact (identity_opened Store.emptyDisk _ _ (extra i)).2.1
  · replace hk : (Store.openWithModels Store.emptyDisk (holder i).key (holder i).origin
      (extra i)).knownKeys[(holder j).origin]? = some k := hk
    rw [(identity_opened Store.emptyDisk _ _ (extra i)).2.2, Std.ExtTreeMap.getElem?_insert] at hk
    split at hk
    · next heq =>
      obtain rfl : i = j := hinj (Std.compare_eq_iff_eq.mp heq)
      exact (Option.some.inj hk).symm
    · rw [Std.ExtTreeMap.getElem?_empty] at hk
      cases hk
  · have hview := Store.fresh_view (holder i).key (holder i).origin (extra i) d
    show ((Store.fresh (holder i).key (holder i).origin (extra i)).view d).Holds _
    rw [hview]
    exact ⟨fun e he => (nomatch he), fun a ha => absurd ha List.not_mem_nil⟩

/-- **In every state of a fair run, everything holds.** -/
theorem inv_run (hinj : Function.Injective fun j => (holder j).origin)
    (hshort : ∀ a ∈ S, a.Short) (hjson : JsonFaithful S) (extra : ι → List Model)
    {moves : List (Move ι)}
    (hfair : ∀ past move rest, moves = past ++ move :: rest →
      Fair holder S ((machine holder).run (start holder extra) past) move) :
    ∀ past rest, moves = past ++ rest →
      Inv holder S ((machine holder).run (start holder extra) past) :=
  (machine holder).cuts_invariant (inv_start extra hinj)
    (fun _ _ hw hf => hw.step hinj hshort hjson hf) hfair

/-! ## Runs -/

/-- **A quorum takes holders.**  When in a fair run a node accepts an action with a declared quorum,
    and all members of the group it resolves are holders but those of `B`, then at least as many
    holders as the quorum exceeds `B` have signed that content: the members of `B` cannot do it
    among themselves while they are fewer than the quorum. -/
theorem quorum_needs_holders (hinj : Function.Injective fun j => (holder j).origin)
    (hshort : ∀ a ∈ S, a.Short) (hjson : JsonFaithful S) (extra : ι → List Model)
    {moves : List (Move ι)}
    (hfair : ∀ past move rest, moves = past ++ move :: rest →
      Fair holder S ((machine holder).run (start holder extra) past) move) :
    ∀ past rest, moves = past ++ rest → ∀ (i : ι) (a : Action) (m : Model) (spec : QuorumSpec),
      a ∈ S → ((machine holder).run (start holder extra) past).Unforged holder a →
      (((machine holder).run (start holder extra) past).store i).accepts a = true →
      (((machine holder).run (start holder extra) past).store i).models.find a.model = some m →
      m.quorum a.kind = some spec →
      ∃ g, (((machine holder).run (start holder extra) past).store i).quorumGroup spec a = some g ∧
        ∀ B : Finset Origin,
          (∀ o ∈ Inner.liveStrings g.doc spec.field, o ∉ B → ∃ j, (holder j).origin = o) →
          ∃ T : Finset Origin, spec.min ≤ T.card + B.card ∧
            ∀ o ∈ T, o ∈ Inner.liveStrings g.doc spec.field ∧ o ∉ B ∧
              ∃ j, (holder j).origin = o ∧
                ((machine holder).run (start holder extra) past).EndorsedBy j a := by
  intro past rest hmoves i a m spec ha hunforged haccepts hm hspec
  have hw := inv_run hinj hshort hjson extra hfair past rest hmoves
  obtain ⟨m', hacc⟩ := Inner.accepts_iff.mp haccepts
  obtain rfl := Option.some.inj (hacc.model.symm.trans hm)
  have hauth := authentic_of_accepted hw ha hunforged hshort hjson hacc
  obtain ⟨g, hg, T, hmin, hT⟩ := quorum_of_accepted hacc hspec
  refine ⟨g, hg, fun B hB => ⟨T \ B, ?_, fun o ho => ?_⟩⟩
  · have hcard := Finset.le_card_sdiff B T
    omega
  · obtain ⟨ho, hnot⟩ := Finset.mem_sdiff.mp ho
    obtain ⟨hmember, k, -, -, hsigned⟩ := hT o ho
    obtain ⟨j, rfl⟩ := hB o hmember hnot
    refine ⟨hmember, hnot, j, rfl, ?_⟩
    rcases hsigned with ⟨horigin, -⟩ | ⟨n, c, hn, horigin, -⟩
    · exact Or.inl (hauth.origin j horigin)
    · exact hauth.cosig j c (List.mem_of_getElem? hn) horigin

end World

end

section

open Sample

attribute [local instance] Sample.primitives

namespace World

/-! ## Alice and bob -/

def couple : Bool → Holder
  | false => ⟨alice.name, alice.key⟩
  | true => ⟨bob.name, bob.key⟩

/-- A model of few words: its content hash is in every action that is built. -/
def teamDef : Value :=
  .object [("name", .string "team"),
    ("reducers", .object [
      ("init", Def.openReducer [] [("__name__", Def.set (.string "core")),
        ("members", Def.set (.string "$payload.m"))]),
      ("seal", Def.reducer [] [Def.selfQuorum] [])])]

def teamModel : List Model := ((L1.fromDef teamDef).toOption.map Model.l1).toList

/-- The action that was built. -/
def builtIn : Except String Action → Action
  | .ok a => a
  | .error _ => groupInit

theorem ok_builtIn {r : Except String Action} (h : r.isOk = true) : r = .ok (builtIn r) := by
  cases r with
  | ok a => rfl
  | error e => exact nomatch h

def aliceNode : Inner := (Store.fresh alice.key alice.name teamModel).exec (.newEntry docId none)

/-- Alice founds a group, -/
def founding : Inner × Except String Action :=
  aliceNode.buildAction 10 docId (ModelRef.new "team" "1") "init"
    (.object [("m", strs ["alice", "bob"])])

def foundingAction : Action := builtIn founding.2

/-- meets bob, -/
def aliceGroup : Inner :=
  (founding.1.exec (.applyAction Io.ok foundingAction)).exec (.registerPeerKey bob.name bob.key)

/-- and proposes him as a manager. -/
def proposing : Inner × Except String Action :=
  aliceGroup.buildAction 20 docId (ModelRef.new "team" "1") "seal" (.object [])

def proposal : Action := builtIn proposing.2

def endorsed : Action := (addCosig proposal bob.name bob.key).1

/-- The actions of the run. -/
def shown : List Action := [foundingAction, proposal, endorsed]

/-- Alice founds a group, meets bob and proposes an action that takes two; bob co-signs, and his
    node learns of the group. -/
def meeting : List (Move Bool) :=
  [.happen false (.event (.newEntry docId none)),
    .build false 10 docId (ModelRef.new "team" "1") "init" (.object [("m", strs ["alice", "bob"])]),
    .happen false (.event (.applyAction Io.ok foundingAction)),
    .happen false (.event (.registerPeerKey bob.name bob.key)),
    .build false 20 docId (ModelRef.new "team" "1") "seal" (.object []),
    .cosign true proposal,
    .happen true (.event (.registerPeerKey alice.name alice.key)),
    .happen true (.event (.applyAction Io.ok foundingAction))]

def before : World Bool := start couple fun _ => teamModel

theorem couple_injective : Function.Injective fun j => (couple j).origin := by
  intro i j h
  cases i <;> cases j <;> first | rfl | exact absurd h (by decide)

theorem short_shown : ∀ a ∈ {a | a ∈ shown}, a.Short := by
  rintro a (ha : a ∈ shown)
  have hall : shown.all (fun a => decide (strBytes a.model.name ∈ shortBytes) &&
      decide (strBytes a.model.version ∈ shortBytes) && decide (strBytes a.kind ∈ shortBytes) &&
      decide (toVec a.payload ∈ shortBytes) && decide (vecClockBytes a.clock ∈ shortBytes) &&
      decide (strBytes a.origin ∈ shortBytes)) = true := by decide +kernel
  have hone := List.all_eq_true.mp hall a ha
  simp only [Bool.and_eq_true, decide_eq_true_eq] at hone
  obtain ⟨⟨⟨⟨⟨hname, hversion⟩, hkind⟩, hpayload⟩, hclock⟩, horigin⟩ := hone
  exact ⟨hname, hversion, hkind, hpayload, hclock, horigin⟩

theorem jsonFaithful_shown : JsonFaithful {a | a ∈ shown} := by
  rintro a (ha : a ∈ shown) b (hb : b ∈ shown) hab
  have hall : shown.all (fun a => shown.all fun b =>
      Primitives.jsonText a.payload != Primitives.jsonText b.payload ||
        decide (a.payload = b.payload)) = true := by decide +kernel
  have hpair := List.all_eq_true.mp (List.all_eq_true.mp hall a ha) b hb
  rw [hab, Bool.or_eq_true, bne_self_eq_false] at hpair
  exact of_decide_eq_true (hpair.resolve_left Bool.false_ne_true)

theorem unforged_founding {w : World Bool} (h : foundingAction ∈ w.built false) :
    w.Unforged couple foundingAction := by
  intro j sig hsig hverify
  cases j with
  | false => exact Or.inl ⟨foundingAction, h, rfl⟩
  | true =>
    have hfacts : foundingAction.cosig = [] ∧ Primitives.verifyStrict
        (Primitives.verifyingKey (couple true).key) foundingAction.messageBytes
          foundingAction.sig = false := by decide +kernel
    rw [hfacts.1] at hsig
    rw [hsig.resolve_right List.not_mem_nil, hfacts.2] at hverify
    cases hverify

theorem built_shown : founding.2 = .ok foundingAction ∧ proposing.2 = .ok proposal :=
  ⟨ok_builtIn (by decide +kernel), ok_builtIn (by decide +kernel)⟩

theorem fair_meeting : ∀ past move rest, meeting = past ++ move :: rest →
    Fair couple {a | a ∈ shown} ((machine couple).run before past) move := by
  refine Lib.forall_cuts_cons.mpr ⟨?_, Lib.forall_cuts_cons.mpr ⟨?_, Lib.forall_cuts_cons.mpr ⟨?_,
    Lib.forall_cuts_cons.mpr ⟨?_, Lib.forall_cuts_cons.mpr ⟨?_, Lib.forall_cuts_cons.mpr ⟨?_,
    Lib.forall_cuts_cons.mpr ⟨?_, Lib.forall_cuts_cons.mpr ⟨?_, Lib.forall_cuts_nil⟩⟩⟩⟩⟩⟩⟩⟩
  · exact congrArg View.entry (Store.fresh_view alice.key alice.name teamModel docId)
  · intro a ha
    replace ha : founding.2 = .ok a := ha
    rw [built_shown.1] at ha
    rw [← Except.ok.inj ha]
    exact List.mem_cons_self
  · refine ⟨List.mem_cons_self, unforged_founding ?_⟩
    show foundingAction ∈ signedBy founding.2
    rw [built_shown.1]
    exact List.mem_cons_self
  · intro j horigin
    cases j with
    | false => exact absurd horigin (by decide)
    | true => rfl
  · intro a ha
    replace ha : proposing.2 = .ok a := ha
    rw [built_shown.2] at ha
    rw [← Except.ok.inj ha]
    exact List.mem_cons_of_mem _ List.mem_cons_self
  · exact List.mem_cons_of_mem _ List.mem_cons_self
  · intro j horigin
    cases j with
    | false => rfl
    | true => exact absurd horigin (by decide)
  · refine ⟨List.mem_cons_self, unforged_founding ?_⟩
    show foundingAction ∈ [] ++ signedBy founding.2 ++ signedBy proposing.2
    rw [built_shown.1]
    exact List.mem_cons_self

/-- Alice's node accepts what takes two: both have signed. -/
theorem quorum_needs_couple :
    ∃ T : Finset Origin, 2 ≤ T.card ∧ ∀ o ∈ T, ∃ j, (couple j).origin = o ∧
      ((machine couple).run before meeting).EndorsedBy j endorsed := by
  have hstore : ((machine couple).run before meeting).store false = proposing.1 := rfl
  have hfacts : proposing.1.accepts endorsed = true ∧
      ((proposing.1.models.find endorsed.model).bind fun m => m.quorum endorsed.kind) =
        some twoMembers ∧
      (proposing.1.quorumGroup twoMembers endorsed).map (fun g =>
        Inner.liveStrings g.doc twoMembers.field) = some ["alice", "bob"] := by decide +kernel
  rw [← hstore] at hfacts
  obtain ⟨haccepts, hquorum, hmembers⟩ := hfacts
  obtain ⟨m, hm, hspec⟩ := Option.bind_eq_some_iff.mp hquorum
  have hbuilt : proposal ∈ ((machine couple).run before meeting).built false := by
    show proposal ∈ [] ++ signedBy founding.2 ++ signedBy proposing.2
    rw [built_shown.2]
    exact List.mem_append_right _ List.mem_cons_self
  have hcosigned : proposal ∈ ((machine couple).run before meeting).cosigned true := by
    have hok : (addCosig proposal bob.name bob.key).2.isOk = true := by decide +kernel
    show proposal ∈ [] ++ signedBy ((addCosig proposal bob.name bob.key).2.map fun _ => proposal)
    cases hres : (addCosig proposal bob.name bob.key).2 with
    | ok u => exact List.mem_cons_self
    | error e =>
      rw [hres] at hok
      cases hok
  have hunforged : ((machine couple).run before meeting).Unforged couple endorsed := by
    intro j sig _ _
    have hbytes : proposal.messageBytes = endorsed.messageBytes := by decide +kernel
    cases j with
    | false => exact Or.inl ⟨proposal, hbuilt, hbytes⟩
    | true => exact Or.inr (Or.inl ⟨proposal, hcosigned, hbytes⟩)
  obtain ⟨g, hg, hall⟩ := quorum_needs_holders couple_injective short_shown jsonFaithful_shown
    (fun _ => teamModel) fair_meeting meeting [] (List.append_nil _).symm false endorsed m
    twoMembers (by simp [shown]) hunforged haccepts hm hspec
  rw [show (machine couple).run (start couple fun _ => teamModel) meeting =
    (machine couple).run before meeting from rfl] at hg
  rw [hg] at hmembers
  obtain ⟨T, hcard, hT⟩ := hall ∅ fun o ho _ => by
    rw [show Inner.liveStrings g.doc twoMembers.field = ["alice", "bob"] from
      Option.some.inj hmembers] at ho
    simp only [List.mem_cons, List.not_mem_nil, or_false] at ho
    rcases ho with rfl | rfl
    · exact ⟨false, rfl⟩
    · exact ⟨true, rfl⟩
  exact ⟨T, hcard, fun o ho => (hT o ho).2.2⟩

end World

end

end PhReactor
