/-
  A quorum is met by SIGNATURES of members, each counted once.

  An action travels between the members as a proposal.  Each of them adds a co-signature
  (`addCosig`), and a CLI reports the progress (`endorserCount`).  The store decides on its own: one
  loop checks every signature, and later another one counts the members among the signers.  The two
  counts are written with different data structures, and neither looks at a signature.

  1. Counting.  Both counts are the number of members among the signers (`Lib/Threshold.lean`), so
     neither order nor repetition matters, of the members or of the co-signatures
     (`endorserCount_eq`).

  2. Co-signing.  A new signer is added, and a member that is new raises the count by one; whoever
     has signed is refused, the proposer too (`addCosig_of_mem`, `endorserCount_addCosig`).

  3. The store.  An action with a declared quorum is accepted only where the group is found and has
     enough members that signed it, each under the key the store has pinned (`quorum_of_accepted`).
-/
import PhReactor.Store.SelfQuorum
import PhReactor.Store.Membership

namespace PhReactor

/-! ## The count of the CLI -/

/-- How many distinct members have endorsed, counting the proposer. -/
def endorserCount (a : Action) (members : List String) : ℕ :=
  let isMember : String → Bool := fun o => members.any fun m => m == o
  let seen : List Origin := if isMember a.origin then [a.origin] else []
  let seen := a.cosig.foldl
    (fun seen cs => if isMember cs.origin && !seen.contains cs.origin then seen ++ [cs.origin]
      else seen) seen
  seen.length

theorem mem_signers {a : Action} {o : Origin} :
    o ∈ a.signers ↔ a.origin = o ∨ (a.cosig.any fun c => c.origin == o) = true := by
  unfold Action.signers
  rw [List.mem_toFinset, List.mem_cons, List.mem_map, List.any_eq_true]
  constructor
  · rintro (rfl | ⟨c, hc, rfl⟩)
    · exact Or.inl rfl
    · exact Or.inr ⟨c, hc, beq_self_eq_true _⟩
  · rintro (rfl | ⟨c, hc, heq⟩)
    · exact Or.inl rfl
    · exact Or.inr ⟨c, hc, beq_iff_eq.mp heq⟩

/-- Membership as the loop tests it. -/
theorem any_beq_iff {members : List String} {o : Origin} :
    (members.any fun m => m == o) = true ↔ o ∈ members := by
  simp

/-- The loop is the one pass of `Lib/Threshold.lean`, the proposer first. -/
theorem endorserCount_eq_foldl (a : Action) (members : List String) :
    endorserCount a members =
      ((a.origin :: a.cosig.map CoSig.origin).foldl
        (Lib.note fun o => members.any fun m => m == o) []).length := by
  unfold endorserCount
  rw [List.foldl_cons, List.foldl_map]
  unfold Lib.note
  simp

/-- **The count of the CLI**: the members among the signers. -/
theorem endorserCount_eq (a : Action) (members : List String) :
    endorserCount a members = (a.signers ∩ members.toFinset).card := by
  rw [endorserCount_eq_foldl, Lib.length_foldl_note]
  congr 1
  ext o
  rw [List.mem_toFinset, List.mem_filter, any_beq_iff, Finset.mem_inter, List.mem_toFinset]
  simp [Action.signers]

/-! ## Co-signing -/

section

variable [Primitives]

/-- Add `origin`'s co-signature to an action, in place. -/
def addCosig (a : Action) (origin : Origin) (key : SigningKey) : Action × Except String Unit :=
  if a.origin = origin then
    (a, .error "you proposed this action; your signature already counts toward the quorum")
  else if a.cosig.any fun c => c.origin == origin then
    (a, .error "you have already co-signed this proposal")
  else ({ a with cosig := a.cosig ++ [⟨origin, Primitives.sign key a.messageBytes⟩] }, .ok ())

/-- Whoever has signed is refused, and the proposal stays as it is. -/
theorem addCosig_of_mem {a : Action} {o : Origin} (h : o ∈ a.signers) (key : SigningKey) :
    ∃ problem, addCosig a o key = (a, .error problem) := by
  unfold addCosig
  by_cases horigin : a.origin = o
  · exact ⟨_, if_pos horigin⟩
  · have hcosig := (mem_signers.mp h).resolve_left horigin
    exact ⟨_, by rw [if_neg horigin, if_pos hcosig]⟩

theorem addCosig_of_not_mem {a : Action} {o : Origin} (h : o ∉ a.signers) (key : SigningKey) :
    addCosig a o key =
      ({ a with cosig := a.cosig ++ [⟨o, Primitives.sign key a.messageBytes⟩] }, .ok ()) := by
  rw [mem_signers, not_or] at h
  unfold addCosig
  rw [if_neg h.1, if_neg h.2]

/-- A new signer is one signer more. -/
theorem signers_addCosig {a : Action} {o : Origin} (h : o ∉ a.signers) (key : SigningKey) :
    (addCosig a o key).1.signers = insert o a.signers := by
  rw [addCosig_of_not_mem h]
  ext x
  simp only [Action.signers, List.map_append, List.map_cons, List.map_nil, List.mem_toFinset,
    List.mem_cons, List.mem_append, List.not_mem_nil, or_false, Finset.mem_insert]
  tauto

/-- A co-signature leaves the message, and with it every earlier signature, as it was. -/
theorem verifyCosig_addCosig {a : Action} {o : Origin} (h : o ∉ a.signers) (key : SigningKey)
    {i : ℕ} (hi : i < a.cosig.length) (k : PublicKey) :
    (addCosig a o key).1.verify k = a.verify k ∧
      (addCosig a o key).1.verifyCosig i k = a.verifyCosig i k := by
  rw [addCosig_of_not_mem h]
  refine ⟨rfl, ?_⟩
  unfold Action.verifyCosig
  dsimp only
  rw [List.getElem?_append_left hi]
  rfl

/-- **A member that is new raises the count by one.** -/
theorem endorserCount_addCosig {a : Action} {members : List String} {o : Origin}
    (hmember : o ∈ members) (h : o ∉ a.signers) (key : SigningKey) :
    endorserCount (addCosig a o key).1 members = endorserCount a members + 1 := by
  rw [endorserCount_eq, endorserCount_eq, signers_addCosig h,
    Finset.insert_inter_of_mem (List.mem_toFinset.mpr hmember)]
  exact Finset.card_insert_of_notMem fun hmem => h (Finset.mem_inter.mp hmem).1

/-! ## The store -/

namespace Inner

variable (s : Inner)

/-- The group a quorum is declared for, as the code resolves it. -/
def quorumGroup (spec : QuorumSpec) (a : Action) : Option Entry :=
  if spec.group = "$self" then
    (s.entries[a.docId]?).bind fun e => if e.doc.name = "" then none else s.namesake e
  else (s.names[spec.group]?).bind fun id => s.entries[id]?

/-- `o` has signed `a`, as its proposer or as a co-signer, under the key pinned for it. -/
def SignedBy (a : Action) (o : Origin) : Prop :=
  ∃ k, s.knownKeys[o]? = some k ∧ Primitives.keyOk k = true ∧
    ((a.origin = o ∧ a.verify k = true) ∨
      ∃ i c, a.cosig[i]? = some c ∧ c.origin = o ∧ a.verifyCosig i k = true)

end Inner

/-- A quorum is met when its group is found and enough of the members are among the signers. -/
theorem quorumProblem_eq_none {s : Inner} {spec : QuorumSpec} {a : Action} :
    s.quorumProblem spec a = none ↔ ∃ g, s.quorumGroup spec a = some g ∧
      spec.min ≤ (Inner.endorsers (Inner.liveStrings g.doc spec.field) a).length := by
  by_cases hself : spec.group = "$self"
  · rw [quorumProblem_self hself]
    unfold Inner.quorumGroup
    rw [if_pos hself]
    constructor
    · rintro ⟨e, g, he, hname, hg, hmin⟩
      exact ⟨g, by rw [he, Option.bind_some, if_neg hname, hg], hmin⟩
    · rintro ⟨g, hg, hmin⟩
      obtain ⟨e, he, hbind⟩ := Option.bind_eq_some_iff.mp hg
      by_cases hname : e.doc.name = ""
      · rw [if_pos hname] at hbind
        cases hbind
      · rw [if_neg hname] at hbind
        exact ⟨e, g, he, hname, hbind, hmin⟩
  · unfold Inner.quorumProblem Inner.quorumGroup
    rw [if_neg hself, if_neg hself]
    dsimp only
    cases hg : (s.names[spec.group]?).bind fun id => s.entries[id]? with
    | none => simp
    | some g =>
      simp only [Option.some.injEq, exists_eq_left']
      split
      · next hlt => exact iff_of_false (fun h => by cases h) (by omega)
      · next hge => exact iff_of_true rfl (by omega)

/-- Every signer of an accepted action has a signature that verifies. -/
theorem signedBy_of_accepted {s : Inner} {a : Action} {m : Model} (hacc : s.Accepted a m)
    {o : Origin} (ho : o ∈ a.signers) : s.SignedBy a o := by
  rcases List.mem_cons.mp (List.mem_toFinset.mp ho) with rfl | hcosig
  · obtain ⟨k, hk, hok, hverify⟩ := hacc.verified
    exact ⟨k, hk, hok, Or.inl ⟨rfl, hverify⟩⟩
  · obtain ⟨c, hc, rfl⟩ := List.mem_map.mp hcosig
    obtain ⟨i, hi⟩ := List.mem_iff_getElem?.mp hc
    obtain ⟨k, hk, hok, hverify⟩ := hacc.cosigsVerified i c hi
    exact ⟨k, hk, hok, Or.inr ⟨i, c, hi, rfl, hverify⟩⟩

/-- **A quorum of signatures**: where an action with a declared quorum is accepted, the group is
    found, and enough of its members have signed. -/
theorem quorum_of_accepted {s : Inner} {a : Action} {m : Model} (hacc : s.Accepted a m)
    {spec : QuorumSpec} (hspec : m.quorum a.kind = some spec) :
    ∃ g, s.quorumGroup spec a = some g ∧ ∃ S : Finset Origin, spec.min ≤ S.card ∧
      ∀ o ∈ S, o ∈ Inner.liveStrings g.doc spec.field ∧ s.SignedBy a o := by
  have hquorum := hacc.quorum
  unfold Inner.checkQuorum at hquorum
  rw [hspec] at hquorum
  dsimp only at hquorum
  cases hproblem : s.quorumProblem spec a with
  | some problem =>
    rw [hproblem] at hquorum
    cases hquorum
  | none =>
    obtain ⟨g, hg, hmin⟩ := quorumProblem_eq_none.mp hproblem
    rw [length_endorsers_eq] at hmin
    refine ⟨g, hg, _, hmin, fun o ho => ?_⟩
    obtain ⟨hsigner, hmember⟩ := Finset.mem_inter.mp ho
    exact ⟨List.mem_toFinset.mp hmember, signedBy_of_accepted hacc hsigner⟩

/-- **Quorums are sound, and both counts agree.**  An action with a declared quorum that the store
    accepts is signed by enough members of the group the store resolves, each with a signature that
    verifies under its pinned key.  The count of the store is the count of the CLI for every list of
    the same members.  Only who proposed and who co-signed matters to it, not in which order or how
    often.  A co-signature of a member that has not signed raises it by exactly one, and a repeated
    one or the proposer's own is refused. -/
theorem quorum_sound_and_agreed :
    (∀ (s : Inner) (a : Action) (m : Model) (spec : QuorumSpec), s.accepts a = true →
      s.models.find a.model = some m → m.quorum a.kind = some spec →
      ∃ g, s.quorumGroup spec a = some g ∧ ∃ S : Finset Origin, spec.min ≤ S.card ∧
        ∀ o ∈ S, o ∈ Inner.liveStrings g.doc spec.field ∧ s.SignedBy a o) ∧
    (∀ (a : Action) (M members : List String), (∀ o, o ∈ members ↔ o ∈ M) →
      (Inner.endorsers M a).length = endorserCount a members) ∧
    (∀ (a : Action) (cosig : List CoSig) (members : List String),
      (∀ o, o ∈ cosig.map CoSig.origin ↔ o ∈ a.cosig.map CoSig.origin) →
      endorserCount { a with cosig := cosig } members = endorserCount a members) ∧
    (∀ (a : Action) (members : List String) (o : Origin) (key : SigningKey),
      o ∈ members → o ∉ a.signers →
      (addCosig a o key).2 = .ok () ∧
        endorserCount (addCosig a o key).1 members = endorserCount a members + 1) ∧
    (∀ (a : Action) (o : Origin) (key : SigningKey), o ∈ a.signers →
      ∃ problem, addCosig a o key = (a, .error problem)) := by
  refine ⟨?_, ?_, ?_, ?_, fun a o key h => addCosig_of_mem h key⟩
  · intro s a m spec hacc hm hspec
    obtain ⟨m', hacc⟩ := Inner.accepts_iff.mp hacc
    obtain rfl := Option.some.inj (hacc.model.symm.trans hm)
    exact quorum_of_accepted hacc hspec
  · intro a M members hsame
    rw [length_endorsers_eq, endorserCount_eq]
    congr 2
    ext o
    rw [List.mem_toFinset, List.mem_toFinset, hsame]
  · intro a cosig members hsame
    rw [endorserCount_eq, endorserCount_eq]
    congr 2
    ext o
    simp only [Action.signers, List.mem_toFinset, List.mem_cons, hsame]
  · intro a members o key hmember hnew
    exact ⟨by rw [addCosig_of_not_mem hnew], endorserCount_addCosig hmember hnew key⟩

end

section

open Sample

attribute [local instance] Sample.primitives

/-- The group with bob's key pinned, and alice about to make him a manager. -/
theorem promoteBob_quorum :
    ((Store.fresh alice.key alice.name []).execAll coreEvents).accepts promoteBob = true ∧
      ((((Store.fresh alice.key alice.name []).execAll coreEvents).models.find
        promoteBob.model).bind fun m => m.quorum promoteBob.kind) = some twoMembers := by
  decide +kernel

theorem two_members_signed :
    ∃ g, ((Store.fresh alice.key alice.name []).execAll coreEvents).quorumGroup twoMembers
        promoteBob = some g ∧
      ∃ S : Finset Origin, 2 ≤ S.card ∧ ∀ o ∈ S, o ∈ Inner.liveStrings g.doc "members" ∧
        ((Store.fresh alice.key alice.name []).execAll coreEvents).SignedBy promoteBob o := by
  obtain ⟨hacc, hquorum⟩ := promoteBob_quorum
  obtain ⟨m, hm, hspec⟩ := Option.bind_eq_some_iff.mp hquorum
  exact quorum_sound_and_agreed.1 _ promoteBob m twoMembers hacc hm hspec

end

end PhReactor
