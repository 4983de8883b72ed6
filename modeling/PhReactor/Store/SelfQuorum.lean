/-
  Who judges a `$self` quorum.

  A reducer may ask for a quorum of the document's OWN members (`"group": "$self"`).  The code reads
  the document's name and resolves it through the name index, as it does for any other group; and
  the index leads from a name to whichever document got it last.  So the document that judges may
  be another one of the same name, or none at all (`self_quorum_captured`).

  1. The two verdicts.  `quorumProblem_self` is the code's: the members of the entry the index leads
     to are counted.  `MetBySelf` is the document's own.  A document without a name has no quorum,
     in both: that is a guard of its own in the code.

  2. When they agree, for everyone who may sign (`SelfResolves`): the entry found has the same
     members, or both groups are smaller than the minimum, or the minimum is zero; and where nothing
     is found, the document's own group is too small (`Lib/Threshold.lean`).

  3. Where the index is right (`Store/NameIndex.lean`) a live document that alone has its name is
     judged by itself.
-/
import PhReactor.Lib.Threshold
import PhReactor.Store.NameIndex

set_option linter.unusedSectionVars false

namespace PhReactor

section

/-! ## Counting -/

/-- Everyone who endorses an action. -/
def Action.signers (a : Action) : Finset Origin := (a.origin :: a.cosig.map CoSig.origin).toFinset

/-- The members of an entry, by field. -/
def Entry.members (e : Entry) (field : String) : Finset String :=
  (Inner.liveStrings e.doc field).toFinset

/-- **The count of the store**: the members among the signers. -/
theorem length_endorsers_eq (members : List String) (a : Action) :
    (Inner.endorsers members a).length = (a.signers ∩ members.toFinset).card := by
  unfold Inner.endorsers
  rw [← List.toFinset_card_of_nodup (List.nodup_dedup _)]
  congr 1
  ext o
  simp [Action.signers]

theorem length_endorsers (e : Entry) (field : String) (a : Action) :
    (Inner.endorsers (Inner.liveStrings e.doc field) a).length =
      (a.signers ∩ e.members field).card := length_endorsers_eq _ a

/-- Anyone may sign. -/
theorem exists_signers (d : DocId) {S : Finset Origin} (hS : S.Nonempty) :
    ∃ a : Action, a.docId = d ∧ a.signers = S := by
  obtain ⟨o, ho⟩ := hS
  refine ⟨{
    docId := d
    model := openRef
    kind := "set"
    payload := .null
    ts := 0
    clock := VecClock.empty
    origin := o
    cosig := S.toList.map fun o => ⟨o, 0⟩
    prevHash := none
    space := none
    sig := 0 }, rfl, ?_⟩
  ext x
  simp only [Action.signers, List.map_map, List.mem_toFinset, List.mem_cons, List.mem_map,
    Finset.mem_toList, Function.comp_apply, exists_eq_right]
  constructor
  · rintro (rfl | hx)
    · exact ho
    · exact hx
  · exact Or.inr

variable [Primitives]

/-! ## The two verdicts -/

namespace Inner

variable (s : Inner)

/-- The entry that the name of `e` leads to. -/
def namesake (e : Entry) : Option Entry := (s.names[e.doc.name]?).bind fun id => s.entries[id]?

/-- The document's own verdict: it has a name, and enough of its members have signed. -/
def MetBySelf (spec : QuorumSpec) (a : Action) : Prop :=
  ∃ e, s.entries[a.docId]? = some e ∧ e.doc.name ≠ "" ∧
    spec.min ≤ (endorsers (liveStrings e.doc spec.field) a).length

/-- Every action on `d` gets the verdict of `d` itself. -/
def JudgedBySelf (d : DocId) (spec : QuorumSpec) : Prop :=
  ∀ a : Action, a.docId = d → (s.quorumProblem spec a = none ↔ s.MetBySelf spec a)

/-- The index leads from the name of `d` to a group that cannot be told from its own. -/
def SelfResolves (d : DocId) (spec : QuorumSpec) : Prop :=
  ∀ e, s.entries[d]? = some e → e.doc.name ≠ "" →
    match s.namesake e with
    | some g => spec.min = 0 ∨ e.members spec.field = g.members spec.field ∨
        ((e.members spec.field).card < spec.min ∧ (g.members spec.field).card < spec.min)
    | none => (e.members spec.field).card < spec.min

end Inner

/-- **The verdict of the code** on a `$self` quorum. -/
theorem quorumProblem_self {s : Inner} {spec : QuorumSpec} (hself : spec.group = "$self")
    (a : Action) : s.quorumProblem spec a = none ↔
      ∃ e g, s.entries[a.docId]? = some e ∧ e.doc.name ≠ "" ∧ s.namesake e = some g ∧
        spec.min ≤ (Inner.endorsers (Inner.liveStrings g.doc spec.field) a).length := by
  unfold Inner.quorumProblem Inner.namesake
  rw [if_pos hself]
  cases he : s.entries[a.docId]? with
  | none => simp
  | some e =>
    by_cases hname : e.doc.name = ""
    · simp [hname]
    · simp only [Option.map_some, if_neg hname]
      cases hg : (s.names[e.doc.name]?).bind fun id => s.entries[id]? with
      | none => simp [hg]
      | some g =>
        by_cases hlt : (Inner.endorsers (Inner.liveStrings g.doc spec.field) a).length < spec.min
        · simp only [if_pos hlt, reduceCtorEq, false_iff]
          rintro ⟨e', g', he', -, hg', hmin⟩
          obtain rfl := Option.some.inj he'
          obtain rfl := Option.some.inj (hg.symm.trans hg')
          omega
        · simp only [if_neg hlt, true_iff]
          exact ⟨e, g, rfl, hname, hg, by omega⟩

/-- The two verdicts on a named document whose index entry is `g`. -/
theorem verdicts_of_namesake {s : Inner} {spec : QuorumSpec} (hself : spec.group = "$self")
    {a : Action} {e g : Entry} (he : s.entries[a.docId]? = some e) (hname : e.doc.name ≠ "")
    (hg : s.namesake e = some g) :
    (s.quorumProblem spec a = none ↔ spec.min ≤ (a.signers ∩ g.members spec.field).card) ∧
    (s.MetBySelf spec a ↔ spec.min ≤ (a.signers ∩ e.members spec.field).card) := by
  rw [quorumProblem_self hself, ← length_endorsers, ← length_endorsers]
  constructor
  · constructor
    · rintro ⟨e', g', he', -, hg', hmin⟩
      obtain rfl := Option.some.inj (he.symm.trans he')
      obtain rfl := Option.some.inj (hg.symm.trans hg')
      exact hmin
    · exact fun hmin => ⟨e, g, he, hname, hg, hmin⟩
  · constructor
    · rintro ⟨e', he', -, hmin⟩
      obtain rfl := Option.some.inj (he.symm.trans he')
      exact hmin
    · exact fun hmin => ⟨e, he, hname, hmin⟩

/-- **When a document judges its own quorum.** -/
theorem judgedBySelf_iff {s : Inner} {d : DocId} {spec : QuorumSpec}
    (hself : spec.group = "$self") : s.JudgedBySelf d spec ↔ s.SelfResolves d spec := by
  constructor
  · intro h e he hname
    cases hg : s.namesake e with
    | some g =>
      refine Lib.sameVerdicts_iff.mp fun S hS => ?_
      obtain ⟨a, rfl, rfl⟩ := exists_signers d hS
      obtain ⟨hcode, hown⟩ := verdicts_of_namesake hself he hname hg
      exact hown.symm.trans ((h a rfl).symm.trans hcode)
    | none =>
      by_contra hge
      -- let all the members sign, and somebody
      obtain ⟨a, rfl, hsigners⟩ := exists_signers d
        (Finset.insert_nonempty "" (e.members spec.field))
      have hmet : s.MetBySelf spec a := by
        refine ⟨e, he, hname, ?_⟩
        rw [length_endorsers, hsigners, Finset.inter_eq_right.mpr (Finset.subset_insert _ _)]
        omega
      obtain ⟨e', g, he', -, hg', -⟩ := (quorumProblem_self hself a).mp ((h a rfl).mpr hmet)
      obtain rfl := Option.some.inj (he.symm.trans he')
      rw [hg] at hg'
      cases hg'
  · rintro h a rfl
    cases he : s.entries[a.docId]? with
    | none =>
      refine iff_of_false (fun hnone => ?_) (fun hmet => ?_)
      · obtain ⟨e, g, he', -⟩ := (quorumProblem_self hself a).mp hnone
        rw [he] at he'
        cases he'
      · obtain ⟨e, he', -⟩ := hmet
        rw [he] at he'
        cases he'
    | some e =>
      by_cases hname : e.doc.name = ""
      · refine iff_of_false (fun hnone => ?_) (fun hmet => ?_)
        · obtain ⟨e', g, he', hne, -⟩ := (quorumProblem_self hself a).mp hnone
          exact hne (Option.some.inj (he.symm.trans he') ▸ hname)
        · obtain ⟨e', he', hne, -⟩ := hmet
          exact hne (Option.some.inj (he.symm.trans he') ▸ hname)
      have hres := h e he hname
      cases hg : s.namesake e with
      | some g =>
        rw [hg] at hres
        obtain ⟨hcode, hown⟩ := verdicts_of_namesake hself he hname hg
        rw [hcode, hown]
        have hsigners : a.signers.Nonempty := ⟨a.origin, by simp [Action.signers]⟩
        exact (Lib.sameVerdicts_iff.mpr hres a.signers hsigners).symm
      | none =>
        rw [hg] at hres
        refine iff_of_false (fun hnone => ?_) (fun hmet => ?_)
        · obtain ⟨e', g, he', -, hg', -⟩ := (quorumProblem_self hself a).mp hnone
          obtain rfl := Option.some.inj (he.symm.trans he')
          rw [hg] at hg'
          cases hg'
        · obtain ⟨e', he', -, hmin⟩ := hmet
          obtain rfl := Option.some.inj (he.symm.trans he')
          rw [length_endorsers] at hmin
          have hle : (a.signers ∩ e.members spec.field).card ≤ (e.members spec.field).card :=
            Finset.card_le_card Finset.inter_subset_right
          dsimp only at hres
          omega

/-- A verdict does not change while the document's own entry stays, as long as the index leads from
    its name to its own group. -/
theorem quorumProblem_congr {s s' : Inner} {spec : QuorumSpec} (hself : spec.group = "$self")
    {a : Action} (hentry : s.entries[a.docId]? = s'.entries[a.docId]?)
    (h : s.SelfResolves a.docId spec) (h' : s'.SelfResolves a.docId spec) :
    s.quorumProblem spec a = none ↔ s'.quorumProblem spec a = none := by
  have hmet : s.MetBySelf spec a ↔ s'.MetBySelf spec a := by
    unfold Inner.MetBySelf
    rw [hentry]
  exact ((judgedBySelf_iff hself).mpr h a rfl).trans
    (hmet.trans ((judgedBySelf_iff hself).mpr h' a rfl).symm)

/-! ## Along a run -/

/-- No other live document carries the name of `e`. -/
def Inner.OnlyNamed (s : Inner) (d : DocId) (e : Entry) : Prop :=
  ∀ d' e', s.entries[d']? = some e' → e'.deleted = false → e'.doc.name = e.doc.name → d' = d

/-- Where the index is right, a live document that alone carries its name is found under it. -/
theorem selfResolves_of_indexed {s : Inner} (h : NamesIndexed s) {d : DocId} {e : Entry}
    (he : s.entries[d]? = some e) (hlive : e.deleted = false) (halone : s.OnlyNamed d e)
    (spec : QuorumSpec) : s.SelfResolves d spec := by
  intro e' he' hname
  obtain rfl := Option.some.inj (he.symm.trans he')
  obtain ⟨d', hd'⟩ := Option.isSome_iff_exists.mp
    (h.complete d e.doc.name (Inner.label_eq_some.mpr ⟨e, he, hlive, rfl, hname⟩))
  obtain ⟨g, hg, hglive, hgname, -⟩ := Inner.label_eq_some.mp (h.sound _ _ hd')
  obtain rfl := halone d' g hg hglive hgname
  have hnamesake : s.namesake e = some e := by
    unfold Inner.namesake
    rw [show s.names[e.doc.name]? = some d' from hd', Option.bind_some, he]
  rw [hnamesake]
  exact Or.inr (Or.inl rfl)

/-- **A `$self` quorum, judged by the document itself.**  In every state: exactly when the index
    leads from its name to a group that cannot be told from its own.  Between any two states in
    which it does, the verdict depends on the document's own entry only.  And in every state of a
    lifetime that keeps the index right, it does for the live documents that alone carry their
    names. -/
theorem self_quorum_judged_iff (spec : QuorumSpec) (hself : spec.group = "$self") :
    (∀ (s : Inner) (d : DocId), s.JudgedBySelf d spec ↔ s.SelfResolves d spec) ∧
    (∀ (s s' : Inner) (a : Action), s.entries[a.docId]? = s'.entries[a.docId]? →
      s.SelfResolves a.docId spec → s'.SelfResolves a.docId spec →
      (s.quorumProblem spec a = none ↔ s'.quorumProblem spec a = none)) ∧
    (∀ (key : SigningKey) (origin : Origin) (extra : List Model) (s : Inner) (acc : List Action),
      Lifetime Indexing (Store.fresh key origin extra) s acc →
      ∀ (d : DocId) (e : Entry), s.entries[d]? = some e → e.deleted = false → s.OnlyNamed d e →
        s.JudgedBySelf d spec) := by
  refine ⟨fun s d => judgedBySelf_iff hself, fun s s' a => quorumProblem_congr hself, ?_⟩
  intro key origin extra s acc h d e he hlive halone
  have hres := selfResolves_of_indexed (namesIndexed_lifetime h) he hlive halone spec
  exact (judgedBySelf_iff hself).mpr hres

end

section

open Sample

attribute [local instance] Sample.primitives

/-- The quorum of the built-in groups and spaces. -/
def twoMembers : QuorumSpec := ⟨"$self", 2, "members"⟩

/-- Mallory creates a group of her own under the name of the sample group. -/
def malloryCore : Action :=
  actOn 9 mallory "group" "init" (.object [("managers", strs ["mallory"]),
    ("members", strs ["mallory"]), ("name", .string "core")]) 15 [("mallory", 1)] none

/-- Alice makes bob a manager, and bob co-signs. -/
def promoteBob : Action :=
  let a := act alice "group" "add-manager" (.object [("member", .string "bob")]) 20
    [("alice", 2)] none
  { a with cosig := [⟨bob.name, Primitives.sign bob.key a.messageBytes⟩] }

/-- The sample group on alice's node. -/
def coreEvents : List Event := pins [bob, mallory] ++ deliver [groupInit]

theorem self_quorum_judged_core :
    ((Store.fresh alice.key alice.name []).execAll coreEvents).JudgedBySelf docId twoMembers := by
  refine ((self_quorum_judged_iff twoMembers rfl).1 _ docId).mpr ?_
  intro e he _
  have hindex : ((Store.fresh alice.key alice.name []).execAll coreEvents).entries[docId]?.bind
      (fun e => ((Store.fresh alice.key alice.name []).execAll coreEvents).names[e.doc.name]?) =
      some docId := by decide +kernel
  rw [he, Option.bind_some] at hindex
  have hnamesake : Inner.namesake ((Store.fresh alice.key alice.name []).execAll coreEvents) e =
      some e := by
    unfold Inner.namesake
    rw [hindex, Option.bind_some, he]
  rw [hnamesake]
  exact Or.inr (Or.inl rfl)

/-- **A quorum judged by a stranger**: once mallory's group has the name, the quorum of the sample
    group is counted among HER members, and two of its own do not meet it. -/
theorem self_quorum_captured :
    ¬ ∀ (evs : List Event) (d : DocId) (spec : QuorumSpec), spec.group = "$self" →
      ((Store.fresh alice.key alice.name []).execAll evs).JudgedBySelf d spec := by
  intro h
  have hjudged := h (coreEvents ++ deliver [malloryCore]) docId twoMembers rfl promoteBob rfl
  have hfacts : (((Store.fresh alice.key alice.name []).execAll
        (coreEvents ++ deliver [malloryCore])).quorumProblem twoMembers promoteBob).isSome = true ∧
      (((Store.fresh alice.key alice.name []).execAll
        (coreEvents ++ deliver [malloryCore])).entries[docId]?.map fun e =>
          (e.doc.name, (Inner.endorsers (Inner.liveStrings e.doc "members") promoteBob).length)) =
        some ("core", 2) := by
    decide +kernel
  obtain ⟨hproblem, hentry⟩ := hfacts
  obtain ⟨e, he, hpair⟩ := Option.map_eq_some_iff.mp hentry
  obtain ⟨hname, hcount⟩ := Prod.mk.inj hpair
  have hmet : ((Store.fresh alice.key alice.name []).execAll
      (coreEvents ++ deliver [malloryCore])).MetBySelf twoMembers promoteBob := by
    refine ⟨e, he, by rw [hname]; decide, ?_⟩
    show 2 ≤ (Inner.endorsers (Inner.liveStrings e.doc "members") promoteBob).length
    rw [hcount]
  rw [hjudged.mpr hmet] at hproblem
  cases hproblem

end

end PhReactor
